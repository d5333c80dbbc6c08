import Gatehouse.Config.Document
import Mathlib.Tactic.Common

/-!
# Settings one by one

The settings differ in where they stand in a document and in when two values count as the same;
otherwise every layer treats them alike.  `Setting` is a name for each of them and `Config.get` its
value.

* `Config.get_merge` — a later layer overrides a setting unless it has the default there.
* `Setting.inEntries?` — what a document gives a setting, if it gives it anything, whatever the
  defaults are; `Config.get_of_ofEntries` fills the defaults in.
-/

namespace Gatehouse

open Gatehouse.Files Gatehouse.Toml

/-! ## Settings and their values -/

/-- The value of a setting. -/
inductive SettingValue where
  /-- A text. -/
  | text (value : String)
  /-- A natural number. -/
  | number (value : UInt64)
  deriving DecidableEq, Repr

/-- The name of a setting. -/
inductive Setting where
  /-- The folder of the ACL documents. -/
  | aclDir
  /-- The pattern of their file names. -/
  | aclPattern
  /-- The folder of the configuration packages. -/
  | uciDir
  /-- After how many idle seconds a session ends. -/
  | timeoutSecs
  /-- How many thousandths of a second a call may take. -/
  | callTimeoutMs
  /-- The path of the client program. -/
  | clientPath
  deriving DecidableEq, Repr

/-- The value of a setting among all settings. -/
def Config.get (c : Config) : Setting → SettingValue
  | .aclDir => .text c.paths.aclDir
  | .aclPattern => .text c.paths.aclPattern
  | .uciDir => .text c.paths.uciDir
  | .timeoutSecs => .number c.session.timeoutSecs
  | .callTimeoutMs => .number c.session.callTimeoutMs
  | .clientPath => .text c.broker.clientPath

namespace Setting

/-- Whether the value is a path. -/
def isPath : Setting → Bool
  | .aclDir => true
  | .uciDir => true
  | .clientPath => true
  | _ => false

/-- Whether the value is a number. -/
def isNumber : Setting → Bool
  | .timeoutSecs => true
  | .callTimeoutMs => true
  | _ => false

/-- Whether two values of the setting count as the same. -/
def same (k : Setting) : SettingValue → SettingValue → Bool
  | .text p, .text q => if k.isPath then samePath p q else p == q
  | .number m, .number n => m == n
  | _, _ => false

/-- The value that holds if no layer gives another. -/
def usual (k : Setting) : SettingValue :=
  Config.default.get k

/-- Whether a value counts as the default. -/
def isUsual (k : Setting) (v : SettingValue) : Bool :=
  k.same v k.usual

theorem same_iff {k : Setting} {v w : SettingValue} : k.same v w = true ↔
    v = w ∨ k.isPath = true ∧ ∃ p q, v = .text p ∧ w = .text q ∧ components p = components q := by
  cases v with
  | number n => cases w <;> simp [same]
  | text p =>
    cases w with
    | number n => simp [same]
    | text q =>
      by_cases hk : k.isPath = true
      · simp only [same, samePath, hk, if_true, beq_iff_eq, SettingValue.text.injEq, true_and,
          exists_and_left, exists_eq_left']
        refine ⟨Or.inr, ?_⟩
        rintro (rfl | h)
        · rfl
        · exact h
      · simp [same, hk]

@[simp] theorem same_self (k : Setting) (v : SettingValue) : k.same v v = true :=
  same_iff.2 (Or.inl rfl)

theorem same_comm {k : Setting} {v w : SettingValue} (h : k.same v w = true) :
    k.same w v = true := by
  rcases same_iff.1 h with rfl | ⟨hk, p, q, rfl, rfl, hpq⟩
  · exact same_self k v
  · exact same_iff.2 (Or.inr ⟨hk, q, p, rfl, rfl, hpq.symm⟩)

theorem same_trans {k : Setting} {u v w : SettingValue} (huv : k.same u v = true)
    (hvw : k.same v w = true) : k.same u w = true := by
  rcases same_iff.1 huv with rfl | ⟨hk, p, q, rfl, rfl, hpq⟩
  · exact hvw
  rcases same_iff.1 hvw with rfl | ⟨-, q', r, hq, rfl, hqr⟩
  · exact huv
  · obtain rfl := SettingValue.text.inj hq
    exact same_iff.2 (Or.inr ⟨hk, p, r, rfl, rfl, hpq.trans hqr⟩)

end Setting

/-- A later layer over others gives a setting the value it has there, unless that is the
default. -/
theorem Config.get_merge (base later : Config) (k : Setting) :
    (base.merge later).get k =
      if k.isUsual (later.get k) then base.get k else later.get k := by
  cases k with
  | aclDir => exact apply_ite SettingValue.text _ _ _
  | aclPattern => exact apply_ite SettingValue.text _ _ _
  | uciDir => exact apply_ite SettingValue.text _ _ _
  | timeoutSecs => exact apply_ite SettingValue.number _ _ _
  | callTimeoutMs => exact apply_ite SettingValue.number _ _ _
  | clientPath => exact apply_ite SettingValue.text _ _ _

/-! ## What documents give -/

/-- The text that stands in a node. -/
def Toml.Node.text? : Node → Option String
  | .scalar (.string v) => some v
  | _ => none

/-- The number that stands in a node. -/
def Toml.Node.number? : Node → Option UInt64
  | .scalar (.integer v) => if 0 ≤ v then some (.ofNat v.toNat) else none
  | _ => none

namespace Setting

/-- The section of a document that the setting is in. -/
def part : Setting → String
  | .aclDir => "paths"
  | .aclPattern => "paths"
  | .uciDir => "paths"
  | .timeoutSecs => "session"
  | .callTimeoutMs => "session"
  | .clientPath => "broker"

/-- The key of the setting in its section. -/
def key : Setting → String
  | .aclDir => "acl_dir"
  | .aclPattern => "acl_pattern"
  | .uciDir => "uci_dir"
  | .timeoutSecs => "timeout_secs"
  | .callTimeoutMs => "call_timeout_ms"
  | .clientPath => "ubus_path"

/-- The place of the setting in its section. -/
def place : Setting → Nat
  | .aclDir => 0
  | .aclPattern => 1
  | .uciDir => 2
  | .timeoutSecs => 0
  | .callTimeoutMs => 1
  | .clientPath => 0

/-- The value in a node. -/
def ofNode? (k : Setting) (n : Node) : Option SettingValue :=
  if k.isNumber then n.number?.map .number else n.text?.map .text

/-- What the entries of a document give the setting. -/
def inEntries? (k : Setting) (t : Entries) : Option SettingValue :=
  (SettingSource.section? k.part t).bind fun s => (s.get? k.key k.place).bind k.ofNode?

end Setting

theorem Setting.text_inEntries {k : Setting} {t : Entries} {s : SettingSource} {usual v : String}
    (hk : k.isNumber = false) (hs : SettingSource.section? k.part t = some s)
    (h : s.text k.key k.place usual = some v) :
    .text v = (k.inEntries? t).getD (.text usual) := by
  rw [inEntries?, hs, Option.bind_some]
  unfold SettingSource.text at h
  split at h
  · rename_i hget
    obtain rfl := Option.some.inj h
    rw [hget]
    rfl
  · rename_i hget
    obtain rfl := Option.some.inj h
    rw [hget]
    simp [ofNode?, hk, Node.text?]
  · exact absurd h (by simp)

theorem Setting.number_inEntries {k : Setting} {t : Entries} {s : SettingSource}
    {usual v : UInt64} (hk : k.isNumber = true) (hs : SettingSource.section? k.part t = some s)
    (h : s.number k.key k.place usual = some v) :
    .number v = (k.inEntries? t).getD (.number usual) := by
  rw [inEntries?, hs, Option.bind_some]
  unfold SettingSource.number at h
  split at h
  · rename_i hget
    obtain rfl := Option.some.inj h
    rw [hget]
    rfl
  · rename_i n hget
    rw [hget]
    split at h
    · rename_i hn
      obtain rfl := Option.some.inj h
      simp [ofNode?, hk, Node.number?, hn]
    · exact absurd h (by simp)
  · exact absurd h (by simp)

/-- The settings in a document are what it gives them, and the defaults for the others. -/
theorem Config.get_of_ofEntries {t : Entries} {c : Config} (h : ofEntries? t = some c)
    (k : Setting) : c.get k = (k.inEntries? t).getD k.usual := by
  simp only [ofEntries?, Option.bind_eq_bind, Option.bind_eq_some_iff, Option.pure_def,
    Option.some.injEq] at h
  obtain ⟨paths, hpaths, session, hsession, broker, hbroker, aclDir, haclDir, aclPattern,
    haclPattern, uciDir, huciDir, timeoutSecs, htimeoutSecs, callTimeoutMs, hcallTimeoutMs,
    clientPath, hclientPath, rfl⟩ := h
  cases k with
  | aclDir => exact Setting.text_inEntries rfl hpaths haclDir
  | aclPattern => exact Setting.text_inEntries rfl hpaths haclPattern
  | uciDir => exact Setting.text_inEntries rfl hpaths huciDir
  | timeoutSecs => exact Setting.number_inEntries rfl hsession htimeoutSecs
  | callTimeoutMs => exact Setting.number_inEntries rfl hsession hcallTimeoutMs
  | clientPath => exact Setting.text_inEntries rfl hbroker hclientPath

end Gatehouse
