import Gatehouse.Config.Basic
import Gatehouse.Toml.Reader

/-!
# Settings in a TOML document

A document may set any of the settings in three sections.  What it does not mention has its default
value, and keys that are not known are passed over.  A section can also be an array that lists its
settings in order.
-/

namespace Gatehouse

open Gatehouse.Toml

/-- A part of a document that holds settings. -/
inductive SettingSource where
  /-- Settings by name. -/
  | named (entries : Entries)
  /-- Settings in their order. -/
  | listed (items : List Node)

namespace SettingSource

/-- The section with this name.  A date and time is read like a section without known names. -/
def section? (name : String) (t : Entries) : Option SettingSource :=
  match Keyed.get? name t with
  | none => some (.named [])
  | some (.table _ es) => some (.named es)
  | some (.array vs) => some (.listed vs)
  | some (.tables ts) => some (.listed (ts.map (.table .header)))
  | some (.scalar .moment) => some (.named [])
  | some (.scalar _) => none

/-- The value of a setting that has a name and a place. -/
def get? (s : SettingSource) (name : String) (place : Nat) : Option Node :=
  match s with
  | .named es => Keyed.get? name es
  | .listed vs => vs[place]?

/-- A setting that is a text; `usual` holds if it is not set. -/
def text (s : SettingSource) (name : String) (place : Nat) (usual : String) : Option String :=
  match s.get? name place with
  | none => some usual
  | some (.scalar (.string v)) => some v
  | some _ => none

/-- A setting that is a natural number; `usual` holds if it is not set. -/
def number (s : SettingSource) (name : String) (place : Nat) (usual : UInt64) : Option UInt64 :=
  match s.get? name place with
  | none => some usual
  | some (.scalar (.integer v)) => if 0 ≤ v then some (.ofNat v.toNat) else none
  | some _ => none

end SettingSource

namespace Config

/-- The settings in the entries of a document. -/
def ofEntries? (t : Entries) : Option Config := do
  let paths ← SettingSource.section? "paths" t
  let session ← SettingSource.section? "session" t
  let broker ← SettingSource.section? "broker" t
  let aclDir ← paths.text "acl_dir" 0 default.paths.aclDir
  let aclPattern ← paths.text "acl_pattern" 1 default.paths.aclPattern
  let uciDir ← paths.text "uci_dir" 2 default.paths.uciDir
  let timeoutSecs ← session.number "timeout_secs" 0 default.session.timeoutSecs
  let callTimeoutMs ← session.number "call_timeout_ms" 1 default.session.callTimeoutMs
  let clientPath ← broker.text "ubus_path" 0 default.broker.clientPath
  pure ⟨⟨aclDir, aclPattern, uciDir⟩, ⟨timeoutSecs, callTimeoutMs⟩, ⟨clientPath⟩⟩

/-- The settings in a text. -/
def parse? (text : String) : Option Config :=
  (Toml.parse? text).bind ofEntries?

end Config

end Gatehouse
