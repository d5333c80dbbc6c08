import Gatehouse.Json.Value
import Mathlib.Tactic.Common

/-!
# Members of JSON objects

`Json.member?` looks a name up in an object.  In general an object may have a name twice;
`Json.Distinct` says that no object inside a value does.  Settling a value brings this about
(`distinct_settled`), and does nothing where it holds (`Distinct.settled_eq`).  In such a value the
members of an object are exactly its names with what `member?` finds under them
(`member?_eq_some_iff`).
-/

namespace Gatehouse.Json

/-- The value under a name, if the value is an object that has the name. -/
def member? (v : Json) (name : String) : Option Json :=
  v.object?.bind (Keyed.get? name)

/-- No object inside the value has a name twice. -/
inductive Distinct : Json → Prop where
  | null : Distinct .null
  | bool (b : Bool) : Distinct (.bool b)
  | number (s : String) : Distinct (.number s)
  | string (s : String) : Distinct (.string s)
  | array {items : List Json} (h : ∀ v ∈ items, Distinct v) : Distinct (.array items)
  | object {members : List (String × Json)} (hn : (members.map Prod.fst).Nodup)
      (h : ∀ e ∈ members, Distinct e.2) : Distinct (.object members)

theorem Distinct.nodup {members : List (String × Json)} (h : Distinct (.object members)) :
    (members.map Prod.fst).Nodup := by
  cases h with
  | object hn _ => exact hn

theorem Distinct.of_mem {members : List (String × Json)} (h : Distinct (.object members))
    {e : String × Json} (he : e ∈ members) : e.2.Distinct := by
  cases h with
  | object _ h => exact h e he

theorem mem_settledMembers {members : List (String × Json)} {e : String × Json}
    (h : e ∈ settledMembers members) : ∃ d ∈ members, e = (d.1, d.2.settled) := by
  induction members with
  | nil => exact absurd h List.not_mem_nil
  | cons d r ih =>
    obtain ⟨k, v⟩ := d
    rcases List.mem_cons.1 h with rfl | hr
    · exact ⟨(k, v), List.mem_cons_self, rfl⟩
    · obtain ⟨d, hd, rfl⟩ := ih hr
      exact ⟨d, List.mem_cons_of_mem _ hd, rfl⟩

theorem mem_settledItems {items : List Json} {v : Json} (h : v ∈ settledItems items) :
    ∃ w ∈ items, v = w.settled := by
  induction items with
  | nil => exact absurd h List.not_mem_nil
  | cons w r ih =>
    rcases List.mem_cons.1 h with rfl | hr
    · exact ⟨w, List.mem_cons_self, rfl⟩
    · obtain ⟨w, hw, rfl⟩ := ih hr
      exact ⟨w, List.mem_cons_of_mem _ hw, rfl⟩

/-- Settling a value leaves no name twice in any object inside it. -/
theorem distinct_settled : ∀ v : Json, v.settled.Distinct
  | .null => .null
  | .bool b => .bool b
  | .number s => .number s
  | .string s => .string s
  | .array items => by
    refine .array fun v hv => ?_
    obtain ⟨w, hw, rfl⟩ := mem_settledItems hv
    exact distinct_settled w
  | .object members => by
    obtain ⟨hn, hm⟩ := Keyed.collapse_spec (settledMembers members)
    refine .object hn fun e he => ?_
    obtain ⟨⟨k, w⟩, hd, rfl⟩ := mem_settledMembers (hm e he)
    have hlt : sizeOf w < sizeOf members := by
      have := List.sizeOf_lt_of_mem hd
      simp only [Prod.mk.sizeOf_spec] at this
      omega
    exact distinct_settled w
termination_by v => sizeOf v

/-- A value in which no object has a name twice is settled. -/
theorem Distinct.settled_eq {v : Json} (h : v.Distinct) : v.settled = v := by
  induction h with
  | null | bool | number | string => rfl
  | @array items _ ih =>
    have hitems : ∀ vs : List Json, (∀ v ∈ vs, v.settled = v) → settledItems vs = vs := by
      intro vs hvs
      induction vs with
      | nil => rfl
      | cons v vs ihvs =>
        obtain ⟨hv, hrest⟩ := List.forall_mem_cons.1 hvs
        rw [settledItems, hv, ihvs hrest]
    rw [settled, hitems items ih]
  | @object members hn _ ih =>
    have hmembers : ∀ es : List (String × Json), (∀ e ∈ es, e.2.settled = e.2) →
        settledMembers es = es := by
      intro es hes
      induction es with
      | nil => rfl
      | cons e es ihes =>
        obtain ⟨he, hrest⟩ := List.forall_mem_cons.1 hes
        rw [settledMembers, he, ihes hrest]
    rw [settled, hmembers members ih, Keyed.collapse_of_nodup hn]

/-- The members of an object in a settled value, by name. -/
theorem member?_eq_some_iff {members : List (String × Json)} (h : Distinct (.object members))
    {name : String} {v : Json} :
    (Json.object members).member? name = some v ↔ (name, v) ∈ members :=
  Keyed.get?_eq_some_iff h.nodup

theorem exists_object_of_member? {v w : Json} {name : String} (h : v.member? name = some w) :
    ∃ members, v = .object members := by
  cases v <;> first | exact ⟨_, rfl⟩ | exact absurd h (by simp [member?, object?])

end Gatehouse.Json
