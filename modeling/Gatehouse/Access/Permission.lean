import Gatehouse.Json.Reader
import Gatehouse.Report

/-!
# Permission levels

A group can be opened for reading and for writing.  Whoever may write may read.
-/

namespace Gatehouse.Access

/-- A level of access to a group. -/
inductive Permission where
  | read
  | write
  deriving DecidableEq, Repr

namespace Permission

/-- The levels, the lowest first. -/
def all : List Permission := [.read, .write]

/-- The name of a level in policies and documents. -/
def name : Permission → String
  | .read => "read"
  | .write => "write"

/-- The level with this name. -/
def ofName? (s : String) : Option Permission :=
  if s = "read" then some .read else if s = "write" then some .write else none

/-- The level that contains this one. -/
def impliedBy : Permission → Option Permission
  | .read => some .write
  | .write => none

/-- The place of a level among all levels. -/
def rank : Permission → Nat
  | .read => 0
  | .write => 1

@[simp] theorem ofName?_name (p : Permission) : ofName? p.name = some p := by
  cases p <;> decide

theorem name_of_ofName? {s : String} {p : Permission} (h : ofName? s = some p) : s = p.name := by
  unfold ofName? at h
  split at h
  · rename_i hs; cases h; exact hs
  split at h
  · rename_i hs; cases h; exact hs
  · cases h

theorem name_injective {p q : Permission} (h : p.name = q.name) : p = q := by
  cases p <;> cases q <;> first | rfl | exact absurd h (by decide)

end Permission

/-- A name that is no permission level. -/
structure UnknownPermission where
  /-- The name as given. -/
  name : String
  deriving DecidableEq, Repr

/-- The level with this name, or the error that names it. -/
def Permission.parse (s : String) : Except UnknownPermission Permission :=
  match ofName? s with
  | some p => .ok p
  | none => .error ⟨s⟩

/-- The level that a JSON value stands for: its name, or an object with the name and `null`. -/
def Permission.ofJson? : Json → Option Permission
  | .string s => ofName? s
  | .object [(s, .null)] => ofName? s
  | _ => none

/-- Reads a level from JSON text. -/
def Permission.parseJson (text : String) : Except Json.Fault Permission :=
  match Json.parse (.ofString text) with
  | .error fault => .error fault
  | .ok v =>
    match ofJson? v with
    | some p => .ok p
    | none => .error .malformed

instance : Report UnknownPermission where
  code _ := "AUTH_UNKNOWN_PERMISSION"
  message e := "unknown permission '" ++ e.name ++ "', expected 'read' or 'write'"
  recoverable _ := false

end Gatehouse.Access
