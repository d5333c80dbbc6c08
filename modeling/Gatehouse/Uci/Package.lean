import Gatehouse.Keyed

/-!
# Configuration packages

A package is a list of typed sections, a section an ordered table of options, and an option a
single value or a list of values.  Writing a single value replaces what was there; adding to a
list keeps it, and a single value becomes the first of the list.
-/

namespace Gatehouse.Uci

/-- The value of an option. -/
inductive OptionValue where
  /-- A single value. -/
  | scalar (value : String)
  /-- A list of values. -/
  | list (values : List String)
  deriving DecidableEq, Repr

/-- How a value that is added finds the option. -/
inductive Addition where
  /-- There is none, and the value starts a list. -/
  | starts
  /-- There is a list, and the value comes after its values. -/
  | continues (values : List String)
  /-- There is a single value, which becomes the first of a list. -/
  | absorbs (first : String)
  /-- There is neither a list nor a single value, and the first of a list is made up. -/
  | invents
  deriving DecidableEq, Repr

namespace Addition

/-- How a value that is added finds the option. -/
def of : Option OptionValue → Addition
  | some (.list values) => .continues values
  | some old =>
    match old with
    | .scalar first => .absorbs first
    | .list _ => .invents
  | none => .starts

/-- The option after the addition of a value. -/
def result (value : String) : Addition → OptionValue
  | starts => .list [value]
  | continues values => .list (values ++ [value])
  | absorbs first => .list [first, value]
  | invents => .list ["", value]

end Addition

namespace OptionValue

/-- The values with one more at the end. -/
def push (value : String) (old : Option OptionValue) : OptionValue :=
  (Addition.of old).result value

@[simp] theorem push_none (value : String) : push value none = .list [value] := rfl

@[simp] theorem push_scalar (value first : String) :
    push value (some (.scalar first)) = .list [first, value] := rfl

@[simp] theorem push_list (value : String) (values : List String) :
    push value (some (.list values)) = .list (values ++ [value]) := rfl

theorem push_ne_nil (value : String) (old : Option OptionValue) : push value old ≠ .list [] := by
  rcases old with _ | _ | _ <;> simp

/-- The single value. -/
def scalar? : OptionValue → Option String
  | .scalar value => some value
  | .list _ => none

/-- The list of values. -/
def list? : OptionValue → Option (List String)
  | .scalar _ => none
  | .list values => some values

end OptionValue

/-- A section of a package. -/
structure Section where
  /-- The name, given or made up. -/
  name : String
  /-- The type that was declared first. -/
  type : String
  /-- Whether the name was made up because none was given. -/
  anonymous : Bool
  /-- The options in the order of their first mention. -/
  options : List (String × OptionValue)
  deriving DecidableEq, Repr

namespace Section

/-- A section with a name and no options. -/
def named (type name : String) : Section :=
  ⟨name, type, false, []⟩

/-- The section without a name that follows `index` sections of its type. -/
def unnamed (type : String) (index : Nat) : Section :=
  ⟨"@" ++ type ++ "[" ++ toString index ++ "]", type, true, []⟩

/-- Writes a single value. -/
def setOption (s : Section) (name value : String) : Section :=
  { s with options := Keyed.set name (.scalar value) s.options }

/-- Adds a value to a list. -/
def addList (s : Section) (name value : String) : Section :=
  { s with options := Keyed.alter name (OptionValue.push value) s.options }

/-- Adds values to a list, one after the other. -/
def addLists (s : Section) (name : String) (values : List String) : Section :=
  values.foldl (·.addList name ·) s

/-- The value of an option. -/
def option? (s : Section) (name : String) : Option OptionValue :=
  Keyed.get? name s.options

/-- The options that are lists, in order. -/
def lists (s : Section) : List (String × List String) :=
  s.options.filterMap fun (name, value) => value.list?.map (name, ·)

end Section

/-- A package of sections. -/
structure Package where
  /-- The name of the package. -/
  name : String
  /-- The sections in order. -/
  sections : List Section
  deriving DecidableEq, Repr

namespace Package

/-- A package without sections. -/
def empty (name : String) : Package :=
  ⟨name, []⟩

/-- Adds a section at the end. -/
def push (p : Package) (s : Section) : Package :=
  { p with sections := p.sections ++ [s] }

/-- The sections of a type, in order. -/
def ofType (p : Package) (type : String) : List Section :=
  p.sections.filter (·.type == type)

/-- Opens a section: the one that has its name already, whatever its type, or else a new one at
the end.  The answer tells its place. -/
def openSection (p : Package) (s : Section) : Package × Nat :=
  match p.sections.findIdx? (·.name == s.name) with
  | some i => (p, i)
  | none => (p.push s, p.sections.length)

/-- Changes the section in one place. -/
def modifySection (p : Package) (i : Nat) (f : Section → Section) : Package :=
  { p with sections := p.sections.modify i f }

end Package

end Gatehouse.Uci
