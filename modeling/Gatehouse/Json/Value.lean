import Gatehouse.Keyed

/-!
# JSON values

The members of an object keep the order in which they are written.  `Json.settled` resolves
repeated names: each has the place of its first and the value of its last member.
-/

namespace Gatehouse

/-- A JSON value. -/
inductive Json where
  | null
  | bool (value : Bool)
  /-- A number, as it is written. -/
  | number (text : String)
  | string (text : String)
  | array (items : List Json)
  | object (members : List (String × Json))
  deriving Repr, Inhabited

namespace Json

/-- The text of a string. -/
def string? : Json → Option String
  | .string s => some s
  | _ => none

/-- The items of an array. -/
def array? : Json → Option (List Json)
  | .array items => some items
  | _ => none

/-- The members of an object. -/
def object? : Json → Option (List (String × Json))
  | .object members => some members
  | _ => none

/-- A natural number. -/
def ofNat (n : Nat) : Json :=
  .number (toString n)

mutual

/-- The value without repeated names. -/
def settled : Json → Json
  | .null => .null
  | .bool b => .bool b
  | .number s => .number s
  | .string s => .string s
  | .array items => .array (settledItems items)
  | .object members => .object (Keyed.collapse (settledMembers members))

/-- The items, each without repeated names. -/
def settledItems : List Json → List Json
  | [] => []
  | v :: r => v.settled :: settledItems r

/-- The members, each value without repeated names. -/
def settledMembers : List (String × Json) → List (String × Json)
  | [] => []
  | (k, v) :: r => (k, v.settled) :: settledMembers r

end

end Json

end Gatehouse
