import Gatehouse.Acl.Grant

/-!
# ACL documents

A document is a JSON object that describes groups.  A group has a block for reading and a block for
writing, and a block names what it opens, scope by scope.  Entries of another shape are passed
over, except that an unknown scope is kept by name.
-/

namespace Gatehouse.Acl

open Gatehouse.Access

/-- What a block opens in one scope. -/
inductive ScopeEntry where
  /-- Methods of remote objects. -/
  | objects (entries : List (String × List String))
  /-- Names in one of the flat scopes. -/
  | flat (scope : String) (names : List String)
  /-- A scope that is not known, or has not the shape it should have. -/
  | unrecognized (scope : String)
  deriving DecidableEq, Repr

/-- The strings among JSON values. -/
def strings (items : List Json) : List String :=
  items.filterMap Json.string?

/-- An object of the object scope and its methods. -/
def methods? : String × Json → Option (String × List String)
  | (name, .array items) => some (name, strings items)
  | _ => none

namespace ScopeEntry

/-- Reads the value of a scope. -/
def classify (scope : String) : Json → ScopeEntry
  | .object entries =>
    if scope = objectScope then .objects (entries.filterMap methods?) else .unrecognized scope
  | .array items =>
    if scope = configScope ∨ scope = fileScope then .flat scope (strings items)
    else .unrecognized scope
  | _ => .unrecognized scope

/-- The name of the scope. -/
def scope : ScopeEntry → String
  | .objects _ => objectScope
  | .flat scope _ => scope
  | .unrecognized scope => scope

/-- What the scope grants under a permission.  In a flat scope the function is the permission. -/
def grant? (p : Permission) : ScopeEntry → Option Grant
  | .objects entries => some ⟨objectScope, entries.flatMap fun (o, ms) => ms.map (o, ·)⟩
  | .flat scope names => some ⟨scope, names.map (·, p.name)⟩
  | .unrecognized _ => none

end ScopeEntry

/-- What a group opens under a permission. -/
structure Block where
  /-- The permission. -/
  permission : Permission
  /-- What is opened, scope by scope. -/
  scopes : List ScopeEntry
  deriving DecidableEq, Repr

/-- A group of a document. -/
structure Group where
  /-- The name. -/
  name : String
  /-- The description, if it is a string. -/
  description : Option String
  /-- The blocks in order. -/
  blocks : List Block
  deriving DecidableEq, Repr

/-- A document. -/
structure Document where
  /-- The groups in order. -/
  groups : List Group
  deriving DecidableEq, Repr

/-- Reads an entry of a group as a block. -/
def Block.ofEntry? : String × Json → Option Block
  | (name, .object scopes) =>
    (Permission.ofName? name).map fun p =>
      ⟨p, scopes.map fun (scope, value) => .classify scope value⟩
  | _ => none

/-- Reads an entry of a document as a group. -/
def Group.ofEntry? : String × Json → Option Group
  | (name, .object entries) =>
    some ⟨name, (Keyed.get? "description" entries).bind Json.string?,
      entries.filterMap Block.ofEntry?⟩
  | _ => none

namespace Document

/-- The document without groups. -/
def empty : Document :=
  ⟨[]⟩

/-- Reads the entries of an object as a document. -/
def ofEntries (entries : List (String × Json)) : Document :=
  ⟨entries.filterMap Group.ofEntry?⟩

/-- Reads a JSON value as a document; only an object is one. -/
def ofJson? (v : Json) : Option Document :=
  v.object?.map ofEntries

/-- Reads JSON text as a document; what is no object has no groups. -/
def parse (text : String) : Except Json.Fault Document :=
  match Json.parse (.ofString text) with
  | .ok v => .ok ((ofJson? v.settled).getD empty)
  | .error fault => .error fault

end Document

end Gatehouse.Acl
