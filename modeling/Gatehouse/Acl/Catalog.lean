import Gatehouse.Acl.Library

/-!
# The catalog of groups

The catalog sums up the groups of all documents: each group once, in the order of first mention,
with its first description that is not empty and all its permission levels.
-/

namespace Gatehouse.Acl

open Gatehouse.Access

/-- What all documents together say about a group. -/
structure Summary where
  /-- The name of the group. -/
  name : String
  /-- The first description that is not empty. -/
  description : Option String
  /-- The permission levels, the lowest first. -/
  permissions : List Permission
  deriving DecidableEq, Repr

/-- What is gathered about a group: its description and the levels seen, in any order. -/
structure Gathered where
  /-- The first description that is not empty. -/
  description : Option String
  /-- The levels seen so far. -/
  permissions : List Permission
  deriving DecidableEq, Repr

/-- Nothing is known yet. -/
def Gathered.none : Gathered :=
  ⟨.none, []⟩

/-- Adds what one declaration of the group says. -/
def Gathered.add (old : Gathered) (g : Group) : Gathered where
  description := old.description.or (g.description.filter (· != ""))
  permissions := g.blocks.foldl
    (fun ps b => if b.permission ∈ ps then ps else ps ++ [b.permission]) old.permissions

/-- The summary of what was gathered. -/
def Gathered.summary (name : String) (g : Gathered) : Summary :=
  ⟨name, g.description, Permission.all.filter (· ∈ g.permissions)⟩

/-- The catalog of documents. -/
def catalog (documents : List Document) : List Summary :=
  let gathered : List (String × Gathered) := (documents.flatMap (·.groups)).foldl
    (fun t g => Keyed.alter g.name (fun old => (old.getD Gathered.none).add g) t) []
  gathered.map fun (name, g) => g.summary name

/-- The documents that could be loaded. -/
def loadable (files : List (Except DocumentError Loaded)) : List Document :=
  files.filterMap fun
    | .ok l => some l.document
    | .error _ => none

/-- The files that could not be loaded. -/
def skipped (files : List (Except DocumentError Loaded)) : List DocumentError :=
  files.filterMap fun
    | .ok _ => none
    | .error e => some e

/-- The catalog of a library. -/
def Library.catalog (l : Library) (tree : Files.Tree) : Except LibraryError (List Summary) :=
  match l.load tree with
  | .ok files => .ok (Acl.catalog (loadable files))
  | .error e => .error e

end Gatehouse.Acl
