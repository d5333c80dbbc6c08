import Gatehouse.Acl.Document

/-!
# From a document to grants

Every block that is allowed turns into one grant for each scope it recognizes.  If there is any,
one more grant makes the group visible at that permission.
-/

namespace Gatehouse.Acl

open Gatehouse.Access

/-- The grants of the recognized scopes of a block. -/
def Block.scopeGrants (b : Block) : List Grant :=
  b.scopes.filterMap (·.grant? b.permission)

/-- The grants of a block of a group. -/
def Block.grants (group : String) (b : Block) : List Grant :=
  if b.scopeGrants.isEmpty then [] else b.scopeGrants ++ [Grant.view group b.permission]

/-- The grants of a group, as far as they are allowed. -/
def Group.grants (allowed : Permission → String → Bool) (g : Group) : List Grant :=
  g.blocks.flatMap fun b => if allowed b.permission g.name then b.grants g.name else []

/-- The grants of a document, as far as they are allowed. -/
def expand (d : Document) (allowed : Permission → String → Bool) : List Grant :=
  d.groups.flatMap (·.grants allowed)

end Gatehouse.Acl
