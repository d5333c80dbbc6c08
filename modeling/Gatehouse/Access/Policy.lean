import Gatehouse.Access.GroupPattern
import Gatehouse.Access.Permission

/-!
# Access policies and authorizations

A policy binds a user to lists of group patterns, each list named after the permission it gives.
Writing implies reading; nothing else is implied.  A user without a policy is refused, except for
the superuser, who is not limited then.
-/

namespace Gatehouse.Access

/-- A named list of group patterns. -/
structure PatternList where
  /-- The name of the permission that the list gives. -/
  name : String
  /-- The patterns of the groups it gives it for. -/
  patterns : List GroupPattern
  deriving DecidableEq, Repr

/-- Whether some pattern of the list covers the group. -/
def PatternList.covers (l : PatternList) (group : String) : Bool :=
  l.patterns.any (·.covers group)

/-- The rights of one user. -/
structure Policy where
  /-- The section that the policy comes from. -/
  sectionName : String
  /-- The user it is bound to. -/
  user : String
  /-- The lists, in the order of the section. -/
  lists : List PatternList
  deriving DecidableEq, Repr

namespace Policy

/-- Whether a list named after the permission covers the group. -/
def grantsDirectly (policy : Policy) (p : Permission) (group : String) : Bool :=
  policy.lists.any fun l => l.name == p.name && l.covers group

/-- Whether the policy gives the permission, directly or by one that implies it. -/
def authorizes (policy : Policy) (p : Permission) (group : String) : Bool :=
  policy.grantsDirectly p group ||
    match p.impliedBy with
    | some q => policy.grantsDirectly q group
    | none => false

end Policy

/-- The user who needs no policy. -/
def superuser : String := "root"

/-- What a user who may log in is allowed. -/
inductive Authorization where
  /-- Everything. -/
  | unrestricted
  /-- What a policy gives. -/
  | limited (policy : Policy)
  deriving DecidableEq, Repr

namespace Authorization

/-- The authorization of a user with the policy that was found for him, if he may log in. -/
def forUser (user : String) : Option Policy → Option Authorization
  | some policy => some (.limited policy)
  | none => if user = superuser then some .unrestricted else none

/-- Whether the permission for the group is given. -/
def allows (a : Authorization) (p : Permission) (group : String) : Bool :=
  match a with
  | .unrestricted => true
  | .limited policy => policy.authorizes p group

end Authorization

end Gatehouse.Access
