import Gatehouse.Access.Policy
import Gatehouse.Uci.Store

/-!
# Finding the policy of a user

Policies are the sections of type `access` in the package `luci`.  The first one whose option
`user` is the name of the user, and not a list, is his.  A package that cannot be loaded holds no
policy, which is worth a warning.
-/

namespace Gatehouse.Access

open Gatehouse.Uci

/-- The package that holds the policies. -/
def policyPackage : String := "luci"

/-- The type of the sections that are policies. -/
def policyType : String := "access"

/-- The option that names the user. -/
def userOption : String := "user"

/-- The user a section is bound to. -/
def boundUser? (s : Section) : Option String :=
  (s.option? userOption).bind (·.scalar?)

/-- The policy that a section states for a user. -/
def Policy.ofSection (s : Section) (user : String) : Policy :=
  ⟨s.name, user, s.lists.map fun (name, values) => ⟨name, values.map GroupPattern.mk⟩⟩

/-- The policy of a user in a package. -/
def policyIn? (p : Package) (user : String) : Option Policy :=
  ((p.ofType policyType).find? fun s => boundUser? s == some user).map (Policy.ofSection · user)

/-- What was found for a user. -/
structure Finding where
  /-- The policy, if there is one. -/
  policy : Option Policy
  /-- Whether the package could not be loaded. -/
  unreadable : Bool
  deriving DecidableEq, Repr

/-- Looks for the policy of a user. -/
def findPolicy (store : Store) (user : String) : Finding :=
  match store.load policyPackage with
  | .ok (some p) => ⟨policyIn? p user, false⟩
  | .ok none => ⟨none, false⟩
  | .error _ => ⟨none, true⟩

/-- The authorization of a user, if he may log in. -/
def authorizationOf (store : Store) (user : String) : Option Authorization :=
  Authorization.forUser user (findPolicy store user).policy

end Gatehouse.Access
