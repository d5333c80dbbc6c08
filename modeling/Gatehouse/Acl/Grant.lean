import Gatehouse.Access.Permission
import Gatehouse.Session

/-!
# Grants

A grant opens pairs of an object and a function within a scope.  As a JSON value it has the members
`scope` and `objects`; the request that submits it has the session id in front.
-/

namespace Gatehouse.Acl

open Gatehouse.Access

/-- The scope of remote objects and their methods. -/
def objectScope : String := "ubus"

/-- The scope of configuration packages. -/
def configScope : String := "uci"

/-- The scope of the file helper. -/
def fileScope : String := "luci-io"

/-- The scope that tells the user interface what it may show. -/
def viewScope : String := "luci-ui"

/-- Pairs of an object and a function within a scope. -/
structure Grant where
  /-- The scope. -/
  scope : String
  /-- The pairs in order. -/
  pairs : List (String × String)
  deriving DecidableEq, Repr

namespace Grant

/-- The grant that shows a group to the user interface. -/
def view (group : String) (p : Permission) : Grant :=
  ⟨viewScope, [(group, p.name)]⟩

/-- The grant in one line of text. -/
def text (g : Grant) : String :=
  g.scope ++ String.join (g.pairs.map fun (o, f) => " [" ++ o ++ ", " ++ f ++ "]")

/-- The pairs as a JSON value. -/
def pairsJson (g : Grant) : Json :=
  .array (g.pairs.map fun (o, f) => .array [.string o, .string f])

/-- The grant as a JSON value. -/
def toJson (g : Grant) : Json :=
  .object [("scope", .string g.scope), ("objects", g.pairsJson)]

/-- The request that submits the grant for a session. -/
def request (g : Grant) (sid : SessionId) : Json :=
  .object [("sid", sid.toJson), ("scope", .string g.scope), ("objects", g.pairsJson)]

/-- A pair of strings. -/
def pair? : Json → Option (String × String)
  | .array [.string o, .string f] => some (o, f)
  | _ => none

/-- The grant with these fields. -/
def ofFields? (scope objects : Json) : Option Grant := do
  let s ← scope.string?
  let items ← objects.array?
  let pairs ← items.mapM pair?
  pure ⟨s, pairs⟩

/-- The grant in a record. -/
def ofRecord? : Json.Record → Option Grant
  | .named members =>
    match Json.field? ["scope"] members, Json.field? ["objects"] members with
    | .ok (some s), .ok (some os) => ofFields? s os
    | _, _ => none
  | .positional [s, os] => ofFields? s os
  | .positional _ => none

/-- Reads a grant from JSON text.  Members other than the two are passed over. -/
def parse (text : String) : Except Json.Fault Grant :=
  match Json.parseRecord ["scope", "objects"] (.ofString text) with
  | .ok r =>
    match ofRecord? r with
    | some g => .ok g
    | none => .error .malformed
  | .error fault => .error fault

/-- The order of lists of pairs: the first difference decides. -/
def pairsLe : List (String × String) → List (String × String) → Bool
  | [], _ => true
  | _ :: _, [] => false
  | (a, b) :: r, (c, d) :: s =>
    decide (a < c) || (a == c && (decide (b < d) || (b == d && pairsLe r s)))

/-- The order of grants: by scope, then by pairs. -/
def le (g h : Grant) : Bool :=
  decide (g.scope < h.scope) || (g.scope == h.scope && pairsLe g.pairs h.pairs)

end Grant

end Gatehouse.Acl
