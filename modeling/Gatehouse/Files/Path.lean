/-!
# Paths

A path is a text; what it names are its components.  Empty components and dots that do not stand at
the very front say nothing, so paths are compared by components, and in the order of components.
-/

namespace Gatehouse.Files

/-- The pieces of a path between slashes, as written; there is always at least one. -/
def pieces (path : String) : List String :=
  (path.toList.splitOn '/').map String.ofList

/-- A component of a path. -/
inductive Component where
  /-- The slash that an absolute path starts with. -/
  | root
  /-- The dot that a relative path starts with. -/
  | here
  /-- Two dots. -/
  | up
  /-- A name. -/
  | name (text : String)
  deriving DecidableEq, Repr

/-- What a piece after the first one says. -/
def Component.ofPiece? (piece : String) : Option Component :=
  if piece = "" ∨ piece = "." then none
  else if piece = ".." then some .up
  else some (.name piece)

/-- The components of a path. -/
def components (path : String) : List Component :=
  match pieces path with
  | [] => []
  | first :: rest =>
    let front : List Component :=
      if first = "" then (if rest.isEmpty then [] else [.root])
      else if first = "." then [.here]
      else (Component.ofPiece? first).toList
    front ++ rest.filterMap Component.ofPiece?

/-- The kinds of components in their order. -/
def Component.rank : Component → Nat
  | .root => 0
  | .here => 1
  | .up => 2
  | .name _ => 3

/-- The name of a component. -/
def Component.text : Component → String
  | .name s => s
  | _ => ""

/-- The order of components: by kind, then by name. -/
def Component.before (a b : Component) : Bool :=
  decide (a.rank < b.rank) || (a.rank == b.rank && decide (a.text < b.text))

/-- The order of lists of components: the first difference decides, and a list comes after its
beginnings. -/
def componentsLe : List Component → List Component → Bool
  | [], _ => true
  | _ :: _, [] => false
  | a :: as, b :: bs => a.before b || (a == b && componentsLe as bs)

/-- The order of paths. -/
def pathLe (p q : String) : Bool :=
  componentsLe (components p) (components q)

/-- Whether two paths have the same components. -/
def samePath (p q : String) : Bool :=
  components p == components q

/-- Whether a path starts at the root. -/
def isAbsolute (path : String) : Bool :=
  path.toList.head? == some '/'

/-- The path of `name` inside the folder `dir`. -/
def join (dir name : String) : String :=
  if isAbsolute name then name
  else if dir = "" ∨ dir.toList.getLast? = some '/' then dir ++ name
  else dir ++ "/" ++ name

/-- The text after the last slash. -/
def lastPiece (path : String) : String :=
  (pieces path).getLastD ""

end Gatehouse.Files
