import Gatehouse.Files.Tree
import Gatehouse.Glob.Matching

/-!
# Finding files by a pattern

A path pattern is matched component by component.  A component without wildcards names one entry, a
component with wildcards is tried on the entries of a folder, and `**` stands for any number of
folders.  A dot at the start of a name is only matched by a dot.
-/

namespace Gatehouse.Glob

open Gatehouse.Files

/-- A component of a path pattern. -/
inductive Segment where
  /-- One name. -/
  | name (text : String)
  /-- All names that tokens match. -/
  | wild (tokens : List Token)
  /-- Any number of folders. -/
  | deep
  deriving DecidableEq, Repr

namespace Segment

/-- The text that tokens spell if all of them are literal. -/
def literal? (ts : List Token) : Option (List Char) :=
  ts.mapM fun
    | .char c => some c
    | _ => none

/-- The component that tokens make. -/
def ofTokens (ts : List Token) : Segment :=
  if ts = [.deep] then .deep
  else
    match literal? ts with
    | some s => .name (String.ofList s)
    | none => .wild ts

/-- Whether a component matches a name. -/
def accepts (name : String) : Segment → Bool
  | .name text => text == name
  | .wild ts => Glob.accepts ts (ofFileName name.toList)
  | .deep => true

/-- Several `**` in a row say the same as one. -/
def collapse : List Segment → List Segment
  | [] => []
  | s :: r =>
    let r' := collapse r
    if s = .deep ∧ r'.head? = some .deep then r' else s :: r'

end Segment

/-- A pattern for paths. -/
structure PathPattern where
  /-- Whether the pattern starts at the root. -/
  absolute : Bool
  /-- Whether only folders are asked for, by a slash at the end. -/
  foldersOnly : Bool
  /-- The components. -/
  segments : List Segment
  deriving DecidableEq, Repr

/-- Reads a path pattern: the whole of it must be a pattern, and then each of its components. -/
def PathPattern.parse (text : String) : Except PatternError PathPattern := do
  let _ ← Token.parse text.toList
  let ps := text.toList.splitOn '/'
  let foldersOnly := ps.getLast? == some []
  let inner := if isAbsolute text then ps.drop 1 else ps
  let segments ← (if foldersOnly then inner.dropLast else inner).mapM fun p =>
    Segment.ofTokens <$> Token.parse p
  pure ⟨isAbsolute text, foldersOnly, Segment.collapse segments⟩

/-- Whether a path is the folder that a search starts in. -/
def isStart (path : String) : Bool :=
  samePath path "."

/-- The path of an entry of a folder.  Paths that a search finds do not begin with a dot. -/
def child (path name : String) : String :=
  if isStart path then name else join path name

/-- The entries of a folder, as paths. -/
def children (tree : Tree) (path : String) : List String :=
  match tree.locate path with
  | .ok place => if tree.isFolder path then (tree.namesIn place).map (child path) else []
  | .error _ => []

/-- All entries below a folder, as paths. -/
def descendants (tree : Tree) (path : String) : List String :=
  match tree.locate path with
  | .ok place => if tree.isFolder path then (tree.below place).map (·.foldl child path) else []
  | .error _ => []

/-- The entry `name` of a folder, if there is one.  A dot or two dots need a folder only. -/
def entryPath? (tree : Tree) (path name : String) : Option String :=
  let next := child path name
  if name = "." ∨ name = ".." then (if tree.isFolder path then some next else none)
  else if tree.exists? next then some next
  else none

/-- The dot entries of a folder that a component matches.  Only a component that begins with a
literal dot can match them. -/
def dotEntries (tree : Tree) (path : String) (ts : List Token) : List String :=
  if tree.isFolder path ∧ ts.head? = some (.char '.') then
    ([".", ".."].filter fun d => accepts ts (ofFileName d.toList)).map (join path)
  else []

/-- The paths that components find, starting from a path. -/
def search (tree : Tree) (path : String) : List Segment → List String
  | [] => [path]
  | .name text :: r =>
    match entryPath? tree path text with
    | some next => search tree next r
    | none => []
  | .wild ts :: r =>
    ((children tree path).filter fun p => (Segment.wild ts).accepts (lastPiece p)).flatMap
        (search tree · r)
      ++ (dotEntries tree path ts).flatMap (search tree · r)
  | [.deep] => (descendants tree path).filter tree.isFolder
  | .deep :: s :: r =>
    ((descendants tree path).filter fun p => s.accepts (lastPiece p)).flatMap (search tree · r)

/-- The regular files that a path pattern finds, in the order of paths. -/
def PathPattern.files (pattern : PathPattern) (tree : Tree) : List String :=
  if pattern.foldersOnly then []
  else
    let start := if pattern.absolute then "/" else "."
    ((search tree start pattern.segments).filter tree.isFile).mergeSort pathLe

end Gatehouse.Glob
