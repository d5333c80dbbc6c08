import Gatehouse.Text.Utf8
import Gatehouse.Files.Path
import Gatehouse.Keyed

/-!
# File trees

A tree of folders and files as a table from the place of an entry to the entry.  A place is the
list of names that leads to it, from the root or from the folder that relative paths start in; of
what lies above that folder, nothing is known but the folders on the way up.  `locate` finds the
place that a path names, and `readText` reads a file as text; both fail with the cause that an
operating system would give.
-/

namespace Gatehouse.Files

/-- What stands in one place of a tree. -/
inductive Entry where
  /-- A regular file with its content. -/
  | file (bytes : List UInt8)
  /-- A folder. -/
  | folder
  deriving DecidableEq, Repr

/-- A folder from which places are counted. -/
inductive Base where
  /-- The root. -/
  | root
  /-- The folder so many levels above the one that relative paths start in. -/
  | above (levels : Nat)
  deriving DecidableEq, Repr

/-- A place in a tree. -/
structure Place where
  /-- Where the names are counted from. -/
  base : Base
  /-- The names that lead to the place. -/
  names : List String
  deriving DecidableEq, Repr

namespace Place

/-- The place that a path starts from. -/
def start (path : String) : Place :=
  ⟨if isAbsolute path then .root else .above 0, []⟩

/-- The place of a name inside a folder. -/
def child (p : Place) (name : String) : Place :=
  { p with names := p.names ++ [name] }

/-- The folder that a place is in.  The root is in itself. -/
def parent (p : Place) : Place :=
  match p.names, p.base with
  | [], .root => p
  | [], .above n => ⟨.above (n + 1), []⟩
  | names, base => ⟨base, names.dropLast⟩

/-- The places on the way to a place, from the top. -/
def ancestors (p : Place) : List Place :=
  (List.range p.names.length).map fun n => { p with names := p.names.take n }

/-- Whether a place is another one or below it. -/
def within (p q : Place) : Bool :=
  p.base == q.base && q.names.isPrefixOf p.names

end Place

/-- Why a file cannot be read or run. -/
inductive FileFault where
  /-- There is no such entry. -/
  | notFound
  /-- Something that is no folder is used as one. -/
  | notFolder
  /-- A folder is used as a file. -/
  | isFolder
  /-- A name is longer than names can be. -/
  | longName
  /-- The path contains the character with code zero. -/
  | nulInName
  /-- The entry may not be run. -/
  | forbidden
  /-- The content is not UTF-8. -/
  | notText
  deriving DecidableEq, Repr

/-- The wording of a fault. -/
def FileFault.message : FileFault → String
  | .notFound => "No such file or directory (os error 2)"
  | .notFolder => "Not a directory (os error 20)"
  | .isFolder => "Is a directory (os error 21)"
  | .longName => "File name too long (os error 36)"
  | .nulInName => "file name contained an unexpected NUL byte"
  | .forbidden => "Permission denied (os error 13)"
  | .notText => "stream did not contain valid UTF-8"

/-- How many bytes a name may have. -/
def nameLimit : Nat := 255

/-- A file tree. -/
structure Tree where
  /-- The entries by place. -/
  entries : List (Place × Entry)
  deriving Repr

namespace Tree

/-- The tree with nothing in it. -/
def empty : Tree :=
  ⟨[]⟩

/-- The entry in a place.  The folders that places are counted from are always there. -/
def entry? (t : Tree) (place : Place) : Option Entry :=
  if place.names = [] then some .folder else Keyed.get? place t.entries

/-- The steps that a path asks for.  A slash at the end asks to stay in what stands before it. -/
def steps (path : String) : List String :=
  let ps := pieces path
  ps.filter (· != "") ++ if ps.getLast? = some "" then ["."] else []

/-- Follows steps from a place. -/
def follow (t : Tree) (place : Place) : List String → Except FileFault Place
  | [] => .ok place
  | step :: r =>
    match t.entry? place with
    | none => .error .notFound
    | some (.file _) => .error .notFolder
    | some .folder =>
      if step = "." then follow t place r
      else if step = ".." then follow t place.parent r
      else if (t.entry? (place.child step)).isSome then follow t (place.child step) r
      else if step.utf8ByteSize > nameLimit then .error .longName
      else .error .notFound

/-- The place that a path names. -/
def locate (t : Tree) (path : String) : Except FileFault Place :=
  if path = "" then .error .notFound
  else if '\x00' ∈ path.toList then .error .nulInName
  else t.follow (.start path) (steps path)

/-- What a path names. -/
def find? (t : Tree) (path : String) : Option Entry :=
  match t.locate path with
  | .ok place => t.entry? place
  | .error _ => none

/-- Whether a path names something. -/
def exists? (t : Tree) (path : String) : Bool :=
  (t.find? path).isSome

/-- Whether a path names a folder. -/
def isFolder (t : Tree) (path : String) : Bool :=
  t.find? path == some .folder

/-- Whether a path names a regular file. -/
def isFile (t : Tree) (path : String) : Bool :=
  match t.find? path with
  | some (.file _) => true
  | _ => false

/-- The content of an entry as text. -/
def textOf : Entry → Except FileFault String
  | .folder => .error .isFolder
  | .file bytes =>
    match Text.decode? bytes with
    | some cs => .ok (String.ofList cs)
    | none => .error .notText

/-- The text of the file that a path names. -/
def readText (t : Tree) (path : String) : Except FileFault String :=
  match t.locate path with
  | .error fault => .error fault
  | .ok place =>
    match t.entry? place with
    | some e => textOf e
    | none => .error .notFound

/-- Why the program with this name cannot be run, as no entry of a tree is a program.  A name
without a slash is looked for in folders outside the tree that do not have it; dots name those
folders themselves. -/
def runFault (t : Tree) (program : String) : FileFault :=
  if '/' ∈ program.toList then
    match t.locate program with
    | .ok _ => .forbidden
    | .error fault => fault
  else if program = "." ∨ program = ".." then .forbidden
  else .notFound

/-- The names of what stands directly in a place. -/
def namesIn (t : Tree) (place : Place) : List String :=
  t.entries.filterMap fun (p, _) => if p.parent = place then p.names.getLast? else none

/-- The names that lead from a place to each thing below it. -/
def below (t : Tree) (place : Place) : List (List String) :=
  t.entries.filterMap fun (p, _) =>
    if p.within place ∧ p ≠ place then some (p.names.drop place.names.length) else none

/-- Puts an entry into a place, with the folders that lead to it. -/
def put (t : Tree) (place : Place) (e : Entry) : Tree :=
  let rooted := place.ancestors.foldl
    (fun u p => if p.names = [] then u else Keyed.alter p (fun old => old.getD .folder) u) t.entries
  ⟨Keyed.set place e rooted⟩

/-- Removes what stands in a place, and all below it. -/
def remove (t : Tree) (place : Place) : Tree :=
  ⟨t.entries.filter fun e => !e.1.within place⟩

/-- The place of a path that need not be there yet. -/
def placeOf (path : String) : Place :=
  (pieces path).foldl
    (fun place step =>
      if step = "" ∨ step = "." then place
      else if step = ".." then place.parent
      else place.child step) (.start path)

/-- Writes an entry where a path says. -/
def write (t : Tree) (path : String) (e : Entry) : Tree :=
  t.put (placeOf path) e

end Tree

end Gatehouse.Files
