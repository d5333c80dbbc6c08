import Gatehouse.Acl.Document
import Gatehouse.Glob.Scan

/-!
# The library of ACL documents

A library is the folder that holds the documents and the pattern of their file names.  Loading it
reads every file on its own: a file that is no document does not affect the others.
-/

namespace Gatehouse.Acl

open Gatehouse.Files Gatehouse.Glob

/-- Why a file is no document. -/
inductive DocumentError where
  /-- The file cannot be read. -/
  | read (path cause : String)
  /-- The text is no JSON. -/
  | parse (path : String) (fault : Json.Fault)
  /-- The value is no object. -/
  | notAnObject (path : String)
  deriving DecidableEq, Repr

/-- The path of the file. -/
def DocumentError.path : DocumentError → String
  | .read path _ => path
  | .parse path _ => path
  | .notAnObject path => path

instance : Report DocumentError where
  code
    | .read _ _ => "ACL_READ"
    | .parse _ _ => "ACL_PARSE"
    | .notAnObject _ => "ACL_NOT_AN_OBJECT"
  message
    | .read path cause => "failed to read ACL file '" ++ path ++ "': " ++ cause
    | .parse path _ => "failed to parse ACL file '" ++ path ++ "': " ++ Json.Fault.details
    | .notAnObject path => "ACL file '" ++ path ++ "' is not a JSON object"
  recoverable
    | .read _ _ => true
    | _ => false

/-- A file pattern that cannot be read. -/
structure LibraryError where
  /-- The pattern as it was given. -/
  pattern : String
  /-- What is wrong with it. -/
  fault : PatternError
  deriving DecidableEq, Repr

instance : Report LibraryError where
  code _ := "ACL_PATTERN"
  message e := "invalid ACL file pattern '" ++ e.pattern ++ "': " ++ e.fault.message
  recoverable _ := false

/-- A loaded document and the path of its file. -/
structure Loaded where
  /-- The path. -/
  path : String
  /-- The document. -/
  document : Document
  deriving DecidableEq, Repr

/-- Where documents are. -/
structure Library where
  /-- The folder. -/
  dir : String
  /-- The pattern of the file names. -/
  pattern : String
  deriving DecidableEq, Repr

/-- Reads one file as a document. -/
def Document.load (tree : Tree) (path : String) : Except DocumentError Document :=
  match tree.readText path with
  | .error fault => .error (.read path fault.message)
  | .ok text =>
    match Json.parse (.ofString text) with
    | .error fault => .error (.parse path fault)
    | .ok v =>
      match ofJson? v.settled with
      | some d => .ok d
      | none => .error (.notAnObject path)

namespace Library

/-- The path pattern of the library: its folder stands for itself. -/
def pathPattern (l : Library) : String :=
  String.ofList (escape l.dir.toList) ++ "/" ++ l.pattern

/-- The paths of the files, in order. -/
def paths (l : Library) (tree : Tree) : Except LibraryError (List String) :=
  match PathPattern.parse l.pathPattern with
  | .ok pattern => .ok (pattern.files tree)
  | .error fault => .error ⟨l.pattern, fault⟩

/-- What became of each file. -/
def load (l : Library) (tree : Tree) :
    Except LibraryError (List (Except DocumentError Loaded)) :=
  match l.paths tree with
  | .ok paths => .ok (paths.map fun path => (⟨path, ·⟩) <$> Document.load tree path)
  | .error e => .error e

end Library

end Gatehouse.Acl
