import Gatehouse.Files.Tree
import Gatehouse.Report
import Gatehouse.Uci.Reader

/-!
# Package stores

A store gives packages by name.  One kind holds packages in memory, the other reads them from the
files of a folder; a name that could lead out of that folder is refused before anything is read.
-/

namespace Gatehouse.Uci

open Gatehouse.Files

/-- Why a package cannot be loaded. -/
inductive StoreError where
  /-- The name cannot be a file name of a package. -/
  | invalidName (name : String)
  /-- The file cannot be read. -/
  | read (path cause : String)
  /-- A line of the text is bad. -/
  | parse (package : String) (line : Nat) (message : String)
  deriving DecidableEq, Repr

instance : Report StoreError where
  code
    | .invalidName _ => "STORE_INVALID_NAME"
    | .read _ _ => "STORE_READ"
    | .parse _ _ _ => "STORE_PARSE"
  message
    | .invalidName name => "invalid package name '" ++ name ++ "'"
    | .read path cause => "failed to read package file '" ++ path ++ "': " ++ cause
    | .parse package line message =>
      "parse error in package '" ++ package ++ "' line " ++ toString line ++ ": " ++ message
  recoverable
    | .read _ _ => true
    | _ => false

/-- Reads the text of a package, with the error of a store. -/
def Package.read (name text : String) : Except StoreError Package :=
  match Package.parse name text with
  | .ok p => .ok p
  | .error (line, fault) => .error (.parse name line fault.message)

/-- Something that gives packages by name. -/
structure Store where
  /-- The package with a name, if there is one. -/
  load : String → Except StoreError (Option Package)

/-- Whether a name can be the file name of a package. -/
def isPackageName (name : String) : Bool :=
  name != "" && name.toList.all fun c => c.isAlphanum || c == '_' || c == '-'

namespace Store

/-- Packages in memory, the later one of a name replacing the earlier. -/
def ofPackages (packages : List Package) : Store where
  load name := .ok (packages.reverse.find? (·.name == name))

/-- The package files of a folder. -/
def ofFolder (tree : Tree) (dir : String) : Store where
  load name :=
    if isPackageName name then
      let path := join dir name
      if tree.exists? path then
        match tree.readText path with
        | .error fault => .error (.read path fault.message)
        | .ok text => some <$> Package.read name text
      else .ok none
    else .error (.invalidName name)

end Store

end Gatehouse.Uci
