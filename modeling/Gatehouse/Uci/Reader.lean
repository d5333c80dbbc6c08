import Gatehouse.Text.Lines
import Gatehouse.Uci.Words
import Gatehouse.Uci.Package

/-!
# Reading a package

A package is read line by line.  `Directive.ofWords?` says what the words of a line ask for, or
what is wrong with them; `Reading.apply` carries a directive out.  The first bad line decides the
error, and lines that are blank or comments count in the numbering but do nothing.
-/

namespace Gatehouse.Uci

open Gatehouse.Text

/-- What a line asks for. -/
inductive Directive where
  /-- Names the package; the name has no effect. -/
  | package (name : String)
  /-- Opens a section. -/
  | config (type : String) (name : Option String)
  /-- Writes a single value. -/
  | option (name value : String)
  /-- Adds a value to a list. -/
  | list (name value : String)
  deriving DecidableEq, Repr

/-- What is wrong with a line. -/
inductive LineFault where
  /-- The line has no words. -/
  | words (fault : WordFault)
  /-- A keyword has too few or too many arguments. -/
  | argumentCount (keyword : String) (least most found : Nat)
  /-- The first word is no keyword. -/
  | unknownKeyword (keyword : String)
  /-- An option stands before the first section. -/
  | outsideSection (keyword : String)
  deriving DecidableEq, Repr

/-- The wording of a fault. -/
def LineFault.message : LineFault → String
  | .words fault => fault.message
  | .argumentCount keyword least most found =>
    "'" ++ keyword ++ "' takes " ++ toString least ++ "..=" ++ toString most ++
      " arguments, got " ++ toString found
  | .unknownKeyword keyword => "unknown keyword '" ++ keyword ++ "'"
  | .outsideSection keyword => "'" ++ keyword ++ "' outside of a section"

/-- The directive that words stand for; no words stand for none. -/
def Directive.ofWords? : List String → Except LineFault (Option Directive)
  | [] => .ok none
  | keyword :: args =>
    if keyword = "package" then
      match args with
      | [name] => .ok (some (.package name))
      | _ => .error (.argumentCount keyword 1 1 args.length)
    else if keyword = "config" then
      match args with
      | [type] => .ok (some (.config type none))
      | [type, name] => .ok (some (.config type (some name)))
      | _ => .error (.argumentCount keyword 1 2 args.length)
    else if keyword = "option" then
      match args with
      | [name, value] => .ok (some (.option name value))
      | _ => .error (.argumentCount keyword 2 2 args.length)
    else if keyword = "list" then
      match args with
      | [name, value] => .ok (some (.list name value))
      | _ => .error (.argumentCount keyword 2 2 args.length)
    else .error (.unknownKeyword keyword)

/-- The directive on a line. -/
def Directive.ofLine? (line : List Char) : Except LineFault (Option Directive) :=
  match words line with
  | .ok ws => ofWords? ws
  | .error fault => .error (.words fault)

/-- A package that is being read. -/
structure Reading where
  /-- The package so far. -/
  package : Package
  /-- The place of the section that options belong to. -/
  current : Option Nat
  deriving DecidableEq, Repr

namespace Reading

/-- The section that a `config` line asks for. -/
def wanted (p : Package) (type : String) : Option String → Section
  | some name => .named type name
  | none => .unnamed type (p.ofType type).length

/-- Carries out a directive. -/
def apply (r : Reading) : Directive → Except LineFault Reading
  | .package _ => .ok r
  | .config type name =>
    let opened := r.package.openSection (wanted r.package type name)
    .ok ⟨opened.1, some opened.2⟩
  | .option name value =>
    match r.current with
    | some i => .ok { r with package := r.package.modifySection i (·.setOption name value) }
    | none => .error (.outsideSection "option")
  | .list name value =>
    match r.current with
    | some i => .ok { r with package := r.package.modifySection i (·.addList name value) }
    | none => .error (.outsideSection "list")

/-- Carries out a line. -/
def step (r : Reading) (line : List Char) : Except LineFault Reading :=
  match Directive.ofLine? line with
  | .ok (some d) => r.apply d
  | .ok none => .ok r
  | .error fault => .error fault

/-- Carries out lines of which the first has the number `number`; an error comes with the number
of its line. -/
def run (r : Reading) (number : Nat) : List (List Char) → Except (Nat × LineFault) Reading
  | [] => .ok r
  | line :: rest =>
    match r.step line with
    | .ok r' => run r' (number + 1) rest
    | .error fault => .error (number, fault)

end Reading

/-- Reads the text of a package. -/
def Package.parse (name text : String) : Except (Nat × LineFault) Package :=
  (·.package) <$> (Reading.mk (.empty name) none).run 1 (lines text.toList)

end Gatehouse.Uci
