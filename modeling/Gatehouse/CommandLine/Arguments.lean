import Gatehouse.Access.Permission

/-!
# Arguments of the command line

Arguments are read left to right; the first one that cannot be understood ends the reading.  The
global options may stand before or after the command, and two dashes end all options.  An option
may be given once on each side of the command, and the side after it wins.
-/

namespace Gatehouse.CommandLine

open Gatehouse.Access

/-- The global options. -/
structure GlobalOptions where
  /-- Log everything. -/
  debug : Bool
  /-- Log the main steps. -/
  verbose : Bool
  /-- The file of settings. -/
  config : Option String
  /-- The folder of the ACL documents. -/
  aclDir : Option String
  /-- The folder of the configuration packages. -/
  uciDir : Option String
  deriving DecidableEq, Repr

/-- No options. -/
def GlobalOptions.none : GlobalOptions :=
  ⟨false, false, .none, .none, .none⟩

/-- The options of both sides of the command. -/
def GlobalOptions.over (before after : GlobalOptions) : GlobalOptions where
  debug := before.debug || after.debug
  verbose := before.verbose || after.verbose
  config := after.config.or before.config
  aclDir := after.aclDir.or before.aclDir
  uciDir := after.uciDir.or before.uciDir

/-- A command. -/
inductive Command where
  /-- Log a user in, or only show what that would do. -/
  | login (user : String) (dryRun : Bool)
  /-- List the groups. -/
  | acls
  /-- Ask whether a user may access a group. -/
  | check (user : String) (permission : Permission) (group : String)
  deriving DecidableEq, Repr

/-- What the arguments ask for. -/
inductive Invocation where
  /-- Run a command. -/
  | run (options : GlobalOptions) (command : Command)
  /-- Show how the program is used. -/
  | help
  /-- Show the version. -/
  | version
  deriving DecidableEq, Repr

/-- The arguments cannot be understood. -/
inductive UsageError where
  | usage
  deriving DecidableEq, Repr

/-- An option. -/
inductive Flag where
  | debug
  | verbose
  | help
  | version
  | dryRun
  | config
  | aclDir
  | uciDir
  deriving DecidableEq, Repr

namespace Flag

/-- Whether a value follows the option. -/
def takesValue : Flag → Bool
  | .config => true
  | .aclDir => true
  | .uciDir => true
  | _ => false

/-- The option with a long name. -/
def ofLong? (name : String) : Option Flag :=
  if name = "debug" then some .debug
  else if name = "verbose" then some .verbose
  else if name = "help" then some .help
  else if name = "version" then some .version
  else if name = "dry-run" then some .dryRun
  else if name = "config" then some .config
  else if name = "acl-dir" then some .aclDir
  else if name = "uci-dir" then some .uciDir
  else none

/-- The option with a letter. -/
def ofShort? (letter : Char) : Option Flag :=
  if letter = 'd' then some .debug
  else if letter = 'v' then some .verbose
  else if letter = 'h' then some .help
  else if letter = 'V' then some .version
  else if letter = 'c' then some .config
  else none

end Flag

/-- The part of the command line that is being read. -/
inductive Side where
  /-- Before the command. -/
  | main
  /-- After the command `login`. -/
  | login
  /-- After the command `acls`. -/
  | acls
  /-- After the command `check`. -/
  | check
  deriving DecidableEq, Repr

/-- Whether an option may stand on a side. -/
def Side.knows : Side → Flag → Bool
  | .main, .version => true
  | _, .version => false
  | .login, .dryRun => true
  | _, .dryRun => false
  | _, _ => true

/-- How many arguments other than options may stand on a side. -/
def Side.room : Side → Nat
  | .main => 0
  | .login => 1
  | .acls => 0
  | .check => 3

/-- Whether a text may be the argument in a place, counted without the options.  The second
argument of `check` names a permission level. -/
def Side.takes (side : Side) (place : Nat) (text : String) : Bool :=
  decide (place < side.room) &&
    (side != .check || place != 1 || (Permission.ofName? text).isSome)

/-- What is read on one side. -/
structure Reading where
  /-- The side. -/
  side : Side
  /-- The global options on the other side. -/
  earlier : GlobalOptions
  /-- The global options on this side. -/
  options : GlobalOptions
  /-- Whether a dry run is asked for. -/
  dryRun : Bool
  /-- The arguments that are no options. -/
  words : List String
  deriving DecidableEq, Repr

/-- How reading goes on after an argument. -/
inductive Progress where
  /-- With the next argument. -/
  | next (r : Reading)
  /-- With the next argument as the value of an option. -/
  | value (r : Reading) (f : Flag)
  /-- Not at all: the answer is known. -/
  | answer (i : Invocation)

namespace Reading

/-- Sets an option without a value; none may be given twice. -/
def raise (r : Reading) (f : Flag) : Except UsageError Progress :=
  if !r.side.knows f then .error .usage
  else
    match f with
    | .help => .ok (.answer .help)
    | .version => .ok (.answer .version)
    | .debug =>
      if r.options.debug then .error .usage
      else .ok (.next { r with options := { r.options with debug := true } })
    | .verbose =>
      if r.options.verbose then .error .usage
      else .ok (.next { r with options := { r.options with verbose := true } })
    | .dryRun => if r.dryRun then .error .usage else .ok (.next { r with dryRun := true })
    | _ => .error .usage

/-- Gives an option its value, which is a path and not empty; none may be given twice. -/
def assign (r : Reading) (f : Flag) (value : String) : Except UsageError Reading :=
  if value = "" then .error .usage
  else
    match f with
    | .config =>
      if r.options.config.isSome then .error .usage
      else .ok { r with options := { r.options with config := some value } }
    | .aclDir =>
      if r.options.aclDir.isSome then .error .usage
      else .ok { r with options := { r.options with aclDir := some value } }
    | .uciDir =>
      if r.options.uciDir.isSome then .error .usage
      else .ok { r with options := { r.options with uciDir := some value } }
    | _ => .error .usage

/-- Reads an option with a long name, from behind its dashes. -/
def long (r : Reading) (text : List Char) : Except UsageError Progress :=
  let name := String.ofList (text.takeWhile (· != '='))
  match Flag.ofLong? name with
  | none => .error .usage
  | some f =>
    match text.dropWhile (· != '=') with
    | [] => if f.takesValue then .ok (.value r f) else r.raise f
    | _ :: value =>
      if f.takesValue then Progress.next <$> r.assign f (String.ofList value) else .error .usage

/-- Reads options with letters, from behind the dash. -/
def short (r : Reading) : List Char → Except UsageError Progress
  | [] => .ok (.next r)
  | c :: rest =>
    match Flag.ofShort? c with
    | none => .error .usage
    | some f =>
      if f.takesValue then
        match rest with
        | [] => .ok (.value r f)
        | '=' :: value => Progress.next <$> r.assign f (String.ofList value)
        | value => Progress.next <$> r.assign f (String.ofList value)
      else
        match r.raise f with
        | .ok (.next r') => r'.short rest
        | other => other

/-- Reads an argument that is no option: a command, or an argument of one. -/
def word (r : Reading) (text : String) : Except UsageError Progress :=
  match r.side with
  | .main =>
    let start (side : Side) : Reading := ⟨side, r.options, .none, false, []⟩
    if text = "login" then .ok (.next (start .login))
    else if text = "acls" then .ok (.next (start .acls))
    else if text = "check" then .ok (.next (start .check))
    else .error .usage
  | side =>
    if side.takes r.words.length text then .ok (.next { r with words := r.words ++ [text] })
    else .error .usage

/-- The invocation that was read when the arguments are over. -/
def finish (r : Reading) : Except UsageError Invocation :=
  let options := r.earlier.over r.options
  match r.side, r.words with
  | .login, [user] => .ok (.run options (.login user r.dryRun))
  | .acls, [] => .ok (.run options .acls)
  | .check, [user, level, group] =>
    match Permission.ofName? level with
    | some p => .ok (.run options (.check user p group))
    | none => .error .usage
  | _, _ => .error .usage

/-- Reads the arguments after two dashes. -/
def rest (r : Reading) : List String → Except UsageError Invocation
  | [] => r.finish
  | a :: more =>
    if r.side = .main then .error .usage
    else
      match r.word a with
      | .ok (.next r') => r'.rest more
      | .ok (.value _ _) => .error .usage
      | .ok (.answer i) => .ok i
      | .error e => .error e

/-- Reads one argument. -/
def argument (r : Reading) (a : String) : Except UsageError Progress :=
  match a.toList with
  | '-' :: '-' :: name => r.long name
  | '-' :: c :: letters => r.short (c :: letters)
  | _ => r.word a

/-- Whether help can be given on what these words name. -/
def isHelpTopic (words : List String) : Bool :=
  match words with
  | [] => true
  | [w] => w ∈ ["login", "acls", "check", "help"]
  | _ => false

/-- Reads arguments; `awaiting` is the option whose value comes next. -/
def all (r : Reading) (awaiting : Option Flag) : List String → Except UsageError Invocation
  | [] => if awaiting.isSome then .error .usage else r.finish
  | a :: more =>
    match awaiting with
    | some f =>
      if a.toList.head? = some '-' ∧ a ≠ "-" then .error .usage
      else
        match r.assign f a with
        | .ok r' => r'.all none more
        | .error e => .error e
    | none =>
      if a = "--" then r.rest more
      else if r.side = .main ∧ a = "help" then
        if isHelpTopic more then .ok .help else .error .usage
      else
        match r.argument a with
        | .ok (.next r') => r'.all none more
        | .ok (.value r' f) => r'.all (some f) more
        | .ok (.answer i) => .ok i
        | .error e => .error e

end Reading

/-- What arguments ask for. -/
def parseArguments (arguments : List String) : Except UsageError Invocation :=
  (Reading.mk .main .none .none false []).all none arguments

end Gatehouse.CommandLine
