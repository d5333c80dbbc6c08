import Gatehouse.Broker.Client
import Gatehouse.Broker.Memory
import Gatehouse.CommandLine.Arguments
import Gatehouse.Config.Layers
import Gatehouse.Login

/-!
# Running the command line

A run depends on the arguments, the files, the environment, and on what the client program does
when it is run.  It ends with an exit status, the text on standard output, and a failure that is
told on standard error.
-/

namespace Gatehouse.CommandLine

open Gatehouse.Access Gatehouse.Acl Gatehouse.Broker Gatehouse.Files

/-- A failure with the words that introduce it. -/
structure Failure where
  /-- The words in front of the code. -/
  label : String
  /-- The code of the error. -/
  code : String
  /-- The text of the error. -/
  message : String
  deriving DecidableEq, Repr

/-- The failure in one line. -/
def Failure.text (f : Failure) : String :=
  f.label ++ " [" ++ f.code ++ "]: " ++ f.message

/-- The failure of an error. -/
def Failure.of {ε : Type} [Report ε] (label : String) (e : ε) : Failure :=
  ⟨label, Report.code e, Report.message e⟩

/-- How a run ended. -/
structure Result where
  /-- The exit status. -/
  status : Nat
  /-- The text on standard output. -/
  stdout : String
  /-- What is told on standard error. -/
  failure : Option Failure
  deriving DecidableEq, Repr

/-- The name and version of the program. -/
def versionText : String := "sesame 0.1.0\n"

/-- The text of lines. -/
def unlines (ls : List String) : String :=
  String.join (ls.map (· ++ "\n"))

/-- How the program is used. -/
def helpText : String :=
  unlines [
    "Command-line front end for sesame session provisioning",
    "",
    "Usage: sesame [OPTIONS] <COMMAND>",
    "",
    "Commands:",
    "  login  Create a session for a user and apply their ACL grants",
    "  acls   List ACL groups across all documents",
    "  check  Check one access decision",
    "  help   Print this message or the help of the given subcommand(s)",
    "",
    "Options:",
    "  -d, --debug          Enable debug logging",
    "  -v, --verbose        Enable verbose output",
    "  -c, --config <FILE>  Config file layered over the system config",
    "      --acl-dir <DIR>  Override ACL document directory (also: SESAME_ACL_DIR)",
    "      --uci-dir <DIR>  Override UCI configuration directory (also: SESAME_UCI_DIR)",
    "  -h, --help           Print help",
    "  -V, --version        Print version"]

/-- The exit status after arguments that cannot be understood. -/
def usageStatus : Nat := 2

/-- A run that succeeded. -/
def Result.success (lines : List String) : Result :=
  ⟨0, unlines lines, none⟩

/-- A run that failed. -/
def Result.failed (f : Failure) : Result :=
  ⟨1, "", some f⟩

/-- Settings with the folders that the options name. -/
def GlobalOptions.apply (o : GlobalOptions) (c : Config) : Config :=
  { c with
    paths :=
      { c.paths with
        aclDir := o.aclDir.getD c.paths.aclDir
        uciDir := o.uciDir.getD c.paths.uciDir } }

/-- The settings that the options, the files and the environment give. -/
def resolve (o : GlobalOptions) (tree : Tree) (env : Environment) : Except ConfigError Config :=
  o.apply <$> Config.load tree ⟨systemConfigPath, o.config, env⟩

/-- The login of a user under settings. -/
def loginDialogue (c : Config) (tree : Tree) (user : String) :
    Dialogue LoginEvent (Except LoginError LoginReport) :=
  Login.dialogue (.prepare (.ofFolder tree c.paths.uciDir) tree c.login user)

/-- Logs a user in through the client program. -/
def login {σ : Type} (client : String → Client σ) (c : Config) (tree : Tree) (user : String)
    (s : σ) : Result × σ :=
  let path := c.broker.clientPath
  let o := (loginDialogue c tree user).run ((client path).broker path c.callTime) s
  match o.result with
  | .ok report => (.success [report.sid.text], o.state)
  | .error e => (.failed (.of "Error" e), o.state)

/-- Shows what logging a user in would grant; the session gets the id `sid`. -/
def dryRun (sid : SessionId) (c : Config) (tree : Tree) (user : String) : Result :=
  let o := (loginDialogue c tree user).run (Memory.broker fun _ => sid) .fresh
  match o.result with
  | .ok report =>
    .success (report.sid.text :: (o.state.grants report.sid).map fun g => g.toJson.compact)
  | .error e => .failed (.of "Error" e)

/-- The line that lists a group. -/
def summaryLine (s : Summary) : String :=
  let levels := if s.permissions.isEmpty then "-" else ",".intercalate (s.permissions.map (·.name))
  s.name ++ "\t" ++ levels ++ "\t" ++ s.description.getD "-"

/-- Lists the groups of the library. -/
def listAcls (c : Config) (tree : Tree) : Result :=
  match c.login.library.catalog tree with
  | .ok summaries => .success (summaries.map summaryLine)
  | .error e => .failed (.of "Error: ACL error" e)

/-- Whether a user may access a group. -/
def isAllowed (c : Config) (tree : Tree) (user : String) (p : Permission) (group : String) : Bool :=
  match authorizationOf (.ofFolder tree c.paths.uciDir) user with
  | some auth => auth.allows p group
  | none => false

/-- Tells whether a user may access a group. -/
def check (c : Config) (tree : Tree) (user : String) (p : Permission) (group : String) : Result :=
  if isAllowed c tree user p group then ⟨0, "allowed\n", none⟩ else ⟨1, "denied\n", none⟩

/-- Runs a command.  `client` gives the client program with a path, and `sid` is the id of the
session of a dry run. -/
def runCommand {σ : Type} (client : String → Client σ) (sid : SessionId) (c : Config) (tree : Tree)
    (command : Command) (s : σ) : Result × σ :=
  match command with
  | .login user true => (dryRun sid c tree user, s)
  | .login user false => login client c tree user s
  | .acls => (listAcls c tree, s)
  | .check user p group => (check c tree user p group, s)

/-- Runs the program. -/
def run {σ : Type} (client : String → Client σ) (sid : SessionId) (tree : Tree) (env : Environment)
    (arguments : List String) (s : σ) : Result × σ :=
  match parseArguments arguments with
  | .error .usage => (⟨usageStatus, "", none⟩, s)
  | .ok .help => (⟨0, helpText, none⟩, s)
  | .ok .version => (⟨0, versionText, none⟩, s)
  | .ok (.run options command) =>
    match resolve options tree env with
    | .error e => (.failed (.of "Error: Config error" e), s)
    | .ok c => runCommand client sid c tree command s

end Gatehouse.CommandLine
