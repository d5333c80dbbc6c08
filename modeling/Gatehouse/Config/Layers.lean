import Gatehouse.Config.Document
import Gatehouse.Files.Tree
import Gatehouse.Report
import Gatehouse.Text.Blank

/-!
# Layers of settings

The settings come from the defaults, the file of the system, a file that is asked for, and the
environment, each layer over the one before it.  Files that do not exist are passed over.
-/

namespace Gatehouse

open Gatehouse.Files

/-- Why settings cannot be loaded. -/
inductive ConfigError where
  /-- A file cannot be read. -/
  | read (path cause : String)
  /-- A file is no document of settings. -/
  | parse (path : String)
  /-- A variable of the environment has a bad value. -/
  | variable (name message : String)
  deriving DecidableEq, Repr

instance : Report ConfigError where
  code
    | .read _ _ => "CONFIG_READ_FILE"
    | .parse _ => "CONFIG_PARSE_TOML"
    | .variable _ _ => "CONFIG_INVALID_ENV_VAR"
  message
    | .read path cause => "failed to read config file '" ++ path ++ "': " ++ cause
    | .parse path => "failed to parse config file '" ++ path ++ "': <toml error>"
    | .variable name message =>
      "invalid value for environment variable '" ++ name ++ "': " ++ message
  recoverable _ := false

/-- The variables of an environment. -/
abbrev Environment := List (String × String)

/-- The variable for the idle seconds of a session. -/
def timeoutVariable : String := "SESAME_SESSION_TIMEOUT"

/-- The variable for the thousandths of a second that a call may take. -/
def callTimeoutVariable : String := "SESAME_CALL_TIMEOUT_MS"

/-- The variable for the folder of the ACL documents. -/
def aclDirVariable : String := "SESAME_ACL_DIR"

/-- The variable for the folder of the configuration packages. -/
def uciDirVariable : String := "SESAME_UCI_DIR"

/-- The variable for the client program. -/
def clientVariable : String := "SESAME_UBUS_PATH"

/-- The variables that settings can come from. -/
def Environment.variables : List String :=
  [timeoutVariable, callTimeoutVariable, aclDirVariable, uciDirVariable, clientVariable]

/-- Where settings come from. -/
structure ConfigSources where
  /-- The file of the system. -/
  system : String
  /-- The file that is asked for. -/
  file : Option String
  /-- The environment. -/
  environment : Environment

/-- The file of the system, unless another one is named. -/
def systemConfigPath : String := "/etc/sesame/config.toml"

namespace Config

/-- Reads a file of settings, if it exists. -/
def loadFile (tree : Tree) (path : String) : Except ConfigError (Option Config) :=
  if tree.exists? path then
    match tree.readText path with
    | .error fault => .error (.read path fault.message)
    | .ok text =>
      match parse? text with
      | some c => .ok (some c)
      | none => .error (.parse path)
  else .ok none

/-- Lays a file of settings over others. -/
def overlayFile (tree : Tree) (path : String) (base : Config) : Except ConfigError Config := do
  match ← loadFile tree path with
  | some c => pure (base.merge c)
  | none => pure base

/-- A number in a variable; without the variable the number stays as it is. -/
def numberFrom (env : Environment) (name : String) (old : UInt64) : Except ConfigError UInt64 :=
  match Keyed.get? name env with
  | none => .ok old
  | some v =>
    match Decimal.parseWord? (Text.trim v.toList) with
    | some n => .ok n
    | none => .error (.variable name "expected non-negative integer")

/-- A text in a variable; without the variable the text stays as it is. -/
def textFrom (env : Environment) (name old : String) : String :=
  (Keyed.get? name env).getD old

/-- Lays an environment over settings. -/
def overlayEnvironment (env : Environment) (c : Config) : Except ConfigError Config := do
  let timeoutSecs ← numberFrom env timeoutVariable c.session.timeoutSecs
  let callTimeoutMs ← numberFrom env callTimeoutVariable c.session.callTimeoutMs
  pure
    { paths :=
        ⟨textFrom env aclDirVariable c.paths.aclDir, c.paths.aclPattern,
          textFrom env uciDirVariable c.paths.uciDir⟩
      session := ⟨timeoutSecs, callTimeoutMs⟩
      broker := ⟨textFrom env clientVariable c.broker.clientPath⟩ }

/-- The settings that all layers together give. -/
def load (tree : Tree) (sources : ConfigSources) : Except ConfigError Config := do
  let c ← overlayFile tree sources.system default
  let c ← match sources.file with
    | some path => overlayFile tree path c
    | none => pure c
  overlayEnvironment sources.environment c

end Config

end Gatehouse
