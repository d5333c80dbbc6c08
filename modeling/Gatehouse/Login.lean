import Gatehouse.Access.Lookup
import Gatehouse.Acl.Catalog
import Gatehouse.Acl.Expansion
import Gatehouse.Broker.Dialogue
import Gatehouse.Config.Basic

/-!
# Logging in

A login turns the rights of a user into a session.  Without an authorization the broker is not even
connected to.  Once the session exists nothing stops the login any more: what cannot be attached,
loaded or granted is noted and counted.
-/

namespace Gatehouse

open Gatehouse.Access Gatehouse.Acl Gatehouse.Broker Gatehouse.Files

/-- A stage of a login. -/
inductive Stage where
  | authorizeGate
  | sessionCreate
  | identityAttach
  | aclScan
  | done
  | abort
  deriving DecidableEq, Repr

/-- The name of a stage. -/
def Stage.name : Stage → String
  | .authorizeGate => "authorize_gate"
  | .sessionCreate => "session_create"
  | .identityAttach => "identity_attach"
  | .aclScan => "acl_scan"
  | .done => "done"
  | .abort => "abort"

/-- Something that went wrong without stopping the login. -/
inductive Warning where
  /-- The package of the policies cannot be loaded. -/
  | policyPackage
  /-- The user could not be stored on the session. -/
  | identity
  /-- The folder of the documents cannot be searched. -/
  | scan
  /-- A file is no document. -/
  | document
  /-- A grant was refused. -/
  | grant
  deriving DecidableEq, Repr

/-- The text of a warning. -/
def Warning.text : Warning → String
  | .policyPackage => "Failed to load access package"
  | .identity => "Failed to attach user to session"
  | .scan => "Cannot scan ACL directory"
  | .document => "Skipping ACL file"
  | .grant => "Grant failed"

/-- What is noted during a login. -/
inductive LoginEvent where
  /-- A stage begins. -/
  | stage (s : Stage)
  /-- Something went wrong. -/
  | warning (w : Warning)
  deriving DecidableEq, Repr

namespace LoginEvent

/-- The stages among events. -/
def stages (es : List LoginEvent) : List Stage :=
  es.filterMap fun
    | .stage s => some s
    | .warning _ => none

/-- The warnings among events. -/
def warnings (es : List LoginEvent) : List Warning :=
  es.filterMap fun
    | .stage _ => none
    | .warning w => some w

end LoginEvent

/-- Why a login failed. -/
inductive LoginError where
  /-- The user has no policy. -/
  | denied (user : String)
  /-- Connecting to the broker failed. -/
  | brokerUnavailable (cause : BrokerError)
  /-- No session was created. -/
  | createFailed (cause : BrokerError)
  deriving DecidableEq, Repr

instance : Report LoginError where
  code
    | .denied _ => "PROVISION_DENIED"
    | .brokerUnavailable _ => "PROVISION_BROKER_UNAVAILABLE"
    | .createFailed _ => "PROVISION_SESSION_CREATE_FAILED"
  message
    | .denied user => "login denied for user '" ++ user ++ "'"
    | .brokerUnavailable cause => "session broker unavailable: " ++ Report.message cause
    | .createFailed cause => "session creation failed: " ++ Report.message cause
  recoverable
    | .denied _ => false
    | .brokerUnavailable cause => Report.recoverable cause
    | .createFailed cause => Report.recoverable cause

/-- What happened to the grants of a login. -/
structure Tally where
  /-- The grants that the broker accepted. -/
  applied : Nat
  /-- The grants that it refused. -/
  failed : Nat
  /-- The files that are no documents. -/
  skipped : Nat
  deriving DecidableEq, Repr

/-- The outcome of a successful login. -/
structure LoginReport where
  /-- The session. -/
  sid : SessionId
  /-- Whether the user is stored on the session. -/
  identityAttached : Bool
  /-- What happened to the grants. -/
  tally : Tally
  deriving DecidableEq, Repr

/-- Where documents are, and how long sessions and calls last. -/
structure LoginSettings where
  /-- The library of documents. -/
  library : Library
  /-- After how long an idle session ends. -/
  idle : Duration
  /-- How long a call may take. -/
  call : Duration
  deriving DecidableEq, Repr

/-- The settings of logins. -/
def Config.login (c : Config) : LoginSettings :=
  ⟨⟨c.paths.aclDir, c.paths.aclPattern⟩, c.idleTime, c.callTime⟩

/-- The key under which the user is stored on a session. -/
def userKey : String := "user"

/-- What a login knows before it talks to a broker. -/
structure LoginCase where
  /-- The user. -/
  user : String
  /-- What was found out about his policy. -/
  finding : Finding
  /-- What became of the files of the library. -/
  files : Except LibraryError (List (Except DocumentError Loaded))
  /-- After how long an idle session ends. -/
  idle : Duration
  /-- How long a call may take. -/
  call : Duration

namespace LoginCase

/-- Collects what a login needs to know. -/
def prepare (store : Uci.Store) (tree : Tree) (settings : LoginSettings) (user : String) :
    LoginCase :=
  ⟨user, findPolicy store user, settings.library.load tree, settings.idle, settings.call⟩

/-- The authorization of the user, if he may log in. -/
def authorization (c : LoginCase) : Option Authorization :=
  Authorization.forUser c.user c.finding.policy

end LoginCase

namespace Login

open Dialogue

/-- Notes that a stage begins. -/
def enter (s : Stage) : Dialogue LoginEvent Unit :=
  event (.stage s)

/-- Notes that something went wrong. -/
def warn (w : Warning) : Dialogue LoginEvent Unit :=
  event (.warning w)

/-- Creates a session; an empty id is none. -/
def createSession (idle call : Duration) : Dialogue LoginEvent (Except BrokerError SessionId) :=
  ask (.create idle call) fun reply =>
    done (match reply with
      | .ok sid => if sid.isEmpty then .error .noSessionId else .ok sid
      | .error e => .error e)

/-- Submits grants, one after the other. -/
def submit (sid : SessionId) (call : Duration) : List Grant → Tally → Dialogue LoginEvent Tally
  | [], t => done t
  | g :: r, t =>
    ask (.grant sid g call) fun reply =>
      match reply with
      | .ok _ => submit sid call r { t with applied := t.applied + 1 }
      | .error _ =>
        note (.warning .grant) (submit sid call r { t with failed := t.failed + 1 })

/-- Submits the grants of all files, as far as they are allowed. -/
def submitFiles (sid : SessionId) (call : Duration) (auth : Authorization) :
    List (Except DocumentError Loaded) → Tally → Dialogue LoginEvent Tally
  | [], t => done t
  | .ok l :: r, t => do
    let t ← submit sid call (expand l.document auth.allows) t
    submitFiles sid call auth r t
  | .error _ :: r, t =>
    note (.warning .document) (submitFiles sid call auth r { t with skipped := t.skipped + 1 })

/-- Submits the grants of a library. -/
def applyLibrary (sid : SessionId) (call : Duration) (auth : Authorization) :
    Except LibraryError (List (Except DocumentError Loaded)) → Dialogue LoginEvent Tally
  | .ok files => submitFiles sid call auth files ⟨0, 0, 0⟩
  | .error _ => note (.warning .scan) (done ⟨0, 0, 0⟩)

/-- Stores the user on the session and tells whether that worked. -/
def attachIdentity (sid : SessionId) (user : String) (call : Duration) :
    Dialogue LoginEvent Bool :=
  ask (.set sid userKey user call) fun reply =>
    match reply with
    | .ok _ => done true
    | .error _ => note (.warning .identity) (done false)

/-- What follows once the session exists. -/
def furnish (c : LoginCase) (auth : Authorization) (sid : SessionId) :
    Dialogue LoginEvent LoginReport := do
  enter .identityAttach
  let attached ← attachIdentity sid c.user c.call
  enter .aclScan
  let tally ← applyLibrary sid c.call auth c.files
  enter .done
  pure ⟨sid, attached, tally⟩

/-- What follows once the user may log in. -/
def openFor (c : LoginCase) (auth : Authorization) :
    Dialogue LoginEvent (Except LoginError LoginReport) := do
  enter .sessionCreate
  match ← request .connect with
  | .error e => do
    enter .abort
    pure (.error (.brokerUnavailable e))
  | .ok _ =>
    match ← createSession c.idle c.call with
    | .error e => do
      enter .abort
      pure (.error (.createFailed e))
    | .ok sid => Except.ok <$> furnish c auth sid

/-- The whole login. -/
def dialogue (c : LoginCase) : Dialogue LoginEvent (Except LoginError LoginReport) := do
  enter .authorizeGate
  if c.finding.unreadable then warn .policyPackage
  match c.authorization with
  | none => do
    enter .abort
    pure (.error (.denied c.user))
  | some auth => openFor c auth

end Login

end Gatehouse
