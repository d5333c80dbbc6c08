import Gatehouse.Broker.Request

/-!
# A broker behind a client program

The broker is reached by running a program, once for every request.  The arguments carry the time
limit in whole seconds, rounded up, and the body of the call as JSON; the exit status and the
output say what became of it.
-/

namespace Gatehouse.Broker

/-- How a program ended. -/
inductive Exit where
  /-- By itself, with a status. -/
  | status (code : Int)
  /-- By the signal that kills. -/
  | killed
  deriving DecidableEq, Repr

/-- The end of a program in words. -/
def Exit.text : Exit → String
  | .status code => "exit status: " ++ toString code
  | .killed => "signal: 9 (SIGKILL)"

/-- What a program that ran left behind. -/
structure ProgramRun where
  /-- How it ended. -/
  exit : Exit
  /-- What it wrote. -/
  stdout : List UInt8
  deriving DecidableEq, Repr

/-- A program that can be run with arguments; the error says why it cannot be run. -/
structure Client (σ : Type) where
  /-- Runs the program. -/
  run : List String → σ → Except String ProgramRun × σ

/-- The remote object that keeps the sessions. -/
def sessionObject : String := "session"

/-- The whole seconds that are granted for a time limit: rounded up, and at least one. -/
def limitSecs (limit : Duration) : Nat :=
  min (max ((limit.millis + 999) / 1000) 1) (UInt64.size - 1)

/-- The arguments in front of all others. -/
def limitArgs (limit : Duration) : List String :=
  ["-t", toString (limitSecs limit)]

/-- The arguments that look for the session object. -/
def lookupArgs (limit : Duration) : List String :=
  limitArgs limit ++ ["list", sessionObject]

/-- The arguments of a call. -/
def callArgs (limit : Duration) (method : String) (body : Json) : List String :=
  limitArgs limit ++ ["call", sessionObject, method, body.compact]

/-- The exit status of a call that took too long. -/
def timeoutStatus : Int := 7

/-- What a call that ran says. -/
def callResult (method : String) : Except String ProgramRun → Except BrokerError (List UInt8)
  | .error cause => .error (.transport cause)
  | .ok r =>
    match r.exit with
    | .killed => .error (.unavailable ("ubus terminated by signal during session." ++ method))
    | .status code =>
      if code = 0 then .ok r.stdout
      else if code = timeoutStatus then .error (.timeout method)
      else .error (.call method code)

/-- What looking for the session object says. -/
def lookupResult (program : String) : Except String ProgramRun → Except BrokerError Unit
  | .error cause => .error (.unavailable ("cannot run " ++ program ++ ": " ++ cause))
  | .ok r =>
    if r.exit = .status 0 then .ok ()
    else
      .error (.unavailable
        ("'" ++ sessionObject ++ "' object not found (" ++ r.exit.text ++ ")"))

/-- The names of the member that holds the session id. -/
def sidNames : List String := ["sid", "ubus_rpc_session"]

/-- The session id in the value of the member: an empty one is none. -/
def sidOfValue : Option Json → Except BrokerError SessionId
  | none => .error .noSessionId
  | some .null => .error .noSessionId
  | some (.string s) => if s = "" then .error .noSessionId else .ok ⟨s⟩
  | some _ => .error (.invalidReply "create")

/-- The session id in a reply. -/
def sidOfReply (stdout : List UInt8) : Except BrokerError SessionId :=
  match Json.parseRecord sidNames (Text.scan stdout) with
  | .error _ => .error (.invalidReply "create")
  | .ok (.named members) =>
    match Json.field? sidNames members with
    | .ok v => sidOfValue v
    | .error _ => .error (.invalidReply "create")
  | .ok (.positional [v]) => sidOfValue (some v)
  | .ok (.positional _) => .error (.invalidReply "create")

/-- The body of the call that creates a session. -/
def createBody (idle : Duration) : Json :=
  .object [("timeout", .ofNat idle.secs.toNat)]

/-- The body of the call that stores a value. -/
def setBody (sid : SessionId) (key value : String) : Json :=
  .object [("sid", sid.toJson), ("values", .object [(key, .string value)])]

namespace Client

variable {σ : Type}

/-- The broker behind a client program; `lookupLimit` is the time that connecting may take. -/
def broker (client : Client σ) (program : String) (lookupLimit : Duration) : Broker σ where
  answer
    | .connect, s =>
      let (r, s') := client.run (lookupArgs lookupLimit) s
      (lookupResult program r, s')
    | .create idle limit, s =>
      let (r, s') := client.run (callArgs limit "create" (createBody idle)) s
      (callResult "create" r >>= sidOfReply, s')
    | .set sid key value limit, s =>
      let (r, s') := client.run (callArgs limit "set" (setBody sid key value)) s
      ((fun _ => ()) <$> callResult "set" r, s')
    | .grant sid g limit, s =>
      let (r, s') := client.run (callArgs limit "grant" (g.request sid)) s
      ((fun _ => ()) <$> callResult "grant" r, s')

end Client

end Gatehouse.Broker
