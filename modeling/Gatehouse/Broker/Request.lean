import Gatehouse.Acl.Grant
import Gatehouse.Duration

/-!
# Session brokers

A broker keeps sessions.  It answers four requests: to be connected to, to create a session, to
store a value on a session, and to grant rights to it.  Whatever answers these requests from a
state of its own is a broker.
-/

namespace Gatehouse.Broker

/-- Why a request failed. -/
inductive BrokerError where
  /-- The broker cannot be reached. -/
  | unavailable (reason : String)
  /-- The call took too long. -/
  | timeout (method : String)
  /-- The broker refused the call. -/
  | call (method : String) (status : Int)
  /-- A session was created, but no id came back. -/
  | noSessionId
  /-- The reply is not what it should be. -/
  | invalidReply (method : String)
  /-- The call could not be made. -/
  | transport (cause : String)
  deriving DecidableEq, Repr

instance : Report BrokerError where
  code
    | .unavailable _ => "BROKER_UNAVAILABLE"
    | .timeout _ => "BROKER_TIMEOUT"
    | .call _ _ => "BROKER_CALL"
    | .noSessionId => "BROKER_NO_SESSION_ID"
    | .invalidReply _ => "BROKER_INVALID_REPLY"
    | .transport _ => "BROKER_IO"
  message
    | .unavailable reason => "session broker unavailable: " ++ reason
    | .timeout method => "session." ++ method ++ " timed out"
    | .call method status => "session." ++ method ++ " failed with status " ++ toString status
    | .noSessionId => "session.create returned no session id"
    | .invalidReply method => "invalid reply from session." ++ method ++ ": " ++ Json.Fault.details
    | .transport cause => "broker I/O error: " ++ cause
  recoverable
    | .unavailable _ => true
    | .timeout _ => true
    | .transport _ => true
    | _ => false

/-- What can be asked of a broker.  `limit` is the time that the call may take. -/
inductive Request where
  /-- Connect. -/
  | connect
  /-- Create a session that ends after being idle for some time. -/
  | create (idle limit : Duration)
  /-- Store a value on a session. -/
  | set (sid : SessionId) (key value : String) (limit : Duration)
  /-- Grant rights to a session. -/
  | grant (sid : SessionId) (g : Acl.Grant) (limit : Duration)
  deriving DecidableEq, Repr

/-- What a successful request gives: creating gives the id of the session. -/
abbrev Request.Value : Request → Type
  | .create _ _ => SessionId
  | _ => Unit

/-- The answer to a request. -/
abbrev Request.Reply (r : Request) : Type :=
  Except BrokerError r.Value

/-- Whether the request succeeded. -/
def Request.succeeded {r : Request} : r.Reply → Bool
  | .ok _ => true
  | .error _ => false

end Broker

/-- Something that answers requests from a state. -/
structure Broker (σ : Type) where
  /-- The answer to a request, and the state after it. -/
  answer : (r : Broker.Request) → σ → r.Reply × σ

end Gatehouse
