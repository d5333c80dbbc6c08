import Gatehouse.Broker.Request

/-!
# A broker that follows a script

The script says how each kind of request is answered.  The broker does nothing but keep the
requests it got.
-/

namespace Gatehouse.Broker

/-- How requests are answered: with an error where there is one, else with success. -/
structure Script where
  /-- The id that creating gives; it may be empty. -/
  sid : SessionId
  /-- The error of connecting. -/
  connect : Option BrokerError
  /-- The error of creating. -/
  create : Option BrokerError
  /-- The error of storing a value. -/
  set : Option BrokerError
  /-- The error of granting. -/
  grant : Option BrokerError
  /-- The errors of granting in single scopes, which go first. -/
  grantIn : List (String × BrokerError)
  deriving DecidableEq, Repr

namespace Script

/-- Success, unless there is an error. -/
def answerWith {α : Type} (a : α) : Option BrokerError → Except BrokerError α
  | none => .ok a
  | some e => .error e

/-- The answer to a request. -/
def reply (s : Script) : (r : Request) → r.Reply
  | .connect => answerWith () s.connect
  | .create _ _ => answerWith s.sid s.create
  | .set _ _ _ _ => answerWith () s.set
  | .grant _ g _ => answerWith () (((s.grantIn.find? (·.1 == g.scope)).map (·.2)).or s.grant)

/-- The broker that follows the script and keeps the requests. -/
def broker (s : Script) : Broker (List Request) where
  answer r log := (s.reply r, log ++ [r])

end Script

end Gatehouse.Broker
