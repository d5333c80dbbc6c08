import Gatehouse.Access.GroupPattern
import Gatehouse.Broker.Request
import Gatehouse.Keyed

/-!
# A broker in memory

The state is a table of sessions, the log of all calls, the number of connections, and the faults
that are switched on.  A session keeps its grants twice: as they were given, and as sets of pairs
by scope, which answer what it may access.
-/

namespace Gatehouse.Broker

open Gatehouse.Acl Gatehouse.Access

/-- A session. -/
structure SessionRecord where
  /-- How long the session may be idle. -/
  idle : Duration
  /-- The values stored on it. -/
  values : List (String × String)
  /-- The pairs granted in each scope, each pair once. -/
  rights : List (String × List (String × String))
  /-- The grants as they were given. -/
  grants : List Grant
  deriving DecidableEq, Repr

namespace SessionRecord

/-- A session without values and rights. -/
def fresh (idle : Duration) : SessionRecord :=
  ⟨idle, [], [], []⟩

/-- Adds pairs that are not there yet. -/
def addPairs (pairs : List (String × String)) (old : List (String × String)) :
    List (String × String) :=
  pairs.foldl (fun ps p => if p ∈ ps then ps else ps ++ [p]) old

/-- Stores a value. -/
def setValue (r : SessionRecord) (key value : String) : SessionRecord :=
  { r with values := Keyed.set key value r.values }

/-- Adds the rights of a grant. -/
def addGrant (r : SessionRecord) (g : Grant) : SessionRecord :=
  { r with
    rights := Keyed.alter g.scope (fun old => addPairs g.pairs (old.getD [])) r.rights
    grants := r.grants ++ [g] }

/-- Whether the session may call a function of an object in a scope.  The pairs are patterns. -/
def access (r : SessionRecord) (scope object function : String) : Bool :=
  ((Keyed.get? scope r.rights).getD []).any fun (o, f) =>
    (GroupPattern.mk o).covers object && (GroupPattern.mk f).covers function

end SessionRecord

/-- A call that reached the broker. -/
inductive Call where
  | create (idle : Duration)
  | set (sid : SessionId) (key value : String)
  | grant (sid : SessionId) (g : Grant)
  deriving DecidableEq, Repr

/-- A fault that can be switched on. -/
inductive FaultSwitch where
  /-- Connecting fails. -/
  | unreachable
  /-- Creating a session fails. -/
  | create
  /-- Creating a session gives no id. -/
  | noSessionId
  /-- Storing a value fails. -/
  | set
  /-- Granting in a scope fails. -/
  | grant (scope : String)
  deriving DecidableEq, Repr

/-- The state of a broker. -/
structure Memory where
  /-- The sessions by id, in the order of their creation. -/
  sessions : List (SessionId × SessionRecord)
  /-- The calls so far. -/
  calls : List Call
  /-- How often a connection was tried. -/
  connects : Nat
  /-- The faults that are switched on. -/
  faults : List FaultSwitch
  deriving DecidableEq, Repr

namespace Memory

/-- No sessions, no calls, no faults. -/
def fresh : Memory :=
  ⟨[], [], 0, []⟩

/-- Switches a fault on. -/
def switch (m : Memory) (f : FaultSwitch) : Memory :=
  { m with faults := m.faults ++ [f] }

/-- Logs a call. -/
def log (m : Memory) (c : Call) : Memory :=
  { m with calls := m.calls ++ [c] }

/-- The session with an id. -/
def session? (m : Memory) (sid : SessionId) : Option SessionRecord :=
  Keyed.get? sid m.sessions

/-- Changes a session that is there. -/
def update (m : Memory) (sid : SessionId) (r : SessionRecord) : Memory :=
  { m with sessions := Keyed.set sid r m.sessions }

/-- Answers a request to connect. -/
def connect (m : Memory) : Except BrokerError Unit × Memory :=
  let m' := { m with connects := m.connects + 1 }
  if .unreachable ∈ m.faults then (.error (.unavailable "memory broker is unreachable"), m')
  else (.ok (), m')

/-- Answers a request to create a session, which gets the id `sid`. -/
def create (m : Memory) (sid : SessionId) (idle : Duration) :
    Except BrokerError SessionId × Memory :=
  let m' := m.log (.create idle)
  if .create ∈ m.faults then (.error (.call "create" 2), m')
  else if .noSessionId ∈ m.faults then (.error .noSessionId, m')
  else (.ok sid, m'.update sid (.fresh idle))

/-- Answers a request to store a value. -/
def set (m : Memory) (sid : SessionId) (key value : String) : Except BrokerError Unit × Memory :=
  let m' := m.log (.set sid key value)
  if .set ∈ m.faults then (.error (.call "set" 2), m')
  else
    match m.session? sid with
    | some r => (.ok (), m'.update sid (r.setValue key value))
    | none => (.error (.call "set" 4), m')

/-- Answers a request to grant rights. -/
def grant (m : Memory) (sid : SessionId) (g : Grant) : Except BrokerError Unit × Memory :=
  let m' := m.log (.grant sid g)
  if .grant g.scope ∈ m.faults then (.error (.call "grant" 6), m')
  else
    match m.session? sid with
    | some r => (.ok (), m'.update sid (r.addGrant g))
    | none => (.error (.call "grant" 4), m')

/-- The value stored on a session under a key. -/
def value (m : Memory) (sid : SessionId) (key : String) : Option String :=
  (m.session? sid).bind fun r => Keyed.get? key r.values

/-- The grants of a session, in order. -/
def grants (m : Memory) (sid : SessionId) : List Grant :=
  ((m.session? sid).map (·.grants)).getD []

/-- How long a session may be idle. -/
def idle? (m : Memory) (sid : SessionId) : Option Duration :=
  (m.session? sid).map (·.idle)

/-- Whether a session may call a function of an object in a scope. -/
def access (m : Memory) (sid : SessionId) (scope object function : String) : Bool :=
  match m.session? sid with
  | some r => r.access scope object function
  | none => false

/-- The broker in memory.  The session that is created when there are `n` gets the id `mint n`. -/
def broker (mint : Nat → SessionId) : Broker Memory where
  answer
    | .connect, m => m.connect
    | .create idle _, m => m.create (mint m.sessions.length) idle
    | .set sid key value _, m => m.set sid key value
    | .grant sid g _, m => m.grant sid g

end Memory

end Gatehouse.Broker
