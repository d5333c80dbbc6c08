import Gatehouse.Broker.Request

/-!
# Dialogues with a broker

A dialogue says what is asked of a broker, and how it goes on with each answer.  It is a value, so
the same dialogue can be held with any broker, and dialogues can be interleaved request by request.
On the way it can note events.  `run_bind` says that a dialogue and its continuation are held one
after the other.
-/

namespace Gatehouse.Broker

/-- What is asked, one request after the other, until a result is known. -/
inductive Dialogue (ε α : Type) where
  /-- The result is known. -/
  | done (result : α)
  /-- An event is noted. -/
  | note (event : ε) (next : Dialogue ε α)
  /-- A request is made, and its answer decides how to go on. -/
  | ask (request : Request) (next : request.Reply → Dialogue ε α)

namespace Dialogue

variable {ε α β σ : Type}

/-- Goes on with the result of a dialogue. -/
def bind : Dialogue ε α → (α → Dialogue ε β) → Dialogue ε β
  | done a, f => f a
  | note e d, f => note e (d.bind f)
  | ask r next, f => ask r fun reply => (next reply).bind f

instance : Monad (Dialogue ε) where
  pure := done
  bind := bind

/-- Makes one request. -/
def request (r : Request) : Dialogue ε r.Reply :=
  ask r done

/-- Notes one event. -/
def event (e : ε) : Dialogue ε Unit :=
  note e (done ())

/-- What came of a dialogue. -/
structure Outcome (ε α σ : Type) where
  /-- The result. -/
  result : α
  /-- The events in order. -/
  events : List ε
  /-- The requests in order. -/
  requests : List Request
  /-- The state of the broker afterwards. -/
  state : σ

/-- Holds a dialogue with a broker. -/
def run (b : Broker σ) : Dialogue ε α → σ → Outcome ε α σ
  | done a, s => ⟨a, [], [], s⟩
  | note e d, s =>
    let o := d.run b s
    { o with events := e :: o.events }
  | ask r next, s =>
    let (reply, s') := b.answer r s
    let o := (next reply).run b s'
    { o with requests := r :: o.requests }

/-- What came of a dialogue, followed by what came of its continuation. -/
def Outcome.andThen (o : Outcome ε α σ) (p : Outcome ε β σ) : Outcome ε β σ :=
  ⟨p.result, o.events ++ p.events, o.requests ++ p.requests, p.state⟩

/-- Holding a dialogue and its continuation is holding one after the other. -/
theorem run_bind (b : Broker σ) (d : Dialogue ε α) (f : α → Dialogue ε β) (s : σ) :
    (d.bind f).run b s = (d.run b s).andThen ((f (d.run b s).result).run b (d.run b s).state) := by
  induction d generalizing s with
  | done a => rfl
  | note e d ih => simp [bind, run, ih, Outcome.andThen]
  | ask r next ih => simp [bind, run, ih, Outcome.andThen]

end Dialogue

end Gatehouse.Broker
