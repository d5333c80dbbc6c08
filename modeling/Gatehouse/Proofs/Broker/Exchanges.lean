import Gatehouse.Broker.Dialogue
import Mathlib.Data.List.Basic

/-!
# Requests and their answers

What a dialogue leaves behind are its requests; what a broker made of them is found by asking the
broker the same requests again.  `exchanges` pairs each request with its answer, `stateAfter` is
the state that the broker is left in, and both follow the list of requests, so a long conversation
is taken apart where its requests are (`exchanges_append`, `stateAfter_append`).  `run_state` says
that holding a dialogue does nothing to a broker but make the requests.
-/

namespace Gatehouse.Broker

/-- A request with its answer. -/
structure Exchange where
  /-- The request. -/
  request : Request
  /-- The answer. -/
  reply : request.Reply

/-- Whether the request succeeded. -/
def Exchange.succeeded (e : Exchange) : Bool :=
  Request.succeeded e.reply

variable {ε α β σ : Type}

/-- What a broker answers to requests that are made one after the other. -/
def exchanges (b : Broker σ) : List Request → σ → List Exchange
  | [], _ => []
  | r :: rs, s => ⟨r, (b.answer r s).1⟩ :: exchanges b rs (b.answer r s).2

/-- The state of a broker after requests that are made one after the other. -/
def stateAfter (b : Broker σ) : List Request → σ → σ
  | [], s => s
  | r :: rs, s => stateAfter b rs (b.answer r s).2

@[simp] theorem exchanges_nil (b : Broker σ) (s : σ) : exchanges b [] s = [] := rfl

@[simp] theorem exchanges_cons (b : Broker σ) (r : Request) (rs : List Request) (s : σ) :
    exchanges b (r :: rs) s = ⟨r, (b.answer r s).1⟩ :: exchanges b rs (b.answer r s).2 := rfl

@[simp] theorem stateAfter_nil (b : Broker σ) (s : σ) : stateAfter b [] s = s := rfl

@[simp] theorem stateAfter_cons (b : Broker σ) (r : Request) (rs : List Request) (s : σ) :
    stateAfter b (r :: rs) s = stateAfter b rs (b.answer r s).2 := rfl

theorem stateAfter_append (b : Broker σ) (rs rs' : List Request) (s : σ) :
    stateAfter b (rs ++ rs') s = stateAfter b rs' (stateAfter b rs s) := by
  induction rs generalizing s with
  | nil => rfl
  | cons r rs ih => exact ih _

/-- The later requests of a conversation are answered from the state that the earlier ones left. -/
theorem exchanges_append (b : Broker σ) (rs rs' : List Request) (s : σ) :
    exchanges b (rs ++ rs') s = exchanges b rs s ++ exchanges b rs' (stateAfter b rs s) := by
  induction rs generalizing s with
  | nil => rfl
  | cons r rs ih => rw [List.cons_append, exchanges_cons, exchanges_cons, ih]; rfl

/-- In a conversation every request is answered from the state that the ones before it left. -/
theorem exchanges_eq_append_cons {b : Broker σ} {qs : List Request} {s : σ}
    {before after : List Exchange} {e : Exchange}
    (h : exchanges b qs s = before ++ e :: after) :
    ∃ qs', before = exchanges b qs' s ∧ e.reply = (b.answer e.request (stateAfter b qs' s)).1 := by
  induction before generalizing qs s with
  | nil =>
    cases qs with
    | nil => cases h
    | cons q qs =>
      obtain ⟨rfl, -⟩ := List.cons.inj h
      exact ⟨[], rfl, rfl⟩
  | cons d before ih =>
    cases qs with
    | nil => cases h
    | cons q qs =>
      obtain ⟨rfl, hrest⟩ := List.cons.inj h
      obtain ⟨qs', rfl, hreply⟩ := ih hrest
      exact ⟨q :: qs', rfl, hreply⟩

/-- Every request gets one answer, in order. -/
@[simp] theorem map_request_exchanges (b : Broker σ) (rs : List Request) (s : σ) :
    (exchanges b rs s).map Exchange.request = rs := by
  induction rs generalizing s with
  | nil => rfl
  | cons r rs ih => rw [exchanges_cons, List.map_cons, ih]

namespace Dialogue

@[simp] theorem run_done (b : Broker σ) (a : α) (s : σ) :
    (done a : Dialogue ε α).run b s = ⟨a, [], [], s⟩ := rfl

@[simp] theorem requests_run_note (b : Broker σ) (e : ε) (d : Dialogue ε α) (s : σ) :
    ((note e d).run b s).requests = (d.run b s).requests := rfl

@[simp] theorem result_run_note (b : Broker σ) (e : ε) (d : Dialogue ε α) (s : σ) :
    ((note e d).run b s).result = (d.run b s).result := rfl

@[simp] theorem requests_run_ask (b : Broker σ) (r : Request) (next : r.Reply → Dialogue ε α)
    (s : σ) :
    ((ask r next).run b s).requests =
      r :: ((next (b.answer r s).1).run b (b.answer r s).2).requests := rfl

@[simp] theorem result_run_ask (b : Broker σ) (r : Request) (next : r.Reply → Dialogue ε α)
    (s : σ) :
    ((ask r next).run b s).result =
      ((next (b.answer r s).1).run b (b.answer r s).2).result := rfl

/-- A dialogue leaves the broker in the state that its requests lead to. -/
theorem run_state (b : Broker σ) (d : Dialogue ε α) (s : σ) :
    (d.run b s).state = stateAfter b (d.run b s).requests s := by
  induction d generalizing s with
  | done a => rfl
  | note e d ih => exact ih s
  | ask r next ih => exact ih _ _

theorem requests_run_bind (b : Broker σ) (d : Dialogue ε α) (f : α → Dialogue ε β) (s : σ) :
    ((d >>= f).run b s).requests =
      (d.run b s).requests ++
        ((f (d.run b s).result).run b (stateAfter b (d.run b s).requests s)).requests := by
  rw [← run_state, show d >>= f = d.bind f from rfl, run_bind]
  rfl

theorem result_run_bind (b : Broker σ) (d : Dialogue ε α) (f : α → Dialogue ε β) (s : σ) :
    ((d >>= f).run b s).result =
      ((f (d.run b s).result).run b (stateAfter b (d.run b s).requests s)).result := by
  rw [← run_state, show d >>= f = d.bind f from rfl, run_bind]
  rfl

@[simp] theorem requests_run_map (b : Broker σ) (f : α → β) (d : Dialogue ε α) (s : σ) :
    ((f <$> d).run b s).requests = (d.run b s).requests := by
  rw [show f <$> d = d >>= (fun a => done (f a)) from rfl, requests_run_bind, run_done,
    List.append_nil]

@[simp] theorem result_run_map (b : Broker σ) (f : α → β) (d : Dialogue ε α) (s : σ) :
    ((f <$> d).run b s).result = f (d.run b s).result := by
  rw [show f <$> d = d >>= (fun a => done (f a)) from rfl, result_run_bind, run_done]

end Dialogue

end Gatehouse.Broker
