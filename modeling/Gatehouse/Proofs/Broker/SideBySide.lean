import Gatehouse.Proofs.Broker.Exchanges
import Mathlib.Algebra.BigOperators.Group.Finset.Piecewise
import Mathlib.Data.Fintype.Basic
import Mathlib.Data.List.Pairwise
import Mathlib.Logic.Function.Basic

/-!
# Dialogues side by side

Several dialogues are held with one broker.  It answers one request at a time, so that dialogues
that are held at the same time are an order of their requests, and every order is allowed.

* `Dialogue.Hears` — what a dialogue has heard so far, and what is left of it.  A dialogue that has
  heard all that some broker would say comes to the same result with that broker
  (`Dialogue.Hears.run`).
* `Crowd` — the dialogues, what was said, and the broker.  A schedule says whose turn it is;
  `Crowd.Proper` holds after every schedule: the broker answers one long conversation, and each
  dialogue hears its own part of it.
* `Crowd.exists_over` — every schedule can be continued until all dialogues are over.
-/

namespace Gatehouse.Broker

variable {ε α σ ι : Type}

/-! ## What a dialogue hears -/

namespace Dialogue

/-- With these exchanges the first dialogue comes to the point where the second one is left. -/
inductive Hears : Dialogue ε α → List Exchange → Dialogue ε α → Prop where
  /-- Nothing is heard. -/
  | rest {d : Dialogue ε α} : Hears d [] d
  /-- An event is noted. -/
  | note {e : ε} {d d' : Dialogue ε α} {es : List Exchange} (h : Hears d es d') :
      Hears (.note e d) es d'
  /-- A request is answered. -/
  | ask {q : Request} {next : q.Reply → Dialogue ε α} {reply : q.Reply} {d' : Dialogue ε α}
      {es : List Exchange} (h : Hears (next reply) es d') :
      Hears (.ask q next) (⟨q, reply⟩ :: es) d'

/-- The result of a dialogue that is over. -/
def result? : Dialogue ε α → Option α
  | .done a => some a
  | _ => none

variable {d d' d'' : Dialogue ε α} {es es' : List Exchange}

theorem result?_eq_some_iff {a : α} : d.result? = some a ↔ d = .done a := by
  cases d with
  | done b => simp [result?]
  | note e d => simp [result?]
  | ask q next => simp [result?]

theorem Hears.trans (h : Hears d es d') (h' : Hears d' es' d'') : Hears d (es ++ es') d'' := by
  induction h with
  | rest => exact h'
  | note _ ih => exact .note (ih h')
  | ask _ ih => exact .ask (ih h')

/-- A dialogue hears the answers of the broker that it is held with. -/
theorem hears_run (b : Broker σ) (d : Dialogue ε α) (s : σ) :
    Hears d (exchanges b (d.run b s).requests s) (done (d.run b s).result) := by
  induction d generalizing s with
  | done a => exact .rest
  | note e d ih => exact .note (ih s)
  | ask q next ih => exact .ask (ih (b.answer q s).1 (b.answer q s).2)

/-- If a broker says what a dialogue has heard, then holding the dialogue with that broker comes to
the same. -/
theorem Hears.run {b : Broker σ} {a : α} {s : σ} (h : Hears d es (done a))
    (hes : exchanges b (es.map Exchange.request) s = es) :
    (d.run b s).result = a ∧ (d.run b s).requests = es.map Exchange.request := by
  generalize hd : (done a : Dialogue ε α) = d' at h
  induction h generalizing s with
  | rest =>
    subst hd
    exact ⟨rfl, rfl⟩
  | note _ ih => exact ih hes hd
  | @ask q next reply d' es _ ih =>
    rw [List.map_cons, exchanges_cons, List.cons.injEq, Exchange.mk.injEq] at hes
    obtain ⟨⟨-, hreply⟩, hrest⟩ := hes
    have hreply' : reply = (b.answer q s).1 := (eq_of_heq hreply).symm
    subst hreply'
    obtain ⟨hresult, hrequests⟩ := ih hrest hd
    refine ⟨hresult, ?_⟩
    rw [requests_run_ask, hrequests, List.map_cons]

end Dialogue

/-- The broker that says what stands in a list, as long as it is asked just that. -/
def recital : Broker (List Exchange) where
  answer q
    | [] => (.error .noSessionId, [])
    | e :: es => if h : e.request = q then (h ▸ e.reply, es) else (.error .noSessionId, es)

theorem exchanges_recital (es : List Exchange) :
    exchanges recital (es.map Exchange.request) es = es := by
  induction es with
  | nil => rfl
  | cons e es ih =>
    have hanswer : recital.answer e.request (e :: es) = (e.reply, es) := dif_pos rfl
    rw [List.map_cons, exchanges_cons, hanswer, ih]

/-! ## Several dialogues -/

/-- Dialogues with one broker. -/
structure Crowd (ι ε α σ : Type) where
  /-- What is left of each dialogue. -/
  rest : ι → Dialogue ε α
  /-- The exchanges so far, each with the dialogue that it belongs to. -/
  heard : List (ι × Exchange)
  /-- The state of the broker. -/
  state : σ

namespace Crowd

/-- Nobody has said anything yet. -/
def gather (ds : ι → Dialogue ε α) (s : σ) : Crowd ι ε α σ :=
  ⟨ds, [], s⟩

/-- All dialogues are over, with these results. -/
def Over (k : Crowd ι ε α σ) (results : ι → α) : Prop :=
  ∀ i, (k.rest i).result? = some (results i)

/-- All exchanges, in order. -/
def conversation (k : Crowd ι ε α σ) : List Exchange :=
  k.heard.map Prod.snd

variable [DecidableEq ι]

/-- The exchanges of one dialogue. -/
def heardBy (k : Crowd ι ε α σ) (i : ι) : List Exchange :=
  (k.heard.filter (·.1 = i)).map Prod.snd

/-- A dialogue goes on as `d`. -/
def goOn (k : Crowd ι ε α σ) (i : ι) (d : Dialogue ε α) : Crowd ι ε α σ :=
  { k with rest := Function.update k.rest i d }

/-- A dialogue has an exchange with the broker, which is in the state `s` after it. -/
def hear (k : Crowd ι ε α σ) (i : ι) (e : Exchange) (s : σ) : Crowd ι ε α σ :=
  { k with heard := k.heard ++ [(i, e)], state := s }

/-- It is the turn of a dialogue: it notes an event or makes one request, unless it is over. -/
def turn (b : Broker σ) (k : Crowd ι ε α σ) (i : ι) : Crowd ι ε α σ :=
  match k.rest i with
  | .done _ => k
  | .note _ d => k.goOn i d
  | .ask q next =>
    let (reply, s) := b.answer q k.state
    (k.hear i ⟨q, reply⟩ s).goOn i (next reply)

/-- The dialogues take turns. -/
def turns (b : Broker σ) (schedule : List ι) (k : Crowd ι ε α σ) : Crowd ι ε α σ :=
  schedule.foldl (turn b) k

section Laws

variable {b : Broker σ} (k : Crowd ι ε α σ) (i : ι)

theorem turns_cons (schedule : List ι) :
    turns b (i :: schedule) k = turns b schedule (turn b k i) := rfl

theorem turns_append (schedule more : List ι) :
    turns b (schedule ++ more) k = turns b more (turns b schedule k) :=
  List.foldl_append

@[simp] theorem rest_goOn_self (d : Dialogue ε α) : (k.goOn i d).rest i = d := by
  show Function.update k.rest i d i = d
  rw [Function.update_self]

theorem rest_goOn_of_ne {i j : ι} (h : j ≠ i) (d : Dialogue ε α) :
    (k.goOn i d).rest j = k.rest j := by
  show Function.update k.rest i d j = k.rest j
  rw [Function.update_of_ne h]

@[simp] theorem conversation_goOn (d : Dialogue ε α) :
    (k.goOn i d).conversation = k.conversation := rfl

@[simp] theorem heardBy_goOn (d : Dialogue ε α) (j : ι) :
    (k.goOn i d).heardBy j = k.heardBy j := rfl

omit [DecidableEq ι] in
theorem conversation_hear (e : Exchange) (s : σ) :
    (k.hear i e s).conversation = k.conversation ++ [e] :=
  List.map_append

theorem heardBy_hear (e : Exchange) (s : σ) (j : ι) :
    (k.hear i e s).heardBy j = if i = j then k.heardBy j ++ [e] else k.heardBy j := by
  unfold heardBy hear
  rw [List.filter_append, List.map_append]
  by_cases h : i = j
  · simp [h]
  · simp [h]

theorem mem_heardBy {e : Exchange} : e ∈ k.heardBy i ↔ (i, e) ∈ k.heard := by
  simp [heardBy]

theorem heardBy_sublist : (k.heardBy i).Sublist k.conversation :=
  List.filter_sublist.map Prod.snd

/-- What is left of the others does not change in a turn. -/
theorem rest_turn_of_ne {i j : ι} (h : j ≠ i) : (turn b k i).rest j = k.rest j := by
  unfold turn
  cases k.rest i with
  | done a => rfl
  | note e d => exact rest_goOn_of_ne k h d
  | ask q next => exact rest_goOn_of_ne _ h _

end Laws

/-! ## Every schedule -/

variable {b : Broker σ} {k : Crowd ι ε α σ} {ds : ι → Dialogue ε α} {s : σ} {i : ι}

/-- What holds of dialogues that are held with a broker side by side. -/
structure Proper (b : Broker σ) (ds : ι → Dialogue ε α) (s : σ) (k : Crowd ι ε α σ) : Prop where
  /-- The broker answers one conversation. -/
  conversation : exchanges b (k.conversation.map Exchange.request) s = k.conversation
  /-- It is in the state that the conversation leads to. -/
  state : stateAfter b (k.conversation.map Exchange.request) s = k.state
  /-- Each dialogue has heard its own part. -/
  hears : ∀ i, (ds i).Hears (k.heardBy i) (k.rest i)

theorem proper_gather : (gather ds s).Proper b ds s where
  conversation := rfl
  state := rfl
  hears _ := .rest

/-- Noting an event only changes what is left of a dialogue. -/
theorem Proper.note {e : ε} {d : Dialogue ε α} (h : k.Proper b ds s)
    (hrest : k.rest i = .note e d) : (k.goOn i d).Proper b ds s where
  conversation := h.conversation
  state := h.state
  hears j := by
    rw [heardBy_goOn]
    by_cases hj : j = i
    · subst hj
      have hnote : (k.rest j).Hears [] d := by
        rw [hrest]
        exact .note .rest
      rw [rest_goOn_self, ← List.append_nil (k.heardBy j)]
      exact (h.hears j).trans hnote
    · rw [rest_goOn_of_ne k hj]
      exact h.hears j

/-- A request adds one exchange to the conversation, and only the dialogue that made it hears the
answer. -/
theorem Proper.ask {q : Request} {next : q.Reply → Dialogue ε α} (h : k.Proper b ds s)
    (hrest : k.rest i = .ask q next) :
    ((k.hear i ⟨q, (b.answer q k.state).1⟩ (b.answer q k.state).2).goOn i
      (next (b.answer q k.state).1)).Proper b ds s where
  conversation := by
    rw [conversation_goOn, conversation_hear, List.map_append, exchanges_append, h.conversation,
      h.state]
    rfl
  state := by
    rw [conversation_goOn, conversation_hear, List.map_append, stateAfter_append, h.state]
    rfl
  hears j := by
    rw [heardBy_goOn, heardBy_hear]
    by_cases hj : j = i
    · subst hj
      have hask : (k.rest j).Hears [⟨q, (b.answer q k.state).1⟩] (next (b.answer q k.state).1) := by
        rw [hrest]
        exact .ask .rest
      rw [rest_goOn_self, if_pos rfl]
      exact (h.hears j).trans hask
    · rw [rest_goOn_of_ne _ hj, if_neg (Ne.symm hj)]
      exact h.hears j

theorem Proper.turn (h : k.Proper b ds s) (i : ι) : (k.turn b i).Proper b ds s := by
  unfold Crowd.turn
  cases hrest : k.rest i with
  | done a => exact h
  | note e d => exact h.note hrest
  | ask q next => exact h.ask hrest

/-- All stays proper, whatever the schedule. -/
theorem Proper.turns (h : k.Proper b ds s) (schedule : List ι) :
    (k.turns b schedule).Proper b ds s := by
  induction schedule generalizing k with
  | nil => exact h
  | cons i schedule ih => exact ih (h.turn i)

/-- A dialogue that is over has heard its own part of the conversation. -/
theorem Proper.hears_done {results : ι → α} (h : k.Proper b ds s) (hover : k.Over results) (i : ι) :
    (ds i).Hears (k.heardBy i) (.done (results i)) := by
  rw [← Dialogue.result?_eq_some_iff.1 (hover i)]
  exact h.hears i

/-! ## Coming to an end -/

/-- A dialogue is over after so many turns, and the others are left alone. -/
theorem exists_replicate_done (b : Broker σ) (d : Dialogue ε α) (k : Crowd ι ε α σ) (i : ι)
    (h : k.rest i = d) :
    ∃ n a, (k.turns b (List.replicate n i)).rest i = .done a ∧
      ∀ j, j ≠ i → (k.turns b (List.replicate n i)).rest j = k.rest j := by
  induction d generalizing k with
  | done a => exact ⟨0, a, h, fun _ _ => rfl⟩
  | note e d ih =>
    have hturn : (k.turn b i).rest i = d := by
      simp [turn, h]
    obtain ⟨n, a, hdone, hothers⟩ := ih _ hturn
    refine ⟨n + 1, a, hdone, ?_⟩
    intro j hj
    rw [List.replicate_succ, turns_cons, hothers j hj, rest_turn_of_ne k hj]
  | ask q next ih =>
    have hturn : (k.turn b i).rest i = next (b.answer q k.state).1 := by
      simp [turn, h]
    obtain ⟨n, a, hdone, hothers⟩ := ih _ _ hturn
    refine ⟨n + 1, a, hdone, ?_⟩
    intro j hj
    rw [List.replicate_succ, turns_cons, hothers j hj, rest_turn_of_ne k hj]

/-- Some of the dialogues can be brought to their end, one after the other. -/
theorem exists_turns_done (b : Broker σ) (k : Crowd ι ε α σ) (l : List ι) :
    ∃ more, ∀ i ∈ l, ∃ a, (k.turns b more).rest i = .done a := by
  induction l with
  | nil => exact ⟨[], fun i hi => absurd hi List.not_mem_nil⟩
  | cons i l ih =>
    obtain ⟨more, hmore⟩ := ih
    obtain ⟨n, a, hdone, hothers⟩ := exists_replicate_done b _ (k.turns b more) i rfl
    refine ⟨more ++ List.replicate n i, ?_⟩
    intro j hj
    rw [turns_append]
    by_cases hji : j = i
    · exact ⟨a, hji ▸ hdone⟩
    · obtain ⟨a', ha'⟩ := hmore j ((List.mem_cons.1 hj).resolve_left hji)
      exact ⟨a', (hothers j hji).trans ha'⟩

/-- Every schedule can be continued until all dialogues are over. -/
theorem exists_over [Fintype ι] (b : Broker σ) (k : Crowd ι ε α σ) (schedule : List ι) :
    ∃ more results, (k.turns b (schedule ++ more)).Over results := by
  obtain ⟨more, hmore⟩ := exists_turns_done b (k.turns b schedule) (Finset.univ : Finset ι).toList
  choose results hresults using fun i => hmore i (Finset.mem_toList.2 (Finset.mem_univ i))
  refine ⟨more, results, ?_⟩
  intro i
  rw [turns_append, Dialogue.result?_eq_some_iff]
  exact hresults i

/-! ## The parts of a conversation -/

omit [DecidableEq ι] in
theorem filterMap_conversation {β : Type} (k : Crowd ι ε α σ) (f : Exchange → Option β) :
    k.conversation.filterMap f = k.heard.filterMap fun e => f e.2 :=
  List.filterMap_map

theorem mem_conversation {e : Exchange} : e ∈ k.conversation ↔ ∃ i, e ∈ k.heardBy i := by
  simp [conversation, mem_heardBy]

/-- What comes only once in a conversation comes in only one of its parts. -/
theorem eq_of_mem_heardBy {β : Type} {f : Exchange → Option β}
    (hnodup : (k.conversation.filterMap f).Nodup) {i j : ι} {e e' : Exchange} {x : β}
    (hi : e ∈ k.heardBy i) (hj : e' ∈ k.heardBy j) (hx : f e = some x) (hx' : f e' = some x) :
    i = j := by
  rw [mem_heardBy] at hi hj
  rw [filterMap_conversation, List.Nodup, List.pairwise_filterMap] at hnodup
  have hsymm : Std.Symm fun d d' : ι × Exchange =>
      ∀ y, f d.2 = some y → ∀ y', f d'.2 = some y' → y ≠ y' :=
    ⟨fun d d' h y hy y' hy' => (h y' hy' y hy).symm⟩
  by_contra hne
  have hdistinct : (i, e) ≠ (j, e') := fun h => hne (congrArg Prod.fst h)
  exact hnodup.forall hi hj hdistinct x hx x hx' rfl

/-- What is counted in a conversation is counted in its parts. -/
theorem countP_conversation [Fintype ι] (k : Crowd ι ε α σ) (p : Exchange → Bool) :
    k.conversation.countP p = ∑ i, (k.heardBy i).countP p := by
  unfold conversation heardBy
  induction k.heard with
  | nil => simp
  | cons e l ih =>
    have hpart : ∀ i, (((e :: l).filter (·.1 = i)).map Prod.snd).countP p =
        ((l.filter (·.1 = i)).map Prod.snd).countP p + if e.1 = i ∧ p e.2 then 1 else 0 := by
      intro i
      by_cases hi : e.1 = i
      · simp [hi, List.countP_cons]
      · simp [hi]
    rw [List.map_cons, List.countP_cons, ih, Finset.sum_congr rfl fun i _ => hpart i,
      Finset.sum_add_distrib]
    congr 1
    by_cases hp : p e.2
    · simp [hp, Finset.sum_ite_eq]
    · simp [hp]

/-- What follows a conversation can be found in one of its parts, if the others have no effect. -/
theorem foldl_conversation {β : Type} (k : Crowd ι ε α σ) (i : ι) (f : β → Exchange → β) (x : β)
    (h : ∀ j e, j ≠ i → e ∈ k.heardBy j → ∀ y, f y e = y) :
    k.conversation.foldl f x = (k.heardBy i).foldl f x := by
  simp only [mem_heardBy] at h
  unfold conversation heardBy
  generalize k.heard = heard at h ⊢
  induction heard generalizing x with
  | nil => rfl
  | cons e l ih =>
    obtain ⟨j, e⟩ := e
    have hl : ∀ j e, j ≠ i → (j, e) ∈ l → ∀ y, f y e = y :=
      fun j e hj he => h j e hj (List.mem_cons_of_mem _ he)
    rw [List.map_cons, List.foldl_cons, ih _ hl]
    by_cases hj : j = i
    · rw [List.filter_cons_of_pos (by simpa using hj), List.map_cons, List.foldl_cons]
    · rw [List.filter_cons_of_neg (by simpa using hj), h j e hj List.mem_cons_self]

end Crowd

end Gatehouse.Broker
