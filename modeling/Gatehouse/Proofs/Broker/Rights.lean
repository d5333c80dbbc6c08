import Gatehouse.Broker.Memory
import Gatehouse.Proofs.Acl.Openings
import Gatehouse.Proofs.Broker.Exchanges

/-!
# Rights of sessions in memory

A session in memory answers what it may access from sets of pairs, and keeps the grants themselves
beside them.  `SessionRecord.Faithful` says that the sets hold exactly the pairs of the grants; it
holds of every session after any requests (`Memory.Faithful.stateAfter`), so access is a question
about the grants alone (`Memory.Faithful.access_iff`).  What one request can come to is said once,
by `Memory.Answers`.  Without faults, submitting grants to a session adds just them
(`Memory.session?_stateAfter_grants`).
-/

namespace Gatehouse.Broker

open Gatehouse.Acl Gatehouse.Access

namespace SessionRecord

/-- The pairs that a session holds in a scope. -/
def pairsIn (r : SessionRecord) (scope : String) : List (String × String) :=
  (Keyed.get? scope r.rights).getD []

/-- The session holds exactly the pairs of its grants. -/
def Faithful (r : SessionRecord) : Prop :=
  ∀ scope pair, pair ∈ r.pairsIn scope ↔ ∃ g ∈ r.grants, g.scope = scope ∧ pair ∈ g.pairs

theorem mem_addPairs {pairs old : List (String × String)} {pair : String × String} :
    pair ∈ addPairs pairs old ↔ pair ∈ old ∨ pair ∈ pairs := by
  unfold addPairs
  induction pairs generalizing old with
  | nil => simp
  | cons p ps ih =>
    rw [List.foldl_cons, ih, List.mem_cons]
    split
    · rename_i hp
      constructor
      · exact Or.imp_right Or.inr
      · rintro (h | rfl | h)
        · exact Or.inl h
        · exact Or.inl hp
        · exact Or.inr h
    · rw [List.mem_append, List.mem_singleton, or_assoc]

theorem pairsIn_addGrant (r : SessionRecord) (g : Grant) (scope : String) :
    (r.addGrant g).pairsIn scope =
      if scope = g.scope then addPairs g.pairs (r.pairsIn scope) else r.pairsIn scope := by
  unfold pairsIn addGrant
  rw [Keyed.get?_alter]
  split
  · rename_i h
    rw [h]
    rfl
  · rfl

theorem faithful_fresh (idle : Duration) : (fresh idle).Faithful := by
  intro scope pair
  simp [fresh, pairsIn]

theorem Faithful.setValue {r : SessionRecord} (h : r.Faithful) (key value : String) :
    (r.setValue key value).Faithful :=
  h

theorem Faithful.addGrant {r : SessionRecord} (h : r.Faithful) (g : Grant) :
    (r.addGrant g).Faithful := by
  intro scope pair
  have hgrants : (∃ g' ∈ (r.addGrant g).grants, g'.scope = scope ∧ pair ∈ g'.pairs) ↔
      (∃ g' ∈ r.grants, g'.scope = scope ∧ pair ∈ g'.pairs) ∨ g.scope = scope ∧ pair ∈ g.pairs := by
    simp [SessionRecord.addGrant, or_and_right, exists_or]
  rw [hgrants, pairsIn_addGrant, ← h scope pair]
  split
  · rename_i heq
    rw [mem_addPairs, heq]
    simp
  · rename_i hne
    have hne' : ¬g.scope = scope := fun h => hne h.symm
    simp [hne']

/-- What a session may access is what its grants cover. -/
theorem Faithful.access_iff {r : SessionRecord} (h : r.Faithful) (scope object function : String) :
    r.access scope object function = true ↔
      ∃ g ∈ r.grants, g.Covers scope object function := by
  change ((r.pairsIn scope).any fun pair =>
    (GroupPattern.mk pair.1).covers object && (GroupPattern.mk pair.2).covers function) = true ↔ _
  rw [List.any_eq_true]
  constructor
  · rintro ⟨⟨o, f⟩, hpair, hcovers⟩
    obtain ⟨g, hg, hscope, hmem⟩ := (h scope (o, f)).1 hpair
    rw [Bool.and_eq_true] at hcovers
    exact ⟨g, hg, hscope, (o, f), hmem, hcovers⟩
  · rintro ⟨g, hg, hscope, ⟨o, f⟩, hmem, hobject, hfunction⟩
    refine ⟨(o, f), (h scope (o, f)).2 ⟨g, hg, hscope, hmem⟩, ?_⟩
    rw [Bool.and_eq_true]
    exact ⟨hobject, hfunction⟩

/-- Adding grants adds just them, in order. -/
theorem grants_foldl_addGrant (r : SessionRecord) (gs : List Grant) :
    (gs.foldl addGrant r).grants = r.grants ++ gs := by
  induction gs generalizing r with
  | nil => rw [List.foldl_nil, List.append_nil]
  | cons g gs ih =>
    rw [List.foldl_cons, ih, addGrant, List.append_assoc]
    rfl

end SessionRecord

namespace Memory

variable (mint : Nat → SessionId) {m : Memory} {sid : SessionId} {r : SessionRecord}

theorem session?_update (m : Memory) (sid other : SessionId) (r : SessionRecord) :
    (m.update sid r).session? other = if other = sid then some r else m.session? other :=
  Keyed.get?_set sid other r m.sessions

/-! ## One request -/

/-- What a broker keeps of a request, whatever it answers: connections are counted, and calls are
logged. -/
def noted (m : Memory) : Request → Memory
  | .connect => { m with connects := m.connects + 1 }
  | .create idle _ => m.log (.create idle)
  | .set sid key value _ => m.log (.set sid key value)
  | .grant sid g _ => m.log (.grant sid g)

@[simp] theorem noted_sessions (m : Memory) (q : Request) : (m.noted q).sessions = m.sessions := by
  cases q <;> rfl

@[simp] theorem noted_faults (m : Memory) (q : Request) : (m.noted q).faults = m.faults := by
  cases q <;> rfl

@[simp] theorem session?_noted (m : Memory) (q : Request) (sid : SessionId) :
    (m.noted q).session? sid = m.session? sid := by
  rw [session?, noted_sessions, session?]

/-- What a request can come to: its answer, and the state after it. -/
inductive Answers (m : Memory) : Exchange → Memory → Prop where
  /-- The request fails, and changes no session. -/
  | refused {q : Request} {e : BrokerError} : Answers m ⟨q, .error e⟩ (m.noted q)
  /-- The broker is connected to. -/
  | connected : Answers m ⟨.connect, .ok ()⟩ (m.noted .connect)
  /-- A session is created. -/
  | created {idle limit : Duration} :
      Answers m ⟨.create idle limit, .ok (mint m.sessions.length)⟩
        ((m.noted (.create idle limit)).update (mint m.sessions.length) (.fresh idle))
  /-- A value is stored on a session that is there. -/
  | stored {sid : SessionId} {key value : String} {limit : Duration} {r : SessionRecord}
      (hs : m.session? sid = some r) :
      Answers m ⟨.set sid key value limit, .ok ()⟩
        ((m.noted (.set sid key value limit)).update sid (r.setValue key value))
  /-- A session that is there gets the rights of a grant. -/
  | granted {sid : SessionId} {g : Grant} {limit : Duration} {r : SessionRecord}
      (hs : m.session? sid = some r) :
      Answers m ⟨.grant sid g limit, .ok ()⟩
        ((m.noted (.grant sid g limit)).update sid (r.addGrant g))

/-- Every request comes to one of these. -/
theorem answers (m : Memory) (q : Request) :
    Answers mint m ⟨q, ((broker mint).answer q m).1⟩ ((broker mint).answer q m).2 := by
  cases q with
  | connect =>
    show Answers mint m ⟨.connect, m.connect.1⟩ m.connect.2
    unfold connect
    split
    · exact .refused
    · exact .connected
  | create idle limit =>
    show Answers mint m ⟨.create idle limit, (m.create (mint m.sessions.length) idle).1⟩
      (m.create (mint m.sessions.length) idle).2
    unfold create
    split
    · exact .refused
    split
    · exact .refused
    · exact .created
  | set sid key value limit =>
    show Answers mint m ⟨.set sid key value limit, (m.set sid key value).1⟩
      (m.set sid key value).2
    unfold set
    split
    · exact .refused
    cases hs : m.session? sid with
    | none => exact .refused
    | some r => exact .stored hs
  | grant sid g limit =>
    show Answers mint m ⟨.grant sid g limit, (m.grant sid g).1⟩ (m.grant sid g).2
    unfold grant
    split
    · exact .refused
    cases hs : m.session? sid with
    | none => exact .refused
    | some r => exact .granted hs

/-! ## Rights -/

/-- Every session holds exactly the pairs of its grants. -/
def Faithful (m : Memory) : Prop :=
  ∀ sid r, m.session? sid = some r → r.Faithful

theorem faithful_fresh : Faithful fresh := by
  intro sid r h
  exact absurd h (by simp [fresh, session?])

theorem Faithful.update (h : m.Faithful) (hr : r.Faithful) (sid : SessionId) :
    (m.update sid r).Faithful := by
  intro other r' hr'
  rw [session?_update] at hr'
  split at hr'
  · obtain rfl := Option.some.inj hr'
    exact hr
  · exact h other r' hr'

variable {mint} in
/-- What a request comes to keeps the rights of every session those of its grants. -/
theorem Faithful.answers {e : Exchange} {m' : Memory} (h : m.Faithful)
    (hanswers : Answers mint m e m') : m'.Faithful := by
  have hnoted : ∀ q, (m.noted q).Faithful := by
    intro q sid r hr
    rw [session?_noted] at hr
    exact h sid r hr
  cases hanswers with
  | refused => exact hnoted _
  | connected => exact hnoted .connect
  | created => exact (hnoted _).update (SessionRecord.faithful_fresh _) _
  | stored hs => exact (hnoted _).update ((h _ _ hs).setValue _ _) _
  | granted hs => exact (hnoted _).update ((h _ _ hs).addGrant _) _

theorem Faithful.answer (h : m.Faithful) (q : Request) :
    ((broker mint).answer q m).2.Faithful :=
  h.answers (Memory.answers mint m q)

theorem Faithful.stateAfter (h : m.Faithful) (qs : List Request) :
    ((broker mint).stateAfter qs m).Faithful := by
  induction qs generalizing m with
  | nil => exact h
  | cons q qs ih => exact ih (h.answer mint q)

/-- Without faults a grant to a session that is there is accepted. -/
theorem answer_grant (hf : m.faults = []) (hs : m.session? sid = some r) (g : Grant)
    (limit : Duration) :
    (broker mint).answer (.grant sid g limit) m =
      (.ok (), (m.log (.grant sid g)).update sid (r.addGrant g)) := by
  change m.grant sid g = _
  unfold grant
  rw [hf, if_neg List.not_mem_nil, hs]

/-- Without faults a session gets the grants that are submitted for it, and no others. -/
theorem session?_stateAfter_grants (hf : m.faults = []) (hs : m.session? sid = some r)
    (limit : Duration) (gs : List Grant) :
    ((broker mint).stateAfter (gs.map (.grant sid · limit)) m).session? sid =
      some (gs.foldl SessionRecord.addGrant r) := by
  induction gs generalizing m r with
  | nil => exact hs
  | cons g gs ih =>
    rw [List.map_cons, stateAfter_cons, answer_grant mint hf hs, List.foldl_cons]
    refine ih (m := (m.log (.grant sid g)).update sid (r.addGrant g)) hf ?_
    rw [session?_update, if_pos rfl]

/-- Without faults every grant to a session that is there succeeds. -/
theorem succeeded_of_mem_exchanges_grants (hf : m.faults = []) (hs : m.session? sid = some r)
    (limit : Duration) (gs : List Grant) :
    ∀ e ∈ exchanges (broker mint) (gs.map (.grant sid · limit)) m, e.succeeded = true := by
  induction gs generalizing m r with
  | nil => exact fun e he => absurd he List.not_mem_nil
  | cons g gs ih =>
    rw [List.map_cons, exchanges_cons, answer_grant mint hf hs, List.forall_mem_cons]
    have hs' : ((m.log (.grant sid g)).update sid (r.addGrant g)).session? sid =
        some (r.addGrant g) := by
      rw [session?_update, if_pos rfl]
    exact ⟨rfl, ih hf hs'⟩

/-- Opening a session on a fresh broker, and storing a value on it, switches no fault on. -/
theorem stateAfter_open (idle limit : Duration) (key value : String) :
    ∃ m', (broker mint).stateAfter
        [.connect, .create idle limit, .set (mint 0) key value limit] fresh = m' ∧
      m'.faults = [] ∧
      m'.session? (mint 0) = some ((SessionRecord.fresh idle).setValue key value) := by
  refine ⟨_, rfl, ?_, ?_⟩
  · simp [broker, fresh, connect, create, set, log, update, session?, Keyed.get?_set]
  · simp [broker, fresh, connect, create, set, log, update, session?, Keyed.get?_set]

/-- A session may access what its grants cover. -/
theorem Faithful.access_iff (h : m.Faithful) (hs : m.session? sid = some r)
    (scope object function : String) :
    m.access sid scope object function = true ↔
      ∃ g ∈ r.grants, g.Covers scope object function := by
  unfold access
  rw [hs]
  exact (h sid r hs).access_iff scope object function

end Memory

end Gatehouse.Broker
