import Gatehouse.Proofs.Broker.History

/-!
# A broker whose faults do not change

As long as its faults stay what they are, a broker in memory answers by them alone, provided it is
only asked about sessions that are there.

* `Request.due` — the answer that the faults demand, and `steady`, the broker that gives it.
* `Orderly` — a conversation in which every request about a session that was created before has
  the answer that is due.  Conversations with a broker in memory are orderly
  (`Memory.orderly_exchanges`), and so are their parts (`Orderly.sublist`).
* `Request.on` — the same request about another session, which is answered alike and does the same
  to the record of that session (`effect_due_on`).
-/

namespace Gatehouse.Broker

open Gatehouse.Acl

/-! ## Answers that are due -/

namespace Request

/-- The answer that faults demand, if the session that is asked about is there.  A session that is
created gets the id `sid`. -/
def due (faults : List FaultSwitch) (sid : SessionId) : (q : Request) → q.Reply
  | .connect =>
    if .unreachable ∈ faults then .error (.unavailable "memory broker is unreachable") else .ok ()
  | .create _ _ =>
    if .create ∈ faults then .error (.call "create" 2)
    else if .noSessionId ∈ faults then .error .noSessionId
    else .ok sid
  | .set _ _ _ _ => if .set ∈ faults then .error (.call "set" 2) else .ok ()
  | .grant _ g _ => if .grant g.scope ∈ faults then .error (.call "grant" 6) else .ok ()

/-- The same request about another session. -/
def on (sid : SessionId) : Request → Request
  | .set _ key value limit => .set sid key value limit
  | .grant _ g limit => .grant sid g limit
  | q => q

variable {faults : List FaultSwitch} {sid s : SessionId}

theorem due_connect : Request.connect.due faults sid =
    if .unreachable ∈ faults then .error (.unavailable "memory broker is unreachable")
    else .ok () := rfl

theorem due_create (idle limit : Duration) : (Request.create idle limit).due faults sid =
    if .create ∈ faults then .error (.call "create" 2)
    else if .noSessionId ∈ faults then .error .noSessionId
    else .ok sid := rfl

theorem due_set (other : SessionId) (key value : String) (limit : Duration) :
    (Request.set other key value limit).due faults sid =
      if .set ∈ faults then .error (.call "set" 2) else .ok () := rfl

theorem due_grant (other : SessionId) (g : Grant) (limit : Duration) :
    (Request.grant other g limit).due faults sid =
      if .grant g.scope ∈ faults then .error (.call "grant" 6) else .ok () := rfl

/-- Whether connecting fails does not depend on the session. -/
theorem due_connect_cases (faults : List FaultSwitch) :
    (∃ e, ∀ sid, Request.connect.due faults sid = .error e) ∨
      ∀ sid, Request.connect.due faults sid = .ok () := by
  by_cases h : FaultSwitch.unreachable ∈ faults
  · exact .inl ⟨_, fun _ => if_pos h⟩
  · exact .inr fun _ => if_neg h

/-- Whether creating a session fails does not depend on its id. -/
theorem due_create_cases (faults : List FaultSwitch) (idle limit : Duration) :
    (∃ e, ∀ sid, (Request.create idle limit).due faults sid = .error e) ∨
      ∀ sid, (Request.create idle limit).due faults sid = .ok sid := by
  by_cases h : FaultSwitch.create ∈ faults
  · exact .inl ⟨_, fun _ => if_pos h⟩
  by_cases h' : FaultSwitch.noSessionId ∈ faults
  · exact .inl ⟨_, fun _ => (if_neg h).trans (if_pos h')⟩
  · exact .inr fun _ => (if_neg h).trans (if_neg h')

/-- Only a session that is created is given an id. -/
theorem due_congr {q : Request} (h : ∀ idle limit, q ≠ .create idle limit) :
    q.due faults sid = q.due faults s := by
  cases q with
  | connect => rfl
  | create idle limit => exact absurd rfl (h idle limit)
  | set _ _ _ _ => rfl
  | grant _ _ _ => rfl

/-- The id of a session that is created is the one that is given. -/
theorem eq_of_due_create {idle limit : Duration}
    (h : (Request.create idle limit).due faults sid = .ok s) : sid = s := by
  rw [due_create] at h
  split at h
  · cases h
  split at h
  · cases h
  · exact Except.ok.inj h

end Request

/-- The broker that gives the answers that are due. -/
def steady (faults : List FaultSwitch) (sid : SessionId) : Broker Unit where
  answer q s := (q.due faults sid, s)

/-- A request with the answer that is due. -/
def dueExchange (faults : List FaultSwitch) (sid : SessionId) (q : Request) : Exchange :=
  ⟨q, q.due faults sid⟩

theorem exchanges_steady (faults : List FaultSwitch) (sid : SessionId) (qs : List Request) :
    exchanges (steady faults sid) qs () = qs.map (dueExchange faults sid) := by
  induction qs with
  | nil => rfl
  | cons q qs ih =>
    rw [exchanges_cons, List.map_cons, ← ih]
    rfl

/-- Where all answers are due, the requests say everything. -/
theorem map_dueExchange {faults : List FaultSwitch} {sid : SessionId} {es : List Exchange}
    (h : ∀ e ∈ es, e.reply = e.request.due faults sid) :
    (es.map Exchange.request).map (dueExchange faults sid) = es := by
  induction es with
  | nil => rfl
  | cons e es ih =>
    have he : dueExchange faults sid e.request = e := by
      rw [dueExchange, ← h e List.mem_cons_self]
    rw [List.map_cons, List.map_cons, he, ih fun e he => h e (List.mem_cons_of_mem _ he)]

/-! ## Orderly conversations -/

/-- After an earlier conversation, an exchange is due: if the session that it is about was created
there, its answer is the one that the faults demand. -/
def DueAfter (faults : List FaultSwitch) (before : List Exchange) (e : Exchange) : Prop :=
  (∀ sid, e.request.session? = some sid → sid ∈ createdIds before) →
    ∃ sid, sid.text ≠ "" ∧ e.reply = e.request.due faults sid

/-- Only where a session is created does the answer that is due depend on an id. -/
theorem DueAfter.reply {faults : List FaultSwitch} {before : List Exchange} {e : Exchange}
    (h : DueAfter faults before e)
    (hcreated : ∀ sid, e.request.session? = some sid → sid ∈ createdIds before)
    (hcreate : ∀ idle limit, e.request ≠ .create idle limit) (sid : SessionId) :
    e.reply = e.request.due faults sid := by
  obtain ⟨s, -, hreply⟩ := h hcreated
  rw [hreply]
  exact Request.due_congr hcreate

/-- Every exchange is due after the ones before it. -/
def Orderly (faults : List FaultSwitch) (es : List Exchange) : Prop :=
  ∀ before e after, es = before ++ e :: after → DueAfter faults before e

/-- What is left when exchanges are taken out of an orderly conversation is orderly: a session that
is created in a part is created in the whole. -/
theorem Orderly.sublist {faults : List FaultSwitch} {es part : List Exchange}
    (h : Orderly faults es) (hpart : part.Sublist es) : Orderly faults part := by
  intro before e after hsplit hcreated
  rw [hsplit, List.append_sublist_iff] at hpart
  obtain ⟨es₁, es₂, hes, hbefore, hrest⟩ := hpart
  obtain ⟨r₁, r₂, hes₂, he, -⟩ := List.cons_sublist_iff.1 hrest
  obtain ⟨b, c, rfl⟩ := List.append_of_mem he
  have hwhole : es = (es₁ ++ b) ++ e :: (c ++ r₂) := by simp [hes, hes₂]
  refine h (es₁ ++ b) e (c ++ r₂) hwhole ?_
  intro sid hsid
  rw [createdIds_append]
  exact List.mem_append_left _ ((hbefore.filterMap _).subset (hcreated sid hsid))

namespace Memory

/-- A broker in memory gives the answer that is due, if the session that it is asked about is
there. -/
theorem answer_eq_due (mint : Nat → SessionId) (m : Memory) (q : Request)
    (h : ∀ sid, q.session? = some sid → sid ∈ m.ids) :
    ((broker mint).answer q m).1 = q.due m.faults (mint m.sessions.length) := by
  cases q with
  | connect =>
    show m.connect.1 = _
    rw [Request.due_connect]
    unfold connect
    split <;> rfl
  | create idle limit =>
    show (m.create (mint m.sessions.length) idle).1 = _
    rw [Request.due_create]
    unfold create
    split
    · rfl
    split <;> rfl
  | set sid key value limit =>
    obtain ⟨r, hr⟩ := mem_ids_iff.1 (h sid rfl)
    show (m.set sid key value).1 = _
    rw [Request.due_set]
    unfold set
    rw [hr]
    split <;> rfl
  | grant sid g limit =>
    obtain ⟨r, hr⟩ := mem_ids_iff.1 (h sid rfl)
    show (m.grant sid g).1 = _
    rw [Request.due_grant]
    unfold grant
    rw [hr]
    split <;> rfl

/-- A conversation with a broker in memory that starts without sessions, and gives no id twice, is
orderly. -/
theorem orderly_exchanges {mint : Nat → SessionId} (hmint : ∀ n, (mint n).text ≠ "") {m : Memory}
    (hm : m.sessions = []) {qs : List Request} {es : List Exchange}
    (hes : exchanges (broker mint) qs m = es) (hnodup : (createdIds es).Nodup) :
    Orderly m.faults es := by
  intro before e after hsplit hcreated
  obtain ⟨qs', rfl, hreply⟩ := exchanges_eq_append_cons (hes.trans hsplit)
  have hbefore : (createdIds (exchanges (broker mint) qs' m)).Nodup := by
    rw [hsplit, createdIds_append] at hnodup
    exact hnodup.sublist (List.sublist_append_left _ _)
  have hrecords : (stateAfter (broker mint) qs' m).Records ([] ++ exchanges (broker mint) qs' m) :=
    (records_nil hm).exchanges qs' hbefore
  refine ⟨_, hmint (stateAfter (broker mint) qs' m).sessions.length, ?_⟩
  rw [hreply, answer_eq_due, faults_stateAfter]
  intro sid hsid
  rw [hrecords.ids]
  exact hcreated sid hsid

end Memory

/-! ## Another session -/

/-- The same call about another session. -/
def Call.on (sid : SessionId) : Call → Call
  | .create idle => .create idle
  | .set _ key value => .set sid key value
  | .grant _ g => .grant sid g

theorem call?_on (sid : SessionId) (q : Request) :
    (q.on sid).call? = q.call?.map (Call.on sid) := by
  cases q <;> rfl

/-- The same request about another session succeeds or fails alike. -/
theorem succeeded_due_on (faults : List FaultSwitch) (sid s : SessionId) (q : Request) :
    (dueExchange faults sid (q.on sid)).succeeded = (dueExchange faults s q).succeeded := by
  cases q with
  | connect => rfl
  | create idle limit =>
    show Request.succeeded ((Request.create idle limit).due faults sid) =
      Request.succeeded ((Request.create idle limit).due faults s)
    rw [Request.due_create, Request.due_create]
    split
    · rfl
    split <;> rfl
  | set other key value limit =>
    show Request.succeeded ((Request.set sid key value limit).due faults sid) =
      Request.succeeded ((Request.set other key value limit).due faults s)
    rw [Request.due_set, Request.due_set]
    split <;> rfl
  | grant other g limit =>
    show Request.succeeded ((Request.grant sid g limit).due faults sid) =
      Request.succeeded ((Request.grant other g limit).due faults s)
    rw [Request.due_grant, Request.due_grant]
    split <;> rfl

/-- An exchange that is not about a session leaves its record alone. -/
theorem effect_of_ne {sid : SessionId} {e : Exchange} (hcreated : e.created? ≠ some sid)
    (habout : e.request.session? ≠ some sid) (r : Option SessionRecord) :
    Exchange.effect sid r e = r := by
  obtain ⟨q, err | v⟩ := e
  · exact Exchange.effect_error
  cases q with
  | connect => rfl
  | create idle limit =>
    have hne : v ≠ sid := fun h => hcreated (congrArg some h)
    simp [Exchange.effect, hne]
  | set s key value limit =>
    have hne : s ≠ sid := fun h => habout (congrArg some h)
    simp [Exchange.effect, hne]
  | grant s g limit =>
    have hne : s ≠ sid := fun h => habout (congrArg some h)
    simp [Exchange.effect, hne]

/-- The same request about another session does the same to the record of that session. -/
theorem effect_due_on (faults : List FaultSwitch) (sid s : SessionId) (q : Request)
    (r : Option SessionRecord) :
    Exchange.effect sid r (dueExchange faults sid (q.on sid)) =
      Exchange.effect s r (dueExchange faults s (q.on s)) := by
  cases q with
  | connect =>
    show Exchange.effect sid r ⟨.connect, Request.connect.due faults sid⟩ =
      Exchange.effect s r ⟨.connect, Request.connect.due faults s⟩
    rw [Request.due_connect, Request.due_connect]
    split <;> rfl
  | create idle limit =>
    show Exchange.effect sid r ⟨.create idle limit, (Request.create idle limit).due faults sid⟩ =
      Exchange.effect s r ⟨.create idle limit, (Request.create idle limit).due faults s⟩
    rw [Request.due_create, Request.due_create]
    split
    · rfl
    split
    · rfl
    · simp [Exchange.effect]
  | set _ key value limit =>
    show Exchange.effect sid r
        ⟨.set sid key value limit, (Request.set sid key value limit).due faults sid⟩ =
      Exchange.effect s r ⟨.set s key value limit, (Request.set s key value limit).due faults s⟩
    rw [Request.due_set, Request.due_set]
    split
    · rfl
    · simp [Exchange.effect]
  | grant _ g limit =>
    show Exchange.effect sid r ⟨.grant sid g limit, (Request.grant sid g limit).due faults sid⟩ =
      Exchange.effect s r ⟨.grant s g limit, (Request.grant s g limit).due faults s⟩
    rw [Request.due_grant, Request.due_grant]
    split
    · rfl
    · simp [Exchange.effect]

end Gatehouse.Broker
