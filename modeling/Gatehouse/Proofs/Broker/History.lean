import Gatehouse.Proofs.Broker.Rights
import Mathlib.Data.List.Count

/-!
# The history of a broker in memory

A broker in memory has no state beyond its history.  The history is the list of the exchanges it
took part in, while faults were switched on at any time.

* `createdIds`, `grantsTo`, `lastValue` — what a history says of sessions: only exchanges that
  succeeded count.
* `Memory.Answers.ids`, `Memory.Answers.grants`, `Memory.Answers.value` — what one request adds.
* `Memory.Records` — the state is what the history says, and `Memory.Records.play` keeps it along
  every run that names no two sessions alike.
* `memory_eq_history` — the state, the log, the errors and the rights after any run.
-/

namespace Gatehouse.Broker

open Gatehouse.Acl Gatehouse.Access

/-! ## What a history says -/

/-- The call by which a request is logged.  Connecting is not logged. -/
def Request.call? : Request → Option Call
  | .connect => none
  | .create idle _ => some (.create idle)
  | .set sid key value _ => some (.set sid key value)
  | .grant sid g _ => some (.grant sid g)

/-- The session that is asked about. -/
def Request.session? : Request → Option SessionId
  | .set sid _ _ _ => some sid
  | .grant sid _ _ => some sid
  | _ => none

/-- One of the faults is meant for the request. -/
def Request.Hit (faults : List FaultSwitch) : Request → Prop
  | .connect => .unreachable ∈ faults
  | .create _ _ => .create ∈ faults ∨ .noSessionId ∈ faults
  | .set _ _ _ _ => .set ∈ faults
  | .grant _ g _ => .grant g.scope ∈ faults

namespace Exchange

/-- The session that was created. -/
def created? : Exchange → Option SessionId
  | ⟨.create _ _, .ok sid⟩ => some sid
  | _ => none

/-- The grant that a session was given. -/
def grantTo? (sid : SessionId) : Exchange → Option Grant
  | ⟨.grant s g _, .ok _⟩ => if s = sid then some g else none
  | _ => none

/-- What an exchange makes of the record of a session. -/
def effect (sid : SessionId) (r : Option SessionRecord) : Exchange → Option SessionRecord
  | ⟨.create idle _, .ok s⟩ => if s = sid then some (.fresh idle) else r
  | ⟨.set s key value _, .ok _⟩ => if s = sid then r.map (·.setValue key value) else r
  | ⟨.grant s g _, .ok _⟩ => if s = sid then r.map (·.addGrant g) else r
  | _ => r

/-- The value that was stored on a session under a key. -/
def valueOn? (sid : SessionId) (key : String) : Exchange → Option String
  | ⟨.set s k v _, .ok _⟩ => if s = sid ∧ k = key then some v else none
  | _ => none

variable {q : Request} {e : BrokerError} {sid : SessionId} {key : String}

@[simp] theorem created?_error : created? ⟨q, .error e⟩ = none := by
  cases q <;> rfl

@[simp] theorem grantTo?_error : grantTo? sid ⟨q, .error e⟩ = none := by
  cases q <;> rfl

@[simp] theorem effect_error {r : Option SessionRecord} : effect sid r ⟨q, .error e⟩ = r := by
  cases q <;> rfl

@[simp] theorem valueOn?_error : valueOn? sid key ⟨q, .error e⟩ = none := by
  cases q <;> rfl

end Exchange

/-- The sessions that were created, in order. -/
def createdIds (es : List Exchange) : List SessionId :=
  es.filterMap Exchange.created?

/-- The grants that a session was given, in order. -/
def grantsTo (sid : SessionId) (es : List Exchange) : List Grant :=
  es.filterMap (Exchange.grantTo? sid)

/-- The value that was stored last on a session under a key. -/
def lastValue (sid : SessionId) (key : String) (es : List Exchange) : Option String :=
  (es.filterMap (Exchange.valueOn? sid key)).getLast?

theorem createdIds_append (es es' : List Exchange) :
    createdIds (es ++ es') = createdIds es ++ createdIds es' :=
  List.filterMap_append

theorem createdIds_singleton (e : Exchange) : createdIds [e] = e.created?.toList := by
  rw [createdIds, List.filterMap_eq_flatMap_toList, List.flatMap_singleton]

theorem grantsTo_append (sid : SessionId) (es es' : List Exchange) :
    grantsTo sid (es ++ es') = grantsTo sid es ++ grantsTo sid es' :=
  List.filterMap_append

theorem grantsTo_singleton (sid : SessionId) (e : Exchange) :
    grantsTo sid [e] = (e.grantTo? sid).toList := by
  rw [grantsTo, List.filterMap_eq_flatMap_toList, List.flatMap_singleton]

theorem lastValue_concat (sid : SessionId) (key : String) (es : List Exchange) (e : Exchange) :
    lastValue sid key (es ++ [e]) = (e.valueOn? sid key).or (lastValue sid key es) := by
  unfold lastValue
  rw [List.filterMap_append]
  cases h : e.valueOn? sid key with
  | none => rw [List.filterMap_cons_none h, List.filterMap_nil, List.append_nil, Option.none_or]
  | some v =>
    rw [List.filterMap_cons_some h, List.filterMap_nil, List.getLast?_concat, Option.some_or]

namespace Memory

variable {mint : Nat → SessionId} {m m' : Memory} {e : Exchange} {es : List Exchange}

/-! ## Queries -/

/-- The ids of the sessions, in the order of their creation. -/
def ids (m : Memory) : List SessionId :=
  m.sessions.map Prod.fst

theorem mem_ids_iff {sid : SessionId} : sid ∈ m.ids ↔ ∃ r, m.session? sid = some r := by
  rw [← Option.isSome_iff_exists]
  exact Keyed.isSome_get?_iff.symm

theorem session?_of_notMem {sid : SessionId} (h : sid ∉ m.ids) : m.session? sid = none := by
  rw [Option.eq_none_iff_forall_ne_some]
  intro r hr
  exact h (mem_ids_iff.2 ⟨r, hr⟩)

theorem grants_of_session? {sid : SessionId} {r : SessionRecord} (hs : m.session? sid = some r) :
    m.grants sid = r.grants := by
  rw [grants, hs, Option.map_some, Option.getD_some]

theorem grants_of_notMem {sid : SessionId} (h : sid ∉ m.ids) : m.grants sid = [] := by
  rw [grants, session?_of_notMem h, Option.map_none, Option.getD_none]

theorem value_of_session? {sid : SessionId} {r : SessionRecord} (hs : m.session? sid = some r)
    (key : String) : m.value sid key = Keyed.get? key r.values := by
  rw [value, hs, Option.bind_some]

theorem value_of_notMem {sid : SessionId} (h : sid ∉ m.ids) (key : String) :
    m.value sid key = none := by
  rw [value, session?_of_notMem h, Option.bind_none]

/-- What a broker answers about its sessions depends on nothing else. -/
theorem queries_congr (h : m'.sessions = m.sessions) (sid : SessionId) :
    m'.grants sid = m.grants sid ∧
      (∀ key, m'.value sid key = m.value sid key) ∧
      ∀ scope object function,
        m'.access sid scope object function = m.access sid scope object function := by
  have hsession : m'.session? sid = m.session? sid := by
    rw [session?, h, session?]
  refine ⟨?_, ?_, ?_⟩
  · rw [grants, hsession, grants]
  · intro key
    rw [value, hsession, value]
  · intro scope object function
    rw [access, hsession, access]

theorem ids_update (m : Memory) (sid : SessionId) (r : SessionRecord) :
    (m.update sid r).ids = if sid ∈ m.ids then m.ids else m.ids ++ [sid] :=
  Keyed.keys_alter sid _ m.sessions

theorem grants_update (m : Memory) (sid other : SessionId) (r : SessionRecord) :
    (m.update sid r).grants other = if other = sid then r.grants else m.grants other := by
  unfold grants
  rw [session?_update]
  split <;> rfl

theorem value_update (m : Memory) (sid other : SessionId) (r : SessionRecord) (key : String) :
    (m.update sid r).value other key =
      if other = sid then Keyed.get? key r.values else m.value other key := by
  unfold value
  rw [session?_update]
  split <;> rfl

@[simp] theorem ids_noted (m : Memory) (q : Request) : (m.noted q).ids = m.ids := by
  rw [ids, noted_sessions, ids]

@[simp] theorem grants_noted (m : Memory) (q : Request) (sid : SessionId) :
    (m.noted q).grants sid = m.grants sid := by
  rw [grants, session?_noted, grants]

@[simp] theorem value_noted (m : Memory) (q : Request) (sid : SessionId) (key : String) :
    (m.noted q).value sid key = m.value sid key := by
  rw [value, session?_noted, value]

theorem calls_noted (m : Memory) (q : Request) :
    (m.noted q).calls = m.calls ++ q.call?.toList := by
  cases q with
  | connect => exact (List.append_nil _).symm
  | create idle limit => rfl
  | set sid key value limit => rfl
  | grant sid g limit => rfl

theorem connects_noted (m : Memory) (q : Request) :
    (m.noted q).connects = m.connects + if q = .connect then 1 else 0 := by
  cases q <;> rfl

/-! ## One request -/

/-- Whatever comes of a request, it is logged, and so are connections. -/
theorem Answers.log (h : Answers mint m e m') :
    m'.calls = m.calls ++ e.request.call?.toList ∧
      m'.connects = m.connects + if e.request = .connect then 1 else 0 := by
  cases h with
  | refused => exact ⟨calls_noted m _, connects_noted m _⟩
  | connected => exact ⟨calls_noted m _, connects_noted m _⟩
  | created => exact ⟨calls_noted m _, connects_noted m _⟩
  | stored hs => exact ⟨calls_noted m _, connects_noted m _⟩
  | granted hs => exact ⟨calls_noted m _, connects_noted m _⟩

/-- A request fails if a fault is meant for it, or if there is no session that it is about. -/
theorem answer_error_iff (mint : Nat → SessionId) (m : Memory) (q : Request) :
    (∃ e, ((broker mint).answer q m).1 = .error e) ↔
      q.Hit m.faults ∨ ∃ sid, q.session? = some sid ∧ sid ∉ m.ids := by
  cases q with
  | connect =>
    show (∃ e, m.connect.1 = .error e) ↔ _
    unfold connect Request.Hit Request.session?
    by_cases h : FaultSwitch.unreachable ∈ m.faults <;> simp [h]
  | create idle limit =>
    show (∃ e, (m.create (mint m.sessions.length) idle).1 = .error e) ↔ _
    unfold create Request.Hit Request.session?
    by_cases h : FaultSwitch.create ∈ m.faults
    · simp [h]
    · by_cases h' : FaultSwitch.noSessionId ∈ m.faults <;> simp [h, h']
  | set sid key value limit =>
    show (∃ e, (m.set sid key value).1 = .error e) ↔ _
    unfold set Request.Hit Request.session?
    by_cases h : FaultSwitch.set ∈ m.faults
    · simp [h]
    · cases hs : m.session? sid <;> simp [h, hs, mem_ids_iff]
  | grant sid g limit =>
    show (∃ e, (m.grant sid g).1 = .error e) ↔ _
    unfold grant Request.Hit Request.session?
    by_cases h : FaultSwitch.grant g.scope ∈ m.faults
    · simp [h]
    · cases hs : m.session? sid <;> simp [h, hs, mem_ids_iff]

/-- A request that fails changes no session. -/
theorem Answers.sessions_of_error {q : Request} {err : BrokerError}
    (h : Answers mint m ⟨q, .error err⟩ m') : m'.sessions = m.sessions := by
  generalize he : (⟨q, .error err⟩ : Exchange) = e at h
  cases h with
  | refused => exact noted_sessions m _
  | connected => cases he
  | created => cases he
  | stored hs => cases he
  | granted hs => cases he

theorem Answers.faults (h : Answers mint m e m') : m'.faults = m.faults := by
  cases h with
  | refused => exact noted_faults m _
  | connected => rfl
  | created => exact noted_faults m _
  | stored hs => exact noted_faults m _
  | granted hs => exact noted_faults m _

/-- A session only changes by the exchanges that are about it. -/
theorem Answers.session? (h : Answers mint m e m') (sid : SessionId) :
    m'.session? sid = e.effect sid (m.session? sid) := by
  cases h with
  | refused => rw [session?_noted, Exchange.effect_error]
  | connected => rfl
  | created =>
    rw [session?_update, session?_noted]
    simp only [Exchange.effect, eq_comm]
  | @stored s key value limit r hs =>
    rw [session?_update, session?_noted]
    by_cases hsid : sid = s
    · simp [Exchange.effect, hsid, hs]
    · simp [Exchange.effect, hsid, Ne.symm hsid]
  | @granted s g limit r hs =>
    rw [session?_update, session?_noted]
    by_cases hsid : sid = s
    · simp [Exchange.effect, hsid, hs]
    · simp [Exchange.effect, hsid, Ne.symm hsid]

/-- The session that was created is the only one that is added. -/
theorem Answers.ids (h : Answers mint m e m') (hnew : ∀ sid, e.created? = some sid → sid ∉ m.ids) :
    m'.ids = m.ids ++ e.created?.toList := by
  cases h with
  | refused => simp
  | connected => exact (List.append_nil _).symm
  | created =>
    rw [ids_update, ids_noted, if_neg (hnew _ rfl)]
    rfl
  | stored hs =>
    rw [ids_update, ids_noted, if_pos (mem_ids_iff.2 ⟨_, hs⟩)]
    exact (List.append_nil _).symm
  | granted hs =>
    rw [ids_update, ids_noted, if_pos (mem_ids_iff.2 ⟨_, hs⟩)]
    exact (List.append_nil _).symm

/-- A session gets the grant that it was given, behind those it has. -/
theorem Answers.grants (h : Answers mint m e m')
    (hnew : ∀ sid, e.created? = some sid → sid ∉ m.ids) (sid : SessionId) :
    m'.grants sid = m.grants sid ++ (e.grantTo? sid).toList := by
  cases h with
  | refused => simp
  | connected => exact (List.append_nil _).symm
  | created =>
    rw [grants_update, grants_noted]
    by_cases hsid : sid = mint m.sessions.length
    · rw [if_pos hsid, hsid, grants_of_notMem (hnew _ rfl)]
      rfl
    · rw [if_neg hsid]
      exact (List.append_nil _).symm
  | @stored s key value limit r hs =>
    rw [grants_update, grants_noted]
    by_cases hsid : sid = s
    · rw [if_pos hsid, hsid, grants_of_session? hs]
      exact (List.append_nil _).symm
    · rw [if_neg hsid]
      exact (List.append_nil _).symm
  | @granted s g limit r hs =>
    rw [grants_update, grants_noted]
    by_cases hsid : sid = s
    · rw [if_pos hsid, hsid, grants_of_session? hs]
      simp [SessionRecord.addGrant, Exchange.grantTo?]
    · rw [if_neg hsid]
      simp [Exchange.grantTo?, Ne.symm hsid]

/-- A value that was stored takes the place of the one before. -/
theorem Answers.value (h : Answers mint m e m')
    (hnew : ∀ sid, e.created? = some sid → sid ∉ m.ids) (sid : SessionId) (key : String) :
    m'.value sid key = (e.valueOn? sid key).or (m.value sid key) := by
  cases h with
  | refused => simp
  | connected => rfl
  | created =>
    rw [value_update, value_noted]
    by_cases hsid : sid = mint m.sessions.length
    · rw [if_pos hsid, hsid, value_of_notMem (hnew _ rfl)]
      rfl
    · rw [if_neg hsid]
      rfl
  | @stored s k v limit r hs =>
    rw [value_update, value_noted]
    by_cases hsid : sid = s
    · have hset : Keyed.get? key (r.setValue k v).values =
          if key = k then some v else Keyed.get? key r.values :=
        Keyed.get?_set k key v r.values
      rw [if_pos hsid, hsid, value_of_session? hs, hset]
      by_cases hkey : key = k
      · simp [Exchange.valueOn?, hkey]
      · simp [Exchange.valueOn?, hkey, Ne.symm hkey]
    · rw [if_neg hsid]
      simp [Exchange.valueOn?, Ne.symm hsid]
  | @granted s g limit r hs =>
    rw [value_update, value_noted]
    by_cases hsid : sid = s
    · rw [if_pos hsid, hsid, value_of_session? hs]
      rfl
    · rw [if_neg hsid]
      rfl

/-! ## Whole runs -/

/-- The state is what the history says. -/
structure Records (m : Memory) (es : List Exchange) : Prop where
  /-- The sessions are the ones that were created. -/
  ids : m.ids = createdIds es
  /-- Every session has the grants it was given. -/
  grants : ∀ sid, m.grants sid = grantsTo sid es
  /-- Every session has the values that were stored last. -/
  value : ∀ sid key, m.value sid key = lastValue sid key es
  /-- The rights of every session are those of its grants. -/
  faithful : m.Faithful

theorem records_nil (h : m.sessions = []) : m.Records [] where
  ids := by rw [ids, h]; rfl
  grants sid := by rw [grants, session?, h]; rfl
  value sid key := by rw [value, session?, h]; rfl
  faithful sid r hr := by
    rw [session?, h] at hr
    cases hr

/-- One request that gives no id twice keeps the state what the history says. -/
theorem Records.answers (h : m.Records es) (ha : Answers mint m e m')
    (hnodup : (createdIds (es ++ [e])).Nodup) : m'.Records (es ++ [e]) := by
  have hnew : ∀ sid, e.created? = some sid → sid ∉ m.ids := by
    intro sid hsid hmem
    rw [createdIds_append, createdIds_singleton, hsid, Option.toList_some, ← h.ids,
      List.nodup_append] at hnodup
    exact hnodup.2.2 sid hmem sid (List.mem_singleton_self sid) rfl
  constructor
  · rw [ha.ids hnew, h.ids, createdIds_append, createdIds_singleton]
  · intro sid
    rw [ha.grants hnew, h.grants, grantsTo_append, grantsTo_singleton]
  · intro sid key
    rw [ha.value hnew, h.value, lastValue_concat]
  · exact h.faithful.answers ha

/-- A session may access what the grants it was given cover. -/
theorem Records.access_iff (h : m.Records es) (sid : SessionId) (scope object function : String) :
    m.access sid scope object function = true ↔
      ∃ g ∈ grantsTo sid es, g.Covers scope object function := by
  rw [← h.grants]
  cases hs : m.session? sid with
  | none => simp [access, Memory.grants, hs]
  | some r =>
    rw [h.faithful.access_iff hs, grants_of_session? hs]

end Memory

/-- What can be done to a broker in memory. -/
inductive Action where
  /-- It is asked something. -/
  | request (q : Request)
  /-- A fault is switched on. -/
  | switch (f : FaultSwitch)
  deriving DecidableEq, Repr

/-- The call by which an action is logged. -/
def Action.call? : Action → Option Call
  | .request q => q.call?
  | .switch _ => none

/-- The fault that an action switches on. -/
def Action.fault? : Action → Option FaultSwitch
  | .request _ => none
  | .switch f => some f

namespace Memory

variable (mint : Nat → SessionId)

/-- Does one thing after the other.  Requests leave exchanges behind. -/
def play : List Action → Memory → List Exchange × Memory
  | [], m => ([], m)
  | .request q :: as, m =>
    let o := play as ((broker mint).answer q m).2
    (⟨q, ((broker mint).answer q m).1⟩ :: o.1, o.2)
  | .switch f :: as, m => play as (m.switch f)

theorem play_append (as bs : List Action) (m : Memory) :
    play mint (as ++ bs) m =
      ((play mint as m).1 ++ (play mint bs (play mint as m).2).1,
        (play mint bs (play mint as m).2).2) := by
  induction as generalizing m with
  | nil => rfl
  | cons a as ih =>
    cases a with
    | request q => rw [List.cons_append, play, ih, play, List.cons_append]
    | switch f => rw [List.cons_append, play, ih, play]

/-- Playing requests is making them one after the other. -/
theorem play_requests (qs : List Request) (m : Memory) :
    play mint (qs.map .request) m =
      (exchanges (broker mint) qs m, stateAfter (broker mint) qs m) := by
  induction qs generalizing m with
  | nil => rfl
  | cons q qs ih => rw [List.map_cons, play, ih, exchanges_cons, stateAfter_cons]

variable {m : Memory} {es : List Exchange}

/-- A conversation makes of a session what its exchanges make of it. -/
theorem session?_stateAfter (qs : List Request) (m : Memory) (sid : SessionId) :
    (stateAfter (broker mint) qs m).session? sid =
      (exchanges (broker mint) qs m).foldl (Exchange.effect sid) (m.session? sid) := by
  induction qs generalizing m with
  | nil => rfl
  | cons q qs ih =>
    rw [stateAfter_cons, exchanges_cons, List.foldl_cons, ih, (answers mint m q).session? sid]

theorem faults_stateAfter (qs : List Request) (m : Memory) :
    (stateAfter (broker mint) qs m).faults = m.faults := by
  induction qs generalizing m with
  | nil => rfl
  | cons q qs ih => rw [stateAfter_cons, ih, (answers mint m q).faults]

theorem Records.switch (h : m.Records es) (f : FaultSwitch) : (m.switch f).Records es where
  ids := h.ids
  grants := h.grants
  value := h.value
  faithful := h.faithful

variable {mint} in
/-- A run that gives no id twice keeps the state what the history says. -/
theorem Records.play (h : m.Records es) (actions : List Action)
    (hnodup : (createdIds (es ++ (play mint actions m).1)).Nodup) :
    (Memory.play mint actions m).2.Records (es ++ (Memory.play mint actions m).1) := by
  induction actions generalizing m es with
  | nil =>
    rw [Memory.play, List.append_nil]
    exact h
  | cons a as ih =>
    cases a with
    | switch f => exact ih (h.switch f) hnodup
    | request q =>
      rw [Memory.play, List.append_cons] at hnodup ⊢
      have hfirst := hnodup
      rw [createdIds_append] at hfirst
      have hstep := h.answers (Memory.answers mint m q)
        (hfirst.sublist (List.sublist_append_left _ _))
      exact ih hstep hnodup

variable {mint} in
/-- A conversation that gives no id twice keeps the state what the history says. -/
theorem Records.exchanges (h : m.Records es) (qs : List Request)
    (hnodup : (createdIds (es ++ exchanges (broker mint) qs m)).Nodup) :
    (stateAfter (broker mint) qs m).Records (es ++ Broker.exchanges (broker mint) qs m) := by
  have hplay := play_requests mint qs m
  have hrecords : (Memory.play mint (qs.map .request) m).2.Records
      (es ++ (Memory.play mint (qs.map .request) m).1) := by
    refine h.play _ ?_
    rw [hplay]
    exact hnodup
  rw [hplay] at hrecords
  exact hrecords

/-- A run logs every call that is made, and counts every connection that is tried. -/
theorem log_play (actions : List Action) (m : Memory) :
    (play mint actions m).2.calls = m.calls ++ actions.filterMap Action.call? ∧
      (play mint actions m).2.connects = m.connects + actions.count (.request .connect) := by
  induction actions generalizing m with
  | nil => exact ⟨(List.append_nil _).symm, rfl⟩
  | cons a as ih =>
    cases a with
    | switch f =>
      obtain ⟨hcalls, hconnects⟩ := ih (m.switch f)
      rw [List.count_cons_of_ne (by simp)]
      exact ⟨hcalls, hconnects⟩
    | request q =>
      obtain ⟨hcalls, hconnects⟩ := ih ((broker mint).answer q m).2
      obtain ⟨hcall, hconnect⟩ := (answers mint m q).log
      rw [hcall] at hcalls
      rw [hconnect] at hconnects
      constructor
      · show (play mint as ((broker mint).answer q m).2).2.calls = _
        rw [hcalls, List.append_assoc]
        rw [List.filterMap_eq_flatMap_toList, List.filterMap_eq_flatMap_toList, List.flatMap_cons]
        rfl
      · show (play mint as ((broker mint).answer q m).2).2.connects = _
        rw [hconnects, List.count_cons]
        by_cases hq : q = .connect
        · simp [hq]; omega
        · simp [hq]

/-- A run leaves those faults on that it switches on. -/
theorem faults_play (actions : List Action) (m : Memory) :
    (play mint actions m).2.faults = m.faults ++ actions.filterMap Action.fault? := by
  induction actions generalizing m with
  | nil => exact (List.append_nil _).symm
  | cons a as ih =>
    cases a with
    | request q =>
      show (play mint as ((broker mint).answer q m).2).2.faults = _
      rw [ih, (answers mint m q).faults]
      rfl
    | switch f =>
      show (play mint as (m.switch f)).2.faults = _
      rw [ih, switch, List.append_assoc]
      rfl

/-- A conversation is logged call by call, and its connections are counted. -/
theorem log_stateAfter (qs : List Request) (m : Memory) :
    (stateAfter (broker mint) qs m).calls = m.calls ++ qs.filterMap Request.call? ∧
      (stateAfter (broker mint) qs m).connects = m.connects + qs.count .connect := by
  have hlog := log_play mint (qs.map .request) m
  have hinjective : Function.Injective Action.request := fun _ _ => Action.request.inj
  rw [play_requests, List.filterMap_map, List.count_map_of_injective qs _ hinjective] at hlog
  exact hlog

variable {mint} in
/-- Every access that is allowed stays allowed along a run that gives no id twice. -/
theorem Records.access_play (h : m.Records es) (actions : List Action)
    (hnodup : (createdIds (es ++ (Memory.play mint actions m).1)).Nodup)
    {sid : SessionId} {scope object function : String}
    (haccess : m.access sid scope object function = true) :
    (Memory.play mint actions m).2.access sid scope object function = true := by
  obtain ⟨g, hg, hcovers⟩ := (h.access_iff sid scope object function).1 haccess
  refine ((h.play actions hnodup).access_iff sid scope object function).2 ⟨g, ?_, hcovers⟩
  rw [grantsTo_append]
  exact List.mem_append_left _ hg

end Memory

/-- **State and history.**  Take a fresh broker that never gives out an id twice, and any list of
requests and faults that are switched on.  Then its sessions are those it said it created, and each
has the grants it was given, in order, the values that were stored last, and the rights that its
grants cover.  The log has every call, also those that failed, and every connection is counted.  A
request is answered with an error exactly if a fault is meant for it, or if the session that it is
about was not created; that leaves all sessions, values, grants and rights as they were, and no
right that a session ever had is lost. -/
theorem memory_eq_history (mint : Nat → SessionId) (actions : List Action)
    (hnew : (createdIds (Memory.play mint actions .fresh).1).Nodup) :
    let es := (Memory.play mint actions .fresh).1
    let m := (Memory.play mint actions .fresh).2
    (m.ids = createdIds es ∧
      (∀ sid, m.grants sid = grantsTo sid es) ∧
      (∀ sid key, m.value sid key = lastValue sid key es) ∧
      ∀ sid scope object function, m.access sid scope object function = true ↔
        ∃ g ∈ grantsTo sid es, g.Covers scope object function) ∧
    (m.calls = actions.filterMap Action.call? ∧
      m.connects = actions.count (.request .connect) ∧
      m.faults = actions.filterMap Action.fault?) ∧
    (∀ q, (∃ e, ((Memory.broker mint).answer q m).1 = .error e) ↔
      q.Hit m.faults ∨ ∃ sid, q.session? = some sid ∧ sid ∉ createdIds es) ∧
    (∀ q e, ((Memory.broker mint).answer q m).1 = .error e →
      let m' := ((Memory.broker mint).answer q m).2
      m'.sessions = m.sessions ∧
        ∀ sid, m'.grants sid = m.grants sid ∧
          (∀ key, m'.value sid key = m.value sid key) ∧
          ∀ scope object function,
            m'.access sid scope object function = m.access sid scope object function) ∧
    ∀ before after, actions = before ++ after → ∀ sid scope object function,
      (Memory.play mint before .fresh).2.access sid scope object function = true →
        m.access sid scope object function = true := by
  intro es m
  have hrecords : m.Records es := (Memory.records_nil rfl).play actions hnew
  refine ⟨⟨hrecords.ids, hrecords.grants, hrecords.value, hrecords.access_iff⟩, ?_, ?_, ?_, ?_⟩
  · obtain ⟨hcalls, hconnects⟩ := Memory.log_play mint actions .fresh
    exact ⟨hcalls, hconnects.trans (Nat.zero_add _), Memory.faults_play mint actions .fresh⟩
  · intro q
    rw [← hrecords.ids]
    exact Memory.answer_error_iff mint m q
  · intro q e herror m'
    have hanswers := Memory.answers mint m q
    rw [herror] at hanswers
    have hsessions : m'.sessions = m.sessions := hanswers.sessions_of_error
    exact ⟨hsessions, Memory.queries_congr hsessions⟩
  · intro before after hsplit sid scope object function haccess
    have hplay := Memory.play_append mint before after .fresh
    rw [← hsplit] at hplay
    rw [hplay, createdIds_append] at hnew
    have hbefore := (Memory.records_nil rfl).play before
      (hnew.sublist (List.sublist_append_left _ _))
    show (Memory.play mint actions .fresh).2.access sid scope object function = true
    rw [hplay]
    exact hbefore.access_play after (by rwa [List.nil_append, createdIds_append]) haccess

/-! A broker that opens two sessions.  A grant is given twice and another one is empty, a value is
changed, a session is asked for that is not there, and then storing values and connecting fail. -/

/-- The ids of the sessions. -/
def sampleMint : Nat → SessionId
  | 0 => ⟨"a"⟩
  | _ => ⟨"b"⟩

/-- What is done to the broker. -/
def sampleActions : List Action :=
  let short := Duration.ofSecs 5
  let network : Grant := ⟨"ubus", [("network.*", "status")]⟩
  [.request .connect, .request (.create (.ofSecs 3600) short),
    .request (.grant ⟨"a"⟩ network short), .request (.grant ⟨"a"⟩ network short),
    .request (.grant ⟨"a"⟩ ⟨"uci", []⟩ short), .request (.set ⟨"a"⟩ "user" "alice" short),
    .request (.set ⟨"a"⟩ "user" "bob" short), .request (.grant ⟨"b"⟩ network short),
    .request (.create (.ofSecs 60) short), .switch .set, .switch .unreachable,
    .request (.set ⟨"a"⟩ "user" "carol" short), .request .connect]

theorem memory_eq_history_sample :
    (createdIds (Memory.play sampleMint sampleActions .fresh).1).Nodup ∧
      (Memory.play sampleMint sampleActions .fresh).2.ids = [⟨"a"⟩, ⟨"b"⟩] ∧
      (Memory.play sampleMint sampleActions .fresh).2.value ⟨"a"⟩ "user" = some "bob" ∧
      (Memory.play sampleMint sampleActions .fresh).2.access ⟨"a"⟩ "ubus" "network.lan" "status" =
        true := by
  have hnew : (createdIds (Memory.play sampleMint sampleActions .fresh).1).Nodup := by
    decide
  obtain ⟨⟨hids, -, hvalue, haccess⟩, -⟩ := memory_eq_history sampleMint sampleActions hnew
  refine ⟨hnew, ?_, ?_, ?_⟩
  · rw [hids]
    decide
  · rw [hvalue]
    decide
  · refine (haccess ⟨"a"⟩ "ubus" "network.lan" "status").2 ⟨⟨"ubus", [("network.*", "status")]⟩,
      ?_, rfl, ("network.*", "status"), List.mem_singleton_self _, ?_, ?_⟩
    · decide
    · unfold Matches
      decide +kernel
    · unfold Matches
      decide +kernel

end Gatehouse.Broker
