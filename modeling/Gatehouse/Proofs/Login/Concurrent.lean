import Gatehouse.Proofs.Broker.SideBySide
import Gatehouse.Proofs.Broker.Steady
import Gatehouse.Proofs.Login.Course

/-!
# Logins side by side

Logins that take turns with one broker in memory do not disturb each other.

* `Login.run_steady` — with a broker that answers by its faults alone, a login goes the same way
  under any id of its session.
* `Login.Course.exists_due` — where a conversation is orderly, a login hears what is due, because
  it only asks about the session that it has created.
* `Login.Settled` — what a login has heard and come to is what such a broker makes of it.  This
  holds of a login among others as well as of a login alone.
* `logins_sideBySide` — each login comes to what it comes to alone.
-/

namespace Gatehouse

open Gatehouse.Access Gatehouse.Acl Gatehouse.Broker Gatehouse.Broker.Dialogue

/-- The same report about another session. -/
def LoginReport.on (sid : SessionId) (r : LoginReport) : LoginReport :=
  { r with sid }

namespace Login

variable {faults : List FaultSwitch} {sid s : SessionId} {c : LoginCase}

/-! ## Under another id -/

/-- Answers that are due are counted alike, whatever the id. -/
theorem count_due (t : Tally) (call : Duration) (gs : List Grant) :
    t.count ((grantRequests sid call gs).map (dueExchange faults sid)) =
      t.count ((grantRequests s call gs).map (dueExchange faults s)) := by
  have hsucceeded : ∀ g : Grant, (dueExchange faults sid (.grant sid g call)).succeeded =
      (dueExchange faults s (.grant s g call)).succeeded :=
    fun g => succeeded_due_on faults sid s (.grant s g call)
  simp only [Tally.count, grantRequests, List.countP_map, Function.comp_def, hsucceeded]

/-- Furnishing a session goes the same way under another id. -/
theorem furnish_steady (faults : List FaultSwitch) (c : LoginCase) (auth : Authorization)
    (sid s : SessionId) :
    ((furnish c auth sid).run (steady faults sid) ()).requests =
        ((furnish c auth s).run (steady faults s) ()).requests.map (Request.on sid) ∧
      ((furnish c auth sid).run (steady faults sid) ()).result =
        ((furnish c auth s).run (steady faults s) ()).result.on sid := by
  constructor
  · simp [requests_run_furnish, grantRequests, userRequest, Request.on]
  · have hset : Request.succeeded ((userRequest c sid).due faults sid) =
        Request.succeeded ((userRequest c s).due faults s) :=
      succeeded_due_on faults sid s (userRequest c s)
    have hsteady : ∀ sid : SessionId,
        ((furnish c auth sid).run (steady faults sid) ()).result =
          ⟨sid, Request.succeeded ((userRequest c sid).due faults sid),
            (Tally.zero.count ((grantRequests sid c.call (c.grants auth)).map
              (dueExchange faults sid))).skip c.skippedFiles⟩ := by
      intro sid
      rw [result_run_furnish, ← exchanges_steady]
      rfl
    rw [hsteady sid, hsteady s, hset, count_due]
    rfl

/-- Opening a session goes the same way under another id. -/
theorem openFor_steady (auth : Authorization) (hsid : sid.text ≠ "") (hs : s.text ≠ "") :
    ((openFor c auth).run (steady faults sid) ()).requests =
        ((openFor c auth).run (steady faults s) ()).requests.map (Request.on sid) ∧
      ((openFor c auth).run (steady faults sid) ()).result =
        ((openFor c auth).run (steady faults s) ()).result.map (LoginReport.on sid) := by
  have hanswer : ∀ (sid : SessionId) (q : Request) (u : Unit),
      (steady faults sid).answer q u = (q.due faults sid, ()) := fun _ _ _ => rfl
  have hempty : ∀ {sid : SessionId}, sid.text ≠ "" → sid.isEmpty = false := by
    intro sid h
    simpa [SessionId.isEmpty] using h
  rw [openFor_eq]
  simp only [requests_run_note, result_run_note, requests_run_ask, result_run_ask, hanswer]
  obtain ⟨e, he⟩ | hconnect := Request.due_connect_cases faults
  · rw [he, he]
    exact ⟨rfl, rfl⟩
  rw [hconnect, hconnect]
  simp only [requests_run_bind, result_run_bind, requests_run_createSession,
    result_run_createSession, hanswer]
  obtain ⟨e, he⟩ | hcreate := Request.due_create_cases faults c.idle c.call
  · rw [he, he]
    exact ⟨rfl, rfl⟩
  rw [hcreate, hcreate]
  simp only [hempty hsid, hempty hs, Bool.false_eq_true, if_false, requests_run_map,
    result_run_map]
  obtain ⟨hrequests, hresult⟩ := furnish_steady faults c auth sid s
  constructor
  · exact congrArg (fun qs => Request.connect :: Request.create c.idle c.call :: qs) hrequests
  · exact congrArg Except.ok hresult

/-- With a broker that answers by its faults alone, a login goes the same way under any id. -/
theorem run_steady (faults : List FaultSwitch) (c : LoginCase) (hsid : sid.text ≠ "")
    (hs : s.text ≠ "") :
    ((dialogue c).run (steady faults sid) ()).requests =
        ((dialogue c).run (steady faults s) ()).requests.map (Request.on sid) ∧
      ((dialogue c).run (steady faults sid) ()).result =
        ((dialogue c).run (steady faults s) ()).result.map (LoginReport.on sid) := by
  have hgate : ((gate c).run (steady faults sid) ()).requests =
        ((gate c).run (steady faults s) ()).requests.map (Request.on sid) ∧
      ((gate c).run (steady faults sid) ()).result =
        ((gate c).run (steady faults s) ()).result.map (LoginReport.on sid) := by
    unfold gate
    cases c.authorization with
    | none => exact ⟨rfl, rfl⟩
    | some auth => exact openFor_steady auth hsid hs
  rw [dialogue_eq]
  cases c.finding.unreadable with
  | false => exact hgate
  | true => exact hgate

/-! ## What a login asks about -/

variable {es : List Exchange} {result : Except LoginError LoginReport} {call : Duration}
  {gs : List Grant}

/-- Requests for grants are only about the session that they are for. -/
theorem mem_granted {granted : List Exchange}
    (h : granted.map Exchange.request = gs.map (.grant sid · call)) {e : Exchange}
    (he : e ∈ granted) : ∃ g, e.request = .grant sid g call := by
  have hrequest : e.request ∈ gs.map (.grant sid · call) := by
    rw [← h]
    exact List.mem_map_of_mem he
  obtain ⟨g, -, hg⟩ := List.mem_map.1 hrequest
  exact ⟨g, hg.symm⟩

theorem created?_of_grant {e : Exchange} {g : Grant} (h : e.request = .grant sid g call) :
    e.created? = none := by
  obtain ⟨q, reply⟩ := e
  obtain rfl : q = .grant sid g call := h
  rfl

/-- The exchanges of a login that opens a session create just that session. -/
theorem createdIds_opened {granted : List Exchange} {user : String} {idle limit limit' : Duration}
    (h : granted.map Exchange.request = gs.map (.grant sid · call))
    (stored : Except BrokerError Unit) :
    createdIds (⟨.connect, .ok ()⟩ :: ⟨.create idle limit, .ok sid⟩ ::
      ⟨.set sid "user" user limit', stored⟩ :: granted) = [sid] := by
  have hgranted : granted.filterMap Exchange.created? = [] := by
    rw [List.filterMap_eq_nil_iff]
    intro e he
    obtain ⟨g, hg⟩ := mem_granted h he
    exact created?_of_grant hg
  show sid :: granted.filterMap Exchange.created? = [sid]
  rw [hgranted]

/-- A login creates no two sessions. -/
theorem Course.nodup (h : Course c es result) : (createdIds es).Nodup := by
  cases h with
  | denied h => exact List.nodup_nil
  | unconnected h => exact List.nodup_nil
  | uncreated h => exact List.nodup_nil
  | unnamed h => exact List.nodup_singleton _
  | opened h hsid hgranted =>
    rw [createdIds_opened hgranted]
    exact List.nodup_singleton _

/-- A login only asks about the session that it has created. -/
theorem Course.about (h : Course c es result) {e : Exchange} (he : e ∈ es)
    (hsession : e.request.session? = some sid) : sid ∈ createdIds es := by
  cases h with
  | denied h => exact absurd he List.not_mem_nil
  | unconnected h =>
    obtain rfl := List.mem_singleton.1 he
    cases hsession
  | uncreated h =>
    obtain rfl | he := List.mem_cons.1 he
    · cases hsession
    obtain rfl := List.mem_singleton.1 he
    cases hsession
  | unnamed h =>
    obtain rfl | he := List.mem_cons.1 he
    · cases hsession
    obtain rfl := List.mem_singleton.1 he
    cases hsession
  | opened h hsid hgranted =>
    rw [createdIds_opened hgranted, List.mem_singleton]
    obtain rfl | he := List.mem_cons.1 he
    · cases hsession
    obtain rfl | he := List.mem_cons.1 he
    · cases hsession
    obtain rfl | he := List.mem_cons.1 he
    · exact (Option.some.inj hsession).symm
    obtain ⟨g, hg⟩ := mem_granted hgranted he
    rw [hg] at hsession
    exact (Option.some.inj hsession).symm

/-- A login connects once if the user may log in, and else not at all. -/
theorem Course.connects (h : Course c es result) :
    (es.map Exchange.request).count .connect = if c.authorization.isSome then 1 else 0 := by
  cases h with
  | denied h => rw [h]; rfl
  | unconnected h => rw [h]; rfl
  | uncreated h => rw [h]; rfl
  | unnamed h => rw [h]; rfl
  | @opened auth sid stored granted h hsid hgranted =>
    have hnone : Request.connect ∉ (c.grants auth).map (.grant sid · c.call) := by
      intro hmem
      obtain ⟨g, -, hg⟩ := List.mem_map.1 hmem
      cases hg
    rw [h, List.map_cons, List.map_cons, List.map_cons, hgranted]
    simp [List.count_eq_zero.2 hnone]

/-- Where a conversation is orderly, a login that opens a session hears what the faults demand. -/
theorem due_opened {granted : List Exchange} {user : String} {idle limit limit' : Duration}
    {stored : Except BrokerError Unit}
    (h : granted.map Exchange.request = gs.map (.grant sid · call))
    (horderly : Orderly faults (⟨.connect, .ok ()⟩ :: ⟨.create idle limit, .ok sid⟩ ::
      ⟨.set sid "user" user limit', stored⟩ :: granted)) :
    ∀ e ∈ (⟨.connect, .ok ()⟩ :: ⟨.create idle limit, .ok sid⟩ ::
        ⟨.set sid "user" user limit', stored⟩ :: granted : List Exchange),
      e.reply = e.request.due faults sid := by
  intro e he
  obtain rfl | he := List.mem_cons.1 he
  · exact (horderly [] _ _ rfl).reply nofun nofun sid
  obtain rfl | he := List.mem_cons.1 he
  · obtain ⟨s, -, hreply⟩ := horderly [_] _ _ rfl nofun
    obtain rfl := Request.eq_of_due_create hreply.symm
    exact hreply
  obtain rfl | he := List.mem_cons.1 he
  · refine (horderly [_, _] _ _ rfl).reply ?_ nofun sid
    intro s hs
    obtain rfl := Option.some.inj hs
    exact List.mem_singleton_self _
  · -- A grant may come late, but the session is created before all of them.
    obtain ⟨g, hg⟩ := mem_granted h he
    obtain ⟨before, after, rfl⟩ := List.append_of_mem he
    refine (horderly (_ :: _ :: _ :: before) e after rfl).reply ?_ ?_ sid
    · intro s hs
      rw [hg] at hs
      obtain rfl := Option.some.inj hs
      exact List.mem_cons_self
    · intro idle limit hcreate
      rw [hg] at hcreate
      cases hcreate

/-- Where a conversation is orderly, a login hears what the faults demand. -/
theorem Course.exists_due (h : Course c es result) (horderly : Orderly faults es) :
    ∃ sid, sid.text ≠ "" ∧ (∀ e ∈ es, e.reply = e.request.due faults sid) ∧
      (∀ report, result = .ok report → report.sid = sid ∧ createdIds es = [sid]) ∧
      ∀ e, result = .error e → createdIds es = [] := by
  cases h with
  | denied h =>
    exact ⟨⟨"s"⟩, by decide, fun e he => absurd he List.not_mem_nil, nofun, fun _ _ => rfl⟩
  | unconnected h =>
    obtain ⟨s, hs, hreply⟩ := horderly [] _ _ rfl nofun
    refine ⟨s, hs, ?_, nofun, fun _ _ => rfl⟩
    intro e he
    obtain rfl := List.mem_singleton.1 he
    exact hreply
  | uncreated h =>
    obtain ⟨s, hs, hreply⟩ := horderly [_] _ _ rfl nofun
    refine ⟨s, hs, ?_, nofun, fun _ _ => rfl⟩
    intro e he
    obtain rfl | he := List.mem_cons.1 he
    · exact (horderly [] _ _ rfl).reply nofun nofun s
    obtain rfl := List.mem_singleton.1 he
    exact hreply
  | unnamed h =>
    obtain ⟨s, hs, hreply⟩ := horderly [_] _ _ rfl nofun
    exact absurd (congrArg SessionId.text (Request.eq_of_due_create hreply.symm)) hs
  | @opened auth sid stored granted h hsid hgranted =>
    refine ⟨sid, hsid, due_opened hgranted horderly, ?_, nofun⟩
    intro report hreport
    obtain rfl := Except.ok.inj hreport
    exact ⟨rfl, createdIds_opened hgranted stored⟩

/-! ## Settled logins -/

/-- What a login has heard and come to is what a broker makes of it that answers by its faults
alone and gives the session the id `sid`. -/
structure Settled (faults : List FaultSwitch) (c : LoginCase) (es : List Exchange)
    (result : Except LoginError LoginReport) (sid : SessionId) : Prop where
  /-- The id is one. -/
  named : sid.text ≠ ""
  /-- What the login has heard. -/
  heard : es = ((dialogue c).run (steady faults sid) ()).requests.map (dueExchange faults sid)
  /-- What it has come to. -/
  result_eq : result = ((dialogue c).run (steady faults sid) ()).result
  /-- A login that succeeds has created its session. -/
  opened : ∀ report, result = .ok report → report.sid = sid ∧ createdIds es = [sid]
  /-- A login that fails has created none. -/
  failed : ∀ e, result = .error e → createdIds es = []

/-- What a login hears is one of the courses that it can go. -/
theorem course_of_hears (h : (dialogue c).Hears es (.done result)) : Course c es result := by
  obtain ⟨hresult, hrequests⟩ := h.run (exchanges_recital es)
  have hcourse := course_of_dialogue recital c es
  rw [hresult, hrequests, exchanges_recital] at hcourse
  exact hcourse

/-- Where a conversation is orderly, a login is settled. -/
theorem exists_settled (h : (dialogue c).Hears es (.done result)) (horderly : Orderly faults es) :
    ∃ sid, Settled faults c es result sid := by
  obtain ⟨sid, hsid, hdue, hopened, hfailed⟩ := (course_of_hears h).exists_due horderly
  have hes : exchanges (steady faults sid) (es.map Exchange.request) () = es := by
    rw [exchanges_steady, map_dueExchange hdue]
  obtain ⟨hresult, hrequests⟩ := h.run hes
  refine ⟨sid, hsid, ?_, hresult.symm, hopened, hfailed⟩
  rw [hrequests, map_dueExchange hdue]

/-- The calls among exchanges. -/
def callsOf (es : List Exchange) : List Call :=
  es.filterMap (·.request.call?)

theorem callsOf_due (qs : List Request) :
    callsOf (qs.map (dueExchange faults sid)) = qs.filterMap Request.call? :=
  List.filterMap_map

variable {es' : List Exchange} {result' : Except LoginError LoginReport}

/-- The same login goes the same way wherever it is settled, up to the id of its session. -/
theorem Settled.alike (h : Settled faults c es result sid) (h' : Settled faults c es' result' s) :
    result = result'.map (LoginReport.on sid) ∧
      callsOf es = (callsOf es').map (Call.on sid) ∧
      es.foldl (Exchange.effect sid) none = es'.foldl (Exchange.effect s) none := by
  obtain ⟨hrequests, hresult⟩ := run_steady faults c h.named h'.named
  refine ⟨?_, ?_, ?_⟩
  · rw [h.result_eq, h'.result_eq, hresult]
  · have hcall : (fun q : Request => (q.on sid).call?) = fun q => q.call?.map (Call.on sid) :=
      funext (call?_on sid)
    rw [h.heard, h'.heard, callsOf_due, callsOf_due, hrequests, List.filterMap_map,
      List.map_filterMap]
    exact congrArg (fun f => List.filterMap f _) hcall
  · -- The lone requests are about the lone session, so that renaming them changes nothing.
    obtain ⟨hself, -⟩ := run_steady faults c h'.named h'.named
    rw [h.heard, h'.heard, hrequests]
    conv_rhs => rw [hself]
    rw [List.foldl_map, List.foldl_map, List.foldl_map, List.foldl_map]
    have heffect : (fun (r : Option SessionRecord) (q : Request) =>
          Exchange.effect sid r (dueExchange faults sid (q.on sid))) =
        fun r q => Exchange.effect s r (dueExchange faults s (q.on s)) :=
      funext fun r => funext fun q => effect_due_on faults sid s q r
    exact congrArg (fun f => List.foldl f none _) heffect

/-! ## Several logins -/

/-- A broker in memory whose ids are made of the numbers that `seed` gives. -/
def serving (seed : Nat → Nat) : Broker Memory :=
  Memory.broker fun n => .ofNumber (seed n)

/-- A fresh broker with faults. -/
def faulty (faults : List FaultSwitch) : Memory :=
  { Memory.fresh with faults }

/-- A login that has a broker for itself. -/
def alone (seed : Nat → Nat) (faults : List FaultSwitch) (c : LoginCase) :
    Outcome LoginEvent (Except LoginError LoginReport) Memory :=
  (dialogue c).run (serving seed) (faulty faults)

/-- Logins that take turns with one broker. -/
def sideBySide {ι : Type} [DecidableEq ι] (seed : Nat → Nat) (faults : List FaultSwitch)
    (cases : ι → LoginCase) (schedule : List ι) :
    Crowd ι LoginEvent (Except LoginError LoginReport) Memory :=
  (Crowd.gather (fun i => dialogue (cases i)) (faulty faults)).turns (serving seed) schedule

/-- A conversation with a fresh broker that gives no id twice is orderly. -/
theorem orderly_serving {seed : Nat → Nat}
    (hes : exchanges (serving seed) (es.map Exchange.request) (faulty faults) = es)
    (hnodup : (createdIds es).Nodup) : Orderly faults es :=
  Memory.orderly_exchanges (fun n => SessionId.text_ofNumber_ne (seed n))
    (show (faulty faults).sessions = [] from rfl) hes hnodup

/-- The state that a conversation leaves a fresh broker in. -/
theorem state_serving {seed : Nat → Nat} {m : Memory}
    (hes : exchanges (serving seed) (es.map Exchange.request) (faulty faults) = es)
    (hm : stateAfter (serving seed) (es.map Exchange.request) (faulty faults) = m) :
    m.calls = callsOf es ∧
      m.connects = (es.map Exchange.request).count .connect ∧
      (∀ sid, m.session? sid = es.foldl (Exchange.effect sid) none) ∧
      ((createdIds es).Nodup → m.ids = createdIds es) := by
  subst hm
  unfold serving at hes ⊢
  obtain ⟨hcalls, hconnects⟩ := Memory.log_stateAfter (fun n => .ofNumber (seed n))
    (es.map Exchange.request) (faulty faults)
  refine ⟨?_, ?_, ?_, ?_⟩
  · rw [List.filterMap_map] at hcalls
    exact hcalls
  · exact hconnects.trans (Nat.zero_add _)
  · intro sid
    rw [Memory.session?_stateAfter, hes]
    rfl
  · intro hnodup
    have hnil : (faulty faults).Records [] := Memory.records_nil rfl
    have hrecords := hnil.exchanges (es.map Exchange.request)
      (by rw [hes]; exact hnodup)
    rw [hes] at hrecords
    exact hrecords.ids

/-- A login that has a broker for itself is settled. -/
theorem exists_settled_alone (seed : Nat → Nat) (faults : List FaultSwitch) (c : LoginCase) :
    ∃ es s, Settled faults c es (alone seed faults c).result s ∧
      (alone seed faults c).state.calls = callsOf es ∧
      ∀ sid, (alone seed faults c).state.session? sid = es.foldl (Exchange.effect sid) none := by
  let es := exchanges (serving seed) (alone seed faults c).requests (faulty faults)
  have hrequests : es.map Exchange.request = (alone seed faults c).requests :=
    map_request_exchanges _ _ _
  have hes : exchanges (serving seed) (es.map Exchange.request) (faulty faults) = es := by
    rw [hrequests]
  have hhears : (dialogue c).Hears es (.done (alone seed faults c).result) :=
    hears_run (serving seed) (dialogue c) (faulty faults)
  have hnodup : (createdIds es).Nodup := (course_of_hears hhears).nodup
  obtain ⟨s, hsettled⟩ := exists_settled hhears (orderly_serving hes hnodup)
  have hstate : stateAfter (serving seed) (es.map Exchange.request) (faulty faults) =
      (alone seed faults c).state := by
    rw [hrequests]
    exact (run_state (serving seed) (dialogue c) (faulty faults)).symm
  obtain ⟨hcalls, -, hsession, -⟩ := state_serving hes hstate
  exact ⟨es, s, hsettled, hcalls, hsession⟩

section SideBySide

variable {ι : Type} [DecidableEq ι] {seed : Nat → Nat} {cases : ι → LoginCase}
  {results : ι → Except LoginError LoginReport}
  {k : Crowd ι LoginEvent (Except LoginError LoginReport) Memory}

/-- No two logins create the same session. -/
theorem eq_of_mem_createdIds (hnew : (createdIds k.conversation).Nodup) {i j : ι}
    (hi : sid ∈ createdIds (k.heardBy i)) (hj : sid ∈ createdIds (k.heardBy j)) : i = j := by
  obtain ⟨e, he, hcreated⟩ := List.mem_filterMap.1 hi
  obtain ⟨e', he', hcreated'⟩ := List.mem_filterMap.1 hj
  exact Crowd.eq_of_mem_heardBy hnew he he' hcreated hcreated'

variable (hproper : k.Proper (serving seed) (fun i => dialogue (cases i)) (faulty faults))
  (hover : k.Over results) (hnew : (createdIds k.conversation).Nodup)

include hproper hover hnew

/-- A login among others is settled. -/
theorem exists_settled_heardBy (i : ι) :
    ∃ sid, Settled faults (cases i) (k.heardBy i) (results i) sid :=
  exists_settled (hproper.hears_done hover i)
    ((orderly_serving hproper.conversation hnew).sublist (Crowd.heardBy_sublist k i))

/-- The session that is created by a login that succeeds is the one that it reports. -/
theorem createdIds_heardBy {i : ι} {report : LoginReport} (h : results i = .ok report) :
    createdIds (k.heardBy i) = [report.sid] := by
  obtain ⟨sid, hsettled⟩ := exists_settled_heardBy hproper hover hnew i
  obtain ⟨rfl, hcreated⟩ := hsettled.opened report h
  exact hcreated

/-- The sessions are those of the logins that succeed. -/
theorem mem_ids_iff_exists_report :
    sid ∈ k.state.ids ↔ ∃ i report, results i = .ok report ∧ report.sid = sid := by
  obtain ⟨-, -, -, hids⟩ := state_serving hproper.conversation hproper.state
  rw [hids hnew, createdIds, List.mem_filterMap]
  constructor
  · rintro ⟨e, he, hcreated⟩
    obtain ⟨i, hi⟩ := Crowd.mem_conversation.1 he
    have hmem : sid ∈ createdIds (k.heardBy i) := List.mem_filterMap.2 ⟨e, hi, hcreated⟩
    cases hresult : results i with
    | ok report =>
      rw [createdIds_heardBy hproper hover hnew hresult, List.mem_singleton] at hmem
      exact ⟨i, report, hresult, hmem.symm⟩
    | error err =>
      obtain ⟨s, hsettled⟩ := exists_settled_heardBy hproper hover hnew i
      rw [hsettled.failed err hresult] at hmem
      exact absurd hmem List.not_mem_nil
  · rintro ⟨i, report, hresult, rfl⟩
    have hmem : report.sid ∈ createdIds (k.heardBy i) := by
      rw [createdIds_heardBy hproper hover hnew hresult]
      exact List.mem_singleton_self _
    obtain ⟨e, he, hcreated⟩ := List.mem_filterMap.1 hmem
    exact ⟨e, Crowd.mem_conversation.2 ⟨i, he⟩, hcreated⟩

/-- A session is the business of the login that has created it. -/
theorem session?_heardBy {i : ι} (hsid : sid ∈ createdIds (k.heardBy i)) :
    k.state.session? sid = (k.heardBy i).foldl (Exchange.effect sid) none := by
  obtain ⟨-, -, hsession, -⟩ := state_serving hproper.conversation hproper.state
  rw [hsession]
  refine Crowd.foldl_conversation k i _ none ?_
  intro j e hj he
  refine effect_of_ne ?_ ?_
  · intro hcreated
    have hmem : sid ∈ createdIds (k.heardBy j) := List.mem_filterMap.2 ⟨e, he, hcreated⟩
    exact hj (eq_of_mem_createdIds hnew hmem hsid)
  · intro habout
    have hcourse := course_of_hears (hproper.hears_done hover j)
    exact hj (eq_of_mem_createdIds hnew (hcourse.about he habout) hsid)

/-- A login among others comes to what it comes to alone. -/
theorem as_alone (i : ι) (seed' : Nat → Nat) :
    ∃ sid, results i = (alone seed' faults (cases i)).result.map (LoginReport.on sid) ∧
      callsOf (k.heardBy i) = (alone seed' faults (cases i)).state.calls.map (Call.on sid) ∧
      ∀ report, (alone seed' faults (cases i)).result = .ok report →
        ∃ r, k.state.session? sid = some r ∧
          (alone seed' faults (cases i)).state.session? report.sid = some r := by
  obtain ⟨sid, hsettled⟩ := exists_settled_heardBy hproper hover hnew i
  obtain ⟨es, s, hsettled', hcalls', hsession'⟩ := exists_settled_alone seed' faults (cases i)
  obtain ⟨hresult, hcalls, heffect⟩ := hsettled.alike hsettled'
  refine ⟨sid, hresult, by rw [hcalls, hcalls'], ?_⟩
  intro report hreport
  have hresult' : results i = .ok (report.on sid) := by
    rw [hresult, hreport]
    rfl
  obtain ⟨hs, -⟩ := hsettled'.opened report hreport
  have hsid : sid ∈ k.state.ids :=
    (mem_ids_iff_exists_report hproper hover hnew).2 ⟨i, _, hresult', rfl⟩
  have hcreated : sid ∈ createdIds (k.heardBy i) := by
    rw [createdIds_heardBy hproper hover hnew hresult']
    exact List.mem_singleton_self _
  obtain ⟨r, hr⟩ := Memory.mem_ids_iff.1 hsid
  refine ⟨r, hr, ?_⟩
  rw [hs, hsession', ← heffect, ← session?_heardBy hproper hover hnew hcreated, hr]

omit hnew in
/-- A connection is tried once for every login that passes the gate. -/
theorem connects_eq_card [Fintype ι] :
    k.state.connects = (Finset.univ.filter fun i => (cases i).authorization.isSome).card := by
  obtain ⟨-, hconnects, -, -⟩ := state_serving hproper.conversation hproper.state
  have hpart : ∀ i, (k.heardBy i).countP (fun e => e.request == .connect) =
      if (cases i).authorization.isSome then 1 else 0 := by
    intro i
    rw [← (course_of_hears (hproper.hears_done hover i)).connects, List.count, List.countP_map]
    rfl
  rw [hconnects, List.count, List.countP_map, Finset.card_filter]
  exact (Crowd.countP_conversation k _).trans (Finset.sum_congr rfl fun i _ => hpart i)

end SideBySide

end Login

/-- **Logins side by side.**  Let any logins share one fresh broker in memory whose faults stay what
they are and which never gives out an id twice, and let them take turns in any order.  However they
began, they can go on until all are over.  Then each login has the result and the calls that it has
alone, with a broker of its own that has the same faults, and its session has the same record, up to
the id of the session.  The sessions are those of the logins that succeed, each of its own; the log
has the calls of all logins in the order of the turns; and a connection is tried once for every
login that passes the gate. -/
theorem logins_sideBySide {ι : Type} [Fintype ι] [DecidableEq ι] (seed : Nat → Nat)
    (faults : List FaultSwitch) (cases : ι → LoginCase) :
    (∀ schedule, ∃ more results,
      (Login.sideBySide seed faults cases (schedule ++ more)).Over results) ∧
    ∀ schedule results, (Login.sideBySide seed faults cases schedule).Over results →
      (createdIds (Login.sideBySide seed faults cases schedule).conversation).Nodup →
      let k := Login.sideBySide seed faults cases schedule
      (∀ i seed', ∃ sid,
        let lone := Login.alone seed' faults (cases i)
        results i = lone.result.map (LoginReport.on sid) ∧
          Login.callsOf (k.heardBy i) = lone.state.calls.map (Call.on sid) ∧
          ∀ report, lone.result = .ok report →
            ∃ r, k.state.session? sid = some r ∧ lone.state.session? report.sid = some r) ∧
      (∀ sid, sid ∈ k.state.ids ↔ ∃ i report, results i = .ok report ∧ report.sid = sid) ∧
      (∀ i j report report', results i = .ok report → results j = .ok report' →
        report.sid = report'.sid → i = j) ∧
      k.state.calls = k.heard.filterMap (fun e => e.2.request.call?) ∧
      k.state.connects = (Finset.univ.filter fun i => (cases i).authorization.isSome).card := by
  refine ⟨Crowd.exists_over _ _, ?_⟩
  intro schedule results hover hnew k
  have hproper : k.Proper (Login.serving seed) (fun i => Login.dialogue (cases i))
      (Login.faulty faults) :=
    Crowd.proper_gather.turns schedule
  refine ⟨?_, ?_, ?_, ?_, ?_⟩
  · exact Login.as_alone hproper hover hnew
  · intro sid
    exact Login.mem_ids_iff_exists_report hproper hover hnew
  · intro i j report report' hi hj hsid
    have hmem : report.sid ∈ createdIds (k.heardBy i) := by
      rw [Login.createdIds_heardBy hproper hover hnew hi]
      exact List.mem_singleton_self _
    have hmem' : report.sid ∈ createdIds (k.heardBy j) := by
      rw [Login.createdIds_heardBy hproper hover hnew hj, hsid]
      exact List.mem_singleton_self _
    exact Login.eq_of_mem_createdIds hnew hmem hmem'
  · obtain ⟨hcalls, -⟩ := Login.state_serving hproper.conversation hproper.state
    rw [hcalls]
    exact Crowd.filterMap_conversation k _
  · exact Login.connects_eq_card hproper hover

/-! Three users log in at the same time: one with a policy, the superuser, and one who is denied.
The broker refuses all grants in the scope of the user interface. -/

namespace Login

/-- The users. -/
def trio : Fin 3 → LoginCase
  | 0 => ⟨"alice", ⟨some ⟨"alice", "alice", [⟨"read", [⟨"net*"⟩]⟩]⟩, false⟩, library, .ofSecs 60,
      .ofSecs 5⟩
  | 1 => ⟨"root", ⟨none, false⟩, library, .ofSecs 60, .ofSecs 5⟩
  | 2 => ⟨"mallory", ⟨none, true⟩, library, .ofSecs 60, .ofSecs 5⟩
where
  /-- Two groups, of which the policy only gives one. -/
  library : Except LibraryError (List (Except DocumentError Loaded)) :=
    .ok [.ok ⟨"acl/a.json", ⟨[⟨"network", none, [⟨.read, [.objects [("net*", ["get"])]]⟩]⟩,
      ⟨"system", none, [⟨.read, [.objects [("system", ["info"])]]⟩]⟩]⟩⟩]

/-- Everybody has a turn, again and again. -/
def rounds : List (Fin 3) :=
  (List.replicate 14 [0, 1, 2]).flatten

/-- What becomes of the users. -/
def trioResults : Fin 3 → Except LoginError LoginReport
  | 0 => .ok ⟨.ofNumber 7, true, ⟨1, 1, 0⟩⟩
  | 1 => .ok ⟨.ofNumber 8, true, ⟨2, 2, 0⟩⟩
  | 2 => .error (.denied "mallory")

end Login

theorem logins_sideBySide_trio :
    (Login.sideBySide (· + 7) [.grant "luci-ui"] Login.trio Login.rounds).Over
        Login.trioResults ∧
      (createdIds (Login.sideBySide (· + 7) [.grant "luci-ui"] Login.trio
        Login.rounds).conversation).Nodup ∧
      (Login.sideBySide (· + 7) [.grant "luci-ui"] Login.trio Login.rounds).state.connects = 2 := by
  have hover : (Login.sideBySide (· + 7) [.grant "luci-ui"] Login.trio Login.rounds).Over
      Login.trioResults := by
    unfold Crowd.Over
    decide +kernel
  have hnew : (createdIds (Login.sideBySide (· + 7) [.grant "luci-ui"] Login.trio
      Login.rounds).conversation).Nodup := by
    decide +kernel
  obtain ⟨-, hover'⟩ := logins_sideBySide (· + 7) [.grant "luci-ui"] Login.trio
  obtain ⟨-, -, -, -, hconnects⟩ := hover' Login.rounds Login.trioResults hover hnew
  refine ⟨hover, hnew, hconnects.trans ?_⟩
  decide

end Gatehouse
