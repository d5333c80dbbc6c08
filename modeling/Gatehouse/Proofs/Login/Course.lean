import Gatehouse.Login
import Gatehouse.Proofs.Broker.Exchanges
import Gatehouse.Proofs.Files.PathOrder

/-!
# The course of a login

What a login says to its broker, and what it makes of the answers, whatever the broker is.

* `Course` — the five ways in which a login can go, each with the exact exchanges and the result:
  it is denied, the broker cannot be connected to, no session is created, the session has no name,
  or the session is opened and furnished.
* `requests_run_furnish`, `result_run_furnish` — once the session exists the requests are settled:
  one that stores the user, then one for each grant of the library, all on that session, and the
  answers only decide what is counted.
* `login_course` — every login takes one of these courses.
-/

namespace Gatehouse

open Gatehouse.Access Gatehouse.Acl Gatehouse.Broker Gatehouse.Broker.Dialogue Gatehouse.Files

variable {σ : Type}

/-! ## Tallies -/

namespace Tally

/-- Nothing happened yet. -/
def zero : Tally :=
  ⟨0, 0, 0⟩

/-- Counts what became of requests to grant rights. -/
def count (t : Tally) (es : List Exchange) : Tally :=
  { t with
    applied := t.applied + es.countP Exchange.succeeded
    failed := t.failed + es.countP (!·.succeeded) }

/-- Counts files that are no documents. -/
def skip (t : Tally) (n : Nat) : Tally :=
  { t with skipped := t.skipped + n }

theorem count_append (t : Tally) (es es' : List Exchange) :
    t.count (es ++ es') = (t.count es).count es' := by
  simp [count, Nat.add_assoc]

theorem count_skip (t : Tally) (es : List Exchange) (n : Nat) :
    (t.skip n).count es = (t.count es).skip n := rfl

theorem skip_skip (t : Tally) (m n : Nat) : (t.skip m).skip n = t.skip (m + n) := by
  simp [skip, Nat.add_assoc]

/-- Every request is counted once, as applied or as failed. -/
theorem applied_add_failed_count (es : List Exchange) :
    (zero.count es).applied + (zero.count es).failed = es.length := by
  have h := List.length_eq_countP_add_countP Exchange.succeeded (l := es)
  simp only [count, zero, Nat.zero_add]
  rw [h]
  congr 2
  funext e
  cases e.succeeded <;> rfl

end Tally

/-! ## Submitting grants -/

namespace Login

/-- The requests that submit grants. -/
def grantRequests (sid : SessionId) (call : Duration) (gs : List Grant) : List Request :=
  gs.map (.grant sid · call)

theorem grantRequests_append (sid : SessionId) (call : Duration) (gs hs : List Grant) :
    grantRequests sid call (gs ++ hs) = grantRequests sid call gs ++ grantRequests sid call hs :=
  List.map_append

variable (b : Broker σ) (sid : SessionId) (call : Duration)

/-- Every grant is submitted once, whatever becomes of the ones before it. -/
theorem requests_run_submit (gs : List Grant) (t : Tally) (s : σ) :
    ((submit sid call gs t).run b s).requests = grantRequests sid call gs := by
  induction gs generalizing t s with
  | nil => rfl
  | cons g gs ih =>
    rw [submit, requests_run_ask, grantRequests, List.map_cons]
    congr 1
    cases (b.answer (.grant sid g call) s).1 with
    | ok _ => exact ih _ _
    | error _ => exact ih _ _

/-- The tally counts the answers. -/
theorem result_run_submit (gs : List Grant) (t : Tally) (s : σ) :
    ((submit sid call gs t).run b s).result =
      t.count (exchanges b (grantRequests sid call gs) s) := by
  induction gs generalizing t s with
  | nil => rfl
  | cons g gs ih =>
    rw [submit, result_run_ask, grantRequests, List.map_cons, exchanges_cons]
    rw [show ∀ e es, t.count (e :: es) = (t.count [e]).count es from
      fun e es => t.count_append [e] es]
    cases h : (b.answer (.grant sid g call) s).1 with
    | ok _ => exact ih _ _
    | error _ => exact ih _ _

variable (auth : Authorization)

/-- The grants of the files that are documents, in the order of the files. -/
def grantsOf (files : List (Except DocumentError Loaded)) : List Grant :=
  (loadable files).flatMap (expand · auth.allows)

theorem grantsOf_ok (l : Loaded) (files : List (Except DocumentError Loaded)) :
    grantsOf auth (.ok l :: files) = expand l.document auth.allows ++ grantsOf auth files := rfl

theorem grantsOf_error (e : DocumentError) (files : List (Except DocumentError Loaded)) :
    grantsOf auth (.error e :: files) = grantsOf auth files := rfl

/-- A file that is no document takes no part in the requests. -/
theorem requests_run_submitFiles (files : List (Except DocumentError Loaded)) (t : Tally) (s : σ) :
    ((submitFiles sid call auth files t).run b s).requests =
      grantRequests sid call (grantsOf auth files) := by
  induction files generalizing t s with
  | nil => rfl
  | cons f files ih =>
    cases f with
    | ok l =>
      rw [submitFiles, requests_run_bind, requests_run_submit, ih, grantsOf_ok,
        grantRequests_append]
    | error e => exact ih _ _

/-- The tally counts the answers, and the files that are no documents. -/
theorem result_run_submitFiles (files : List (Except DocumentError Loaded)) (t : Tally) (s : σ) :
    ((submitFiles sid call auth files t).run b s).result =
      (t.count (exchanges b (grantRequests sid call (grantsOf auth files)) s)).skip
        (skipped files).length := by
  induction files generalizing t s with
  | nil => rfl
  | cons f files ih =>
    cases f with
    | ok l =>
      rw [submitFiles, result_run_bind, requests_run_submit, result_run_submit, ih, grantsOf_ok,
        grantRequests_append, exchanges_append, Tally.count_append]
      rfl
    | error e =>
      rw [submitFiles, result_run_note, ih, grantsOf_error]
      rw [show ({ t with skipped := t.skipped + 1 } : Tally) = t.skip 1 from rfl,
        Tally.count_skip, Tally.skip_skip, Nat.add_comm]
      rfl

end Login

/-! ## Furnishing a session -/

namespace LoginCase

/-- The grants that the library gives an authorization, in the order of its files.  A library that
cannot be searched gives none. -/
def grants (c : LoginCase) (auth : Authorization) : List Grant :=
  match c.files with
  | .ok files => Login.grantsOf auth files
  | .error _ => []

/-- The number of files of the library that are no documents. -/
def skippedFiles (c : LoginCase) : Nat :=
  match c.files with
  | .ok files => (skipped files).length
  | .error _ => 0

end LoginCase

namespace Login

variable (b : Broker σ) (c : LoginCase) (auth : Authorization) (sid : SessionId)

theorem requests_run_applyLibrary (s : σ) :
    ((applyLibrary sid c.call auth c.files).run b s).requests =
      grantRequests sid c.call (c.grants auth) := by
  unfold LoginCase.grants
  cases h : c.files with
  | ok files => exact requests_run_submitFiles b sid c.call auth files _ s
  | error e => rfl

theorem result_run_applyLibrary (s : σ) :
    ((applyLibrary sid c.call auth c.files).run b s).result =
      (Tally.zero.count (exchanges b (grantRequests sid c.call (c.grants auth)) s)).skip
        c.skippedFiles := by
  unfold LoginCase.grants LoginCase.skippedFiles
  cases h : c.files with
  | ok files => exact result_run_submitFiles b sid c.call auth files _ s
  | error e => rfl

/-- The request that stores the user on a session. -/
def userRequest : Request :=
  .set sid userKey c.user c.call

theorem requests_run_attachIdentity (s : σ) :
    ((attachIdentity sid c.user c.call).run b s).requests = [userRequest c sid] := by
  rw [attachIdentity, requests_run_ask]
  cases (b.answer (.set sid userKey c.user c.call) s).1 <;> rfl

theorem result_run_attachIdentity (s : σ) :
    ((attachIdentity sid c.user c.call).run b s).result =
      Request.succeeded (b.answer (userRequest c sid) s).1 := by
  rw [attachIdentity, result_run_ask, userRequest]
  cases (b.answer (.set sid userKey c.user c.call) s).1 <;> rfl

/-- What furnishing a session comes to: storing the user, and then submitting the grants. -/
theorem furnish_eq : furnish c auth sid =
    note (.stage .identityAttach) (attachIdentity sid c.user c.call >>= fun attached =>
      note (.stage .aclScan) (applyLibrary sid c.call auth c.files >>= fun tally =>
        note (.stage .done) (done ⟨sid, attached, tally⟩))) :=
  rfl

/-- Once the session exists, the requests do not depend on the answers. -/
theorem requests_run_furnish (s : σ) :
    ((furnish c auth sid).run b s).requests =
      userRequest c sid :: grantRequests sid c.call (c.grants auth) := by
  rw [furnish_eq, requests_run_note, requests_run_bind, requests_run_attachIdentity,
    requests_run_note, requests_run_bind, requests_run_applyLibrary, requests_run_note, run_done,
    List.append_nil, List.singleton_append]

/-- The answers only decide what the report counts. -/
theorem result_run_furnish (s : σ) :
    ((furnish c auth sid).run b s).result =
      ⟨sid, Request.succeeded (b.answer (userRequest c sid) s).1,
        (Tally.zero.count (exchanges b (grantRequests sid c.call (c.grants auth))
          (b.answer (userRequest c sid) s).2)).skip c.skippedFiles⟩ := by
  rw [furnish_eq, result_run_note, result_run_bind, requests_run_attachIdentity,
    result_run_attachIdentity, result_run_note, result_run_bind, result_run_applyLibrary,
    result_run_note, run_done]
  rfl

end Login

/-! ## The whole login -/

namespace Login

/-- How a login can go: what passes between it and the broker, and what comes of it. -/
inductive Course (c : LoginCase) : List Exchange → Except LoginError LoginReport → Prop where
  /-- The user may not log in, and the broker hears nothing of it. -/
  | denied (h : c.authorization = none) : Course c [] (.error (.denied c.user))
  /-- The broker cannot be connected to. -/
  | unconnected {auth : Authorization} {e : BrokerError} (h : c.authorization = some auth) :
      Course c [⟨.connect, .error e⟩] (.error (.brokerUnavailable e))
  /-- No session is created. -/
  | uncreated {auth : Authorization} {e : BrokerError} (h : c.authorization = some auth) :
      Course c [⟨.connect, .ok ()⟩, ⟨.create c.idle c.call, .error e⟩] (.error (.createFailed e))
  /-- A session is created, but it has no name. -/
  | unnamed {auth : Authorization} (h : c.authorization = some auth) :
      Course c [⟨.connect, .ok ()⟩, ⟨.create c.idle c.call, .ok ⟨""⟩⟩]
        (.error (.createFailed .noSessionId))
  /-- The session is opened and furnished.  All requests are made, whatever the answers. -/
  | opened {auth : Authorization} {sid : SessionId} {stored : Except BrokerError Unit}
      {granted : List Exchange} (h : c.authorization = some auth) (hsid : sid.text ≠ "")
      (hgranted : granted.map Exchange.request = (c.grants auth).map (.grant sid · c.call)) :
      Course c
        (⟨.connect, .ok ()⟩ :: ⟨.create c.idle c.call, .ok sid⟩ ::
          ⟨.set sid "user" c.user c.call, stored⟩ :: granted)
        (.ok ⟨sid, stored.isOk, ⟨granted.countP Exchange.succeeded,
          granted.countP (!·.succeeded), c.skippedFiles⟩⟩)

theorem succeeded_eq_isOk {r : Request} (reply : r.Reply) :
    Request.succeeded reply = reply.isOk := by
  cases reply <;> rfl

/-- Furnishing a session is the rest of a login that has opened one. -/
theorem course_of_furnish (b : Broker σ) (c : LoginCase) {auth : Authorization} {sid : SessionId}
    (h : c.authorization = some auth) (hsid : sid.text ≠ "") (s : σ) :
    Course c
      (⟨.connect, .ok ()⟩ :: ⟨.create c.idle c.call, .ok sid⟩ ::
        exchanges b ((furnish c auth sid).run b s).requests s)
      (.ok ((furnish c auth sid).run b s).result) := by
  rw [requests_run_furnish, result_run_furnish, exchanges_cons, succeeded_eq_isOk]
  have hgranted := map_request_exchanges b (grantRequests sid c.call (c.grants auth))
    (b.answer (userRequest c sid) s).2
  have hcourse := @Course.opened c auth sid (b.answer (userRequest c sid) s).1 _ h hsid hgranted
  simpa [Tally.count, Tally.skip, Tally.zero, userRequest, userKey] using hcourse

/-- What opening a session comes to: connecting, creating, and then what the answers call for. -/
theorem openFor_eq (c : LoginCase) (auth : Authorization) :
    openFor c auth = note (.stage .sessionCreate) (ask .connect fun
      | .error e => note (.stage .abort) (done (.error (.brokerUnavailable e)))
      | .ok _ => createSession c.idle c.call >>= fun
        | .error e => note (.stage .abort) (done (.error (.createFailed e)))
        | .ok sid => Except.ok <$> furnish c auth sid) :=
  rfl

theorem requests_run_createSession (b : Broker σ) (idle call : Duration) (s : σ) :
    ((createSession idle call).run b s).requests = [.create idle call] := rfl

theorem result_run_createSession (b : Broker σ) (idle call : Duration) (s : σ) :
    ((createSession idle call).run b s).result =
      match (b.answer (.create idle call) s).1 with
      | .ok sid => if sid.isEmpty then .error .noSessionId else .ok sid
      | .error e => .error e := rfl

theorem course_of_openFor (b : Broker σ) (c : LoginCase) {auth : Authorization}
    (h : c.authorization = some auth) (s : σ) :
    Course c (exchanges b ((openFor c auth).run b s).requests s)
      ((openFor c auth).run b s).result := by
  rw [openFor_eq]
  simp only [requests_run_note, result_run_note, requests_run_ask, result_run_ask, exchanges_cons]
  rcases b.answer .connect s with ⟨e | ⟨⟨⟩⟩, s₁⟩
  · exact .unconnected h
  simp only [requests_run_bind, result_run_bind, requests_run_createSession,
    result_run_createSession, List.singleton_append, exchanges_cons, stateAfter_cons,
    stateAfter_nil]
  rcases b.answer (.create c.idle c.call) s₁ with ⟨e | sid, s₂⟩
  · exact .uncreated h
  by_cases hsid : sid.text = ""
  · obtain ⟨text⟩ := sid
    obtain rfl : text = "" := hsid
    exact .unnamed h
  · have hempty : sid.isEmpty = false := by simpa [SessionId.isEmpty] using hsid
    simp only [hempty, Bool.false_eq_true, if_false, requests_run_map, result_run_map]
    exact course_of_furnish b c h hsid s₂

/-- What stands behind the notes that a login begins with. -/
def gate (c : LoginCase) : Dialogue LoginEvent (Except LoginError LoginReport) :=
  match c.authorization with
  | none => note (.stage .abort) (done (.error (.denied c.user)))
  | some auth => openFor c auth

/-- The notes that a login begins with make no request. -/
theorem dialogue_eq (c : LoginCase) :
    dialogue c = note (.stage .authorizeGate)
      (if c.finding.unreadable then note (.warning .policyPackage) (gate c) else gate c) := by
  unfold dialogue gate
  cases c.finding.unreadable <;> rfl

theorem course_of_gate (b : Broker σ) (c : LoginCase) (s : σ) :
    Course c (exchanges b ((gate c).run b s).requests s) ((gate c).run b s).result := by
  unfold gate
  cases h : c.authorization with
  | none => exact .denied h
  | some auth => exact course_of_openFor b c h s

theorem course_of_dialogue (b : Broker σ) (c : LoginCase) (s : σ) :
    Course c (exchanges b ((dialogue c).run b s).requests s) ((dialogue c).run b s).result := by
  rw [dialogue_eq, requests_run_note, result_run_note]
  split
  · exact course_of_gate b c s
  · exact course_of_gate b c s

/-- Whether a request is one to grant rights. -/
def isGrant : Request → Bool
  | .grant _ _ _ => true
  | _ => false

/-- A login that opens a session accounts for every grant it submits. -/
theorem Course.applied_add_failed {c : LoginCase} {es : List Exchange} {report : LoginReport}
    (h : Course c es (.ok report)) :
    report.tally.applied + report.tally.failed = (es.map Exchange.request).countP isGrant := by
  cases h with
  | opened h hsid hgranted =>
    rename_i auth sid stored granted
    have hall : ((c.grants auth).map (Request.grant sid · c.call)).countP isGrant =
        granted.length := by
      rw [← List.length_map Exchange.request, hgranted, List.countP_eq_length]
      intro r hr
      obtain ⟨g, -, rfl⟩ := List.mem_map.1 hr
      rfl
    have hsum := Tally.applied_add_failed_count granted
    simp only [Tally.count, Tally.zero, Nat.zero_add] at hsum
    rw [List.map_cons, List.map_cons, List.map_cons, hgranted]
    simpa [List.countP_cons, isGrant, hall] using hsum

/-- A login that opens a session first connects, creates the session and stores the user, and what
it counts as applied are the grants that succeed after that. -/
theorem Course.applied {c : LoginCase} {es : List Exchange} {report : LoginReport}
    (h : Course c es (.ok report)) :
    report.tally.applied = (es.drop 3).countP Exchange.succeeded := by
  cases h with
  | opened => rfl

/-- A login that opens a session skips the files that are no documents. -/
theorem Course.skipped {c : LoginCase} {es : List Exchange} {report : LoginReport}
    (h : Course c es (.ok report)) : report.tally.skipped = c.skippedFiles := by
  cases h with
  | opened => rfl

/-- A grant that is submitted is one of those that the library gives to a user who may log in. -/
theorem Course.exists_of_grant_mem {c : LoginCase} {es : List Exchange}
    {result : Except LoginError LoginReport} (h : Course c es result) {sid : SessionId} {g : Grant}
    {limit : Duration} (hmem : .grant sid g limit ∈ es.map Exchange.request) :
    ∃ auth, c.authorization = some auth ∧ g ∈ c.grants auth := by
  cases h with
  | denied | unconnected | uncreated | unnamed => simp at hmem
  | opened hauth hsid hgranted =>
    rw [List.map_cons, List.map_cons, List.map_cons, hgranted] at hmem
    simp only [List.mem_cons, reduceCtorEq, false_or, List.mem_map, Request.grant.injEq] at hmem
    obtain ⟨g', hg', -, rfl, -⟩ := hmem
    exact ⟨_, hauth, hg'⟩

/-- What a login that succeeds has asked, and which session it has got. -/
theorem opened_of_ok {b : Broker σ} {c : LoginCase} {s : σ} {report : LoginReport}
    (h : ((dialogue c).run b s).result = .ok report) :
    ∃ auth, c.authorization = some auth ∧
      (b.answer (.create c.idle c.call) (b.answer .connect s).2).1 = .ok report.sid ∧
      ((dialogue c).run b s).requests =
        .connect :: .create c.idle c.call :: userRequest c report.sid ::
          grantRequests report.sid c.call (c.grants auth) := by
  have hcourse := course_of_dialogue b c s
  have hrequests := map_request_exchanges b ((dialogue c).run b s).requests s
  generalize hes : exchanges b ((dialogue c).run b s).requests s = es at hcourse hrequests
  rw [h] at hcourse
  cases hcourse with
  | opened hauth hsid hgranted =>
    rw [List.map_cons, List.map_cons, List.map_cons, hgranted] at hrequests
    rw [← hrequests, exchanges_cons, exchanges_cons] at hes
    obtain ⟨-, hcreate, -⟩ := List.cons.inj hes |>.imp_right List.cons.inj
    simp only [Exchange.mk.injEq, heq_eq_eq, true_and] at hcreate
    exact ⟨_, hauth, hcreate, hrequests.symm⟩

/-- A user who may not log in is denied, and nothing is asked of the broker. -/
theorem denied_of_authorization (b : Broker σ) {c : LoginCase} (h : c.authorization = none)
    (s : σ) :
    ((dialogue c).run b s).result = .error (.denied c.user) ∧
      ((dialogue c).run b s).requests = [] := by
  have hcourse := course_of_dialogue b c s
  have hrequests := map_request_exchanges b ((dialogue c).run b s).requests s
  generalize exchanges b ((dialogue c).run b s).requests s = es at hcourse hrequests
  generalize ((dialogue c).run b s).result = result at hcourse ⊢
  cases hcourse with
  | denied => exact ⟨rfl, hrequests.symm⟩
  | unconnected hauth => rw [h] at hauth; cases hauth
  | uncreated hauth => rw [h] at hauth; cases hauth
  | unnamed hauth => rw [h] at hauth; cases hauth
  | opened hauth => rw [h] at hauth; cases hauth

/-- A user who may log in is connected to the broker first. -/
theorem connect_of_authorization (b : Broker σ) {c : LoginCase} {auth : Authorization}
    (h : c.authorization = some auth) (s : σ) :
    ∃ rest, ((dialogue c).run b s).requests = .connect :: rest := by
  have hcourse := course_of_dialogue b c s
  have hrequests := map_request_exchanges b ((dialogue c).run b s).requests s
  generalize exchanges b ((dialogue c).run b s).requests s = es at hcourse hrequests
  generalize ((dialogue c).run b s).result = result at hcourse
  cases hcourse with
  | denied hauth => rw [h] at hauth; cases hauth
  | unconnected => exact ⟨_, hrequests.symm⟩
  | uncreated => exact ⟨_, hrequests.symm⟩
  | unnamed => exact ⟨_, hrequests.symm⟩
  | opened => exact ⟨_, hrequests.symm⟩

/-- A login whose session is created succeeds, whatever the broker answers from then on. -/
theorem ok_of_answers {b : Broker σ} {c : LoginCase} {auth : Authorization} {s : σ}
    {sid : SessionId} (h : c.authorization = some auth) (hsid : sid.text ≠ "")
    (hconnect : (b.answer .connect s).1 = .ok ())
    (hcreate : (b.answer (.create c.idle c.call) (b.answer .connect s).2).1 = .ok sid) :
    ∃ report, ((dialogue c).run b s).result = .ok report ∧ report.sid = sid := by
  have hempty : sid.isEmpty = false := by simpa [SessionId.isEmpty] using hsid
  have hopen : ((openFor c auth).run b s).result =
      .ok ((furnish c auth sid).run b
        (b.answer (.create c.idle c.call) (b.answer .connect s).2).2).result := by
    rw [openFor_eq, result_run_note, result_run_ask, hconnect]
    simp only [result_run_bind, result_run_createSession, requests_run_createSession, hcreate,
      hempty, Bool.false_eq_true, if_false, result_run_map, stateAfter_cons, stateAfter_nil]
  have hgate : ((dialogue c).run b s).result = ((openFor c auth).run b s).result := by
    rw [dialogue_eq, gate, h, result_run_note]
    split <;> rfl
  refine ⟨_, hgate.trans hopen, ?_⟩
  rw [result_run_furnish]

end Login

/-! ## The grants of a library -/

namespace Acl.Library

/-- The grants that the documents of a library give an authorization, path by path. -/
def grants (l : Library) (tree : Tree) (auth : Authorization) : List Grant :=
  match l.paths tree with
  | .ok paths => paths.flatMap fun path =>
    match Document.load tree path with
    | .ok d => expand d auth.allows
    | .error _ => []
  | .error _ => []

/-- The number of paths of a library that lead to no document. -/
def unloadable (l : Library) (tree : Tree) : Nat :=
  match l.paths tree with
  | .ok paths => paths.countP fun path => !(Document.load tree path).isOk
  | .error _ => 0

end Acl.Library

theorem grantsOf_map_load (tree : Tree) (auth : Authorization) (paths : List String) :
    Login.grantsOf auth (paths.map fun path => (Loaded.mk path ·) <$> Document.load tree path) =
      paths.flatMap fun path =>
        match Document.load tree path with
        | .ok d => expand d auth.allows
        | .error _ => [] := by
  induction paths with
  | nil => rfl
  | cons path paths ih =>
    rw [List.map_cons, List.flatMap_cons, ← ih]
    cases Document.load tree path with
    | ok d => exact Login.grantsOf_ok auth _ _
    | error e => exact Login.grantsOf_error auth _ _

theorem length_skipped_map_load (tree : Tree) (paths : List String) :
    (skipped (paths.map fun path => (Loaded.mk path ·) <$> Document.load tree path)).length =
      paths.countP fun path => !(Document.load tree path).isOk := by
  induction paths with
  | nil => rfl
  | cons path paths ih =>
    rw [List.map_cons, List.countP_cons, ← ih]
    cases Document.load tree path <;> rfl

/-- What a login submits is decided by the paths of the library and by what each leads to. -/
theorem grants_prepare (store : Uci.Store) (tree : Tree) (settings : LoginSettings) (user : String)
    (auth : Authorization) :
    (LoginCase.prepare store tree settings user).grants auth =
      settings.library.grants tree auth := by
  unfold LoginCase.prepare LoginCase.grants Library.grants Library.load
  cases settings.library.paths tree with
  | error e => rfl
  | ok paths => exact grantsOf_map_load tree auth paths

theorem skippedFiles_prepare (store : Uci.Store) (tree : Tree) (settings : LoginSettings)
    (user : String) :
    (LoginCase.prepare store tree settings user).skippedFiles =
      settings.library.unloadable tree := by
  unfold LoginCase.prepare LoginCase.skippedFiles Library.unloadable Library.load
  cases settings.library.paths tree with
  | error e => rfl
  | ok paths => exact length_skipped_map_load tree paths

/-- **The protocol of a login.**  Whatever the broker answers, a login makes exactly the requests
of one of the courses and has its result: the grants it submits are those of the documents of the
library in path order, each is counted as applied or as failed, and the files that are no documents
are counted as skipped. -/
theorem login_course (b : Broker σ) (s : σ) (store : Uci.Store) (tree : Tree)
    (settings : LoginSettings) (user : String) :
    let c := LoginCase.prepare store tree settings user
    let o := (Login.dialogue c).run b s
    Login.Course c (exchanges b o.requests s) o.result ∧
      c.user = user ∧ c.authorization = authorizationOf store user ∧
      c.idle = settings.idle ∧ c.call = settings.call ∧
      (∀ auth, c.grants auth = settings.library.grants tree auth) ∧
      c.skippedFiles = settings.library.unloadable tree ∧
      (∀ paths, settings.library.paths tree = .ok paths →
        paths.Pairwise (pathLe · · = true)) ∧
      ∀ report, o.result = .ok report →
        report.tally.applied + report.tally.failed = o.requests.countP Login.isGrant := by
  intro c o
  have hcourse := Login.course_of_dialogue b c s
  refine ⟨hcourse, rfl, rfl, rfl, rfl, grants_prepare store tree settings user,
    skippedFiles_prepare store tree settings user, fun paths => Library.paths_pairwise, ?_⟩
  intro report hreport
  rw [show ((Login.dialogue c).run b s).result = .ok report from hreport] at hcourse
  rw [hcourse.applied_add_failed, map_request_exchanges]

end Gatehouse
