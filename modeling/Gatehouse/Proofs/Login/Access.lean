import Gatehouse.Proofs.Acl.Documents
import Gatehouse.Proofs.Broker.Rights
import Gatehouse.Proofs.Files.Walk
import Gatehouse.Proofs.Login.Course
import Mathlib.Data.List.Permutation

/-!
# What a login gives access to

A login against a broker in memory, from the files of the library to what the session may access.
`access_inMemory_iff` says both ways what that comes to: a session may call a function of an object
in a scope exactly if the JSON value of some loaded file has a block that opens it, for a group and
a level that the authorization of the user allows.
-/

namespace Gatehouse

open Gatehouse.Access Gatehouse.Acl Gatehouse.Broker Gatehouse.Broker.Dialogue Gatehouse.Files

/-! ## Sessions in memory -/

namespace Login

/-- A login against a fresh broker in memory. -/
def inMemory (mint : Nat → SessionId) (c : LoginCase) :
    Outcome LoginEvent (Except LoginError LoginReport) Memory :=
  (dialogue c).run (Memory.broker mint) .fresh

/-- The session of a login in memory holds exactly the grants of the library. -/
theorem session?_inMemory {mint : Nat → SessionId} {c : LoginCase} {report : LoginReport}
    (h : (inMemory mint c).result = .ok report) :
    ∃ auth r, c.authorization = some auth ∧
      (inMemory mint c).state.session? report.sid = some r ∧ r.grants = c.grants auth := by
  obtain ⟨auth, hauth, hcreate, hrequests⟩ := opened_of_ok h
  have hsid : mint 0 = report.sid := Except.ok.inj hcreate
  obtain ⟨m, hm, hfaults, hsession⟩ :=
    Memory.stateAfter_open mint c.idle c.call userKey c.user
  refine ⟨auth, (c.grants auth).foldl SessionRecord.addGrant
    ((SessionRecord.fresh c.idle).setValue userKey c.user), hauth, ?_,
    SessionRecord.grants_foldl_addGrant _ (c.grants auth)⟩
  have hstate : (inMemory mint c).state =
      (Memory.broker mint).stateAfter (grantRequests report.sid c.call (c.grants auth)) m := by
    unfold inMemory
    rw [run_state, hrequests, ← hm, hsid, ← stateAfter_append]
    rfl
  rw [hstate, ← hsid]
  exact Memory.session?_stateAfter_grants mint hfaults hsession c.call (c.grants auth)

theorem faithful_inMemory (mint : Nat → SessionId) (c : LoginCase) :
    (inMemory mint c).state.Faithful := by
  unfold inMemory
  rw [run_state]
  exact Memory.faithful_fresh.stateAfter mint _

/-- A user who may log in does so in memory. -/
theorem exists_inMemory_ok {mint : Nat → SessionId} {c : LoginCase} {auth : Authorization}
    (hauth : c.authorization = some auth) (hmint : (mint 0).text ≠ "") :
    ∃ report, (inMemory mint c).result = .ok report := by
  obtain ⟨report, hreport, -⟩ :=
    ok_of_answers (b := Memory.broker mint) (s := .fresh) hauth hmint rfl rfl
  exact ⟨report, hreport⟩

/-- In memory the session may access what the grants of the library cover. -/
theorem access_inMemory {mint : Nat → SessionId} {c : LoginCase} {auth : Authorization}
    {report : LoginReport} (hauth : c.authorization = some auth)
    (h : (inMemory mint c).result = .ok report) (scope object function : String) :
    (inMemory mint c).state.access report.sid scope object function = true ↔
      ∃ g ∈ c.grants auth, g.Covers scope object function := by
  obtain ⟨auth', r, hauth', hsession, hgrants⟩ := session?_inMemory h
  obtain rfl : auth' = auth := Option.some.inj (hauth'.symm.trans hauth)
  rw [(faithful_inMemory mint c).access_iff hsession, hgrants]

/-- In memory every grant is applied. -/
theorem applied_inMemory {mint : Nat → SessionId} {c : LoginCase} {auth : Authorization}
    {report : LoginReport} (hauth : c.authorization = some auth)
    (h : (inMemory mint c).result = .ok report) :
    report.tally.applied = (c.grants auth).length := by
  obtain ⟨auth', hauth', hcreate, hrequests⟩ := opened_of_ok h
  obtain rfl : auth' = auth := Option.some.inj (hauth'.symm.trans hauth)
  have hsid : mint 0 = report.sid := Except.ok.inj hcreate
  obtain ⟨m, hm, hfaults, hsession⟩ := Memory.stateAfter_open mint c.idle c.call userKey c.user
  have hcourse := course_of_dialogue (Memory.broker mint) c .fresh
  rw [show ((dialogue c).run (Memory.broker mint) .fresh).result = .ok report from h] at hcourse
  have hdrop : (exchanges (Memory.broker mint)
      ((dialogue c).run (Memory.broker mint) .fresh).requests .fresh).drop 3 =
        exchanges (Memory.broker mint) (grantRequests report.sid c.call (c.grants auth')) m := by
    rw [hrequests, ← hm, ← hsid]
    rfl
  rw [hcourse.applied, hdrop]
  calc _ = (exchanges (Memory.broker mint)
        (grantRequests report.sid c.call (c.grants auth')) m).length :=
        List.countP_eq_length.2 (Memory.succeeded_of_mem_exchanges_grants mint hfaults
          (hsid ▸ hsession) c.call (c.grants auth'))
    _ = (c.grants auth').length := by
      rw [← List.length_map Exchange.request, map_request_exchanges, grantRequests,
        List.length_map]

/-- The grants of a login come from the documents of the files that were loaded. -/
theorem mem_grants_iff {c : LoginCase} {auth : Authorization} {g : Grant} :
    g ∈ c.grants auth ↔
      ∃ files l, c.files = .ok files ∧ .ok l ∈ files ∧ g ∈ expand l.document auth.allows := by
  unfold LoginCase.grants
  cases c.files with
  | error e => simp
  | ok files =>
    simp only [grantsOf, List.mem_flatMap, mem_loadable]
    constructor
    · rintro ⟨d, ⟨l, hl, rfl⟩, hg⟩
      exact ⟨files, l, rfl, hl, hg⟩
    · rintro ⟨files', l, heq, hl, hg⟩
      obtain rfl := Except.ok.inj heq
      exact ⟨_, ⟨l, hl, rfl⟩, hg⟩

end Login

/-- **Access after a login, soundness and completeness.**  After a login against a fresh broker in
memory the session may call a function of an object in a scope exactly if some loaded file has a
block, for a group and a level that the user is allowed, that opens it. -/
theorem access_inMemory_iff (mint : Nat → SessionId) (store : Uci.Store) (tree : Tree)
    (settings : LoginSettings) (user : String) (report : LoginReport)
    (h : (Login.inMemory mint (.prepare store tree settings user)).result = .ok report)
    (scope object function : String) :
    (Login.inMemory mint (.prepare store tree settings user)).state.access
        report.sid scope object function = true ↔
      ∃ auth files l v group p scopes,
        authorizationOf store user = some auth ∧
        settings.library.load tree = .ok files ∧ .ok l ∈ files ∧
        Document.value? tree l.path = some v ∧
        auth.allows p group = true ∧ v.block? group p = some (.object scopes) ∧
        Opens group p (.object scopes) object function scope := by
  obtain ⟨auth, r, hauth, hsession, hgrants⟩ := Login.session?_inMemory h
  rw [(Login.faithful_inMemory mint _).access_iff hsession, hgrants]
  constructor
  · rintro ⟨g, hg, hcovers⟩
    obtain ⟨files, l, hfiles, hl, hg⟩ := Login.mem_grants_iff.1 hg
    obtain ⟨entries, hvalue, hd⟩ := Document.load_eq_ok_iff.1 (Library.load_document hfiles hl)
    rw [hd] at hg
    obtain ⟨group, p, scopes, hallowed, hblock, hopens⟩ :=
      (exists_covers_iff_opens (Document.distinct_of_value? hvalue)).1 ⟨g, hg, hcovers⟩
    exact ⟨auth, files, l, .object entries, group, p, scopes, hauth, hfiles, hl, hvalue, hallowed,
      hblock, hopens⟩
  · rintro ⟨auth', files, l, v, group, p, scopes, hauth', hfiles, hl, hvalue, hallowed, hblock,
      hopens⟩
    obtain rfl : auth = auth' := Option.some.inj (hauth.symm.trans hauth')
    obtain ⟨entries, hvalue', hd⟩ :=
      Document.load_eq_ok_iff.1 (Library.load_document hfiles hl)
    obtain rfl : v = .object entries := Option.some.inj (hvalue.symm.trans hvalue')
    obtain ⟨g, hg, hcovers⟩ := (exists_covers_iff_opens (Document.distinct_of_value? hvalue)).2
      ⟨group, p, scopes, hallowed, hblock, hopens⟩
    rw [← hd] at hg
    exact ⟨g, Login.mem_grants_iff.2 ⟨files, l, hfiles, hl, hg⟩, hcovers⟩

/-! A folder with one document, in which a group opens one method of some objects to reading. -/

/-- The text of the document. -/
def sampleText : String :=
  "\x7b\"network\":\x7b\"read\":\x7b\"ubus\":\x7b\"net*\":[\"get\"]\x7d\x7d\x7d\x7d"

/-- The folder. -/
def sampleTree : Tree :=
  Tree.empty.write "acl/network.json" (.file sampleText.toUTF8.toList)

/-- The settings of a login with the documents of that folder. -/
def sampleSettings : LoginSettings :=
  ⟨⟨"acl", "*.json"⟩, .ofSecs 3600, .ofSecs 5⟩

theorem parse_samplePattern : Glob.PathPattern.parse sampleSettings.library.pathPattern =
    .ok ⟨false, false, [.name "acl",
      .wild [.star, .char '.', .char 'j', .char 's', .char 'o', .char 'n']]⟩ := by
  decide +kernel

theorem value?_sampleTree : Document.value? sampleTree "acl/network.json" =
    some (.object [("network",
      .object [("read", .object [("ubus", .object [("net*", .array [.string "get"])])])])]) := by
  have htext : sampleTree.readText "acl/network.json" = .ok sampleText :=
    Tree.readText_of_find? rfl
  unfold Document.value?
  rw [htext]
  cbv

theorem load_sampleTree : sampleSettings.library.load sampleTree = .ok [.ok ⟨"acl/network.json",
    ⟨[⟨"network", none, [⟨.read, [.objects [("net*", ["get"])]]⟩]⟩]⟩⟩] :=
  Library.load_of_value?
    (Library.paths_of_found parse_samplePattern rfl (by decide) (by decide)) value?_sampleTree

theorem access_inMemory_root :
    (Login.inMemory (fun _ => ⟨"s"⟩)
        (.prepare (.ofPackages []) sampleTree sampleSettings "root")).result =
      .ok ⟨⟨"s"⟩, true, ⟨2, 0, 0⟩⟩ ∧
    (Login.inMemory (fun _ => ⟨"s"⟩)
        (.prepare (.ofPackages []) sampleTree sampleSettings "root")).state.access
        ⟨"s"⟩ "ubus" "network" "get" = true := by
  have hok : (Login.inMemory (fun _ => ⟨"s"⟩)
      (.prepare (.ofPackages []) sampleTree sampleSettings "root")).result =
        .ok ⟨⟨"s"⟩, true, ⟨2, 0, 0⟩⟩ := by
    rw [LoginCase.prepare, load_sampleTree]
    rfl
  have hobject : Matches "net*" "network" := by
    unfold Matches
    cbv
  have hfunction : Matches "get" "get" := by
    unfold Matches
    cbv
  refine ⟨hok, (access_inMemory_iff _ _ _ _ _ _ hok _ _ _).2 ?_⟩
  refine ⟨.unrestricted, _, _, _, "network", .read, _, rfl, load_sampleTree,
    List.mem_singleton_self _, value?_sampleTree, rfl, rfl, ?_⟩
  exact .method rfl rfl (List.mem_singleton_self _) hobject hfunction

end Gatehouse
