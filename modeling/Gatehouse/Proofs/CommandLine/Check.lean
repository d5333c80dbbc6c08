import Gatehouse.Proofs.CommandLine.DryRun
import Gatehouse.Proofs.Login.Visibility

/-!
# Checks and logins

A check answers for one user, one level and one group, from the policies alone.  A login goes
through all documents and submits what comes of them.

* `check_eq_allowed_iff` — a check allows what the rights of the user cover.
* `mem_grantLines_dryRun_iff` — the lines of a dry run are the grants of the library for the rights
  of the user.
* `grant_mem_loginRequests` — so are the grants that a login submits.

`check_iff_dryRun` puts these side by side.  Where some document shows the group at the level, the
check allows it exactly if a dry run has the line that shows it.  Where none does, no login shows
it, whatever a check says.
-/

namespace Gatehouse.CommandLine

open Gatehouse.Access Gatehouse.Acl Gatehouse.Broker Gatehouse.Broker.Dialogue Gatehouse.Files

variable {σ : Type} {c : Config} {tree : Tree} {user group : String} {p : Permission}

/-- The lines on standard output. -/
def Result.lines (r : Result) : List String :=
  (Text.lines r.stdout.toList).map String.ofList

/-- The line of a dry run that shows a group at a level. -/
def viewLine (group : String) (p : Permission) : String :=
  (Grant.view group p).toJson.compact

/-! ## Checks -/

/-- A check allows exactly what the rights of the user cover. -/
theorem check_eq_allowed_iff :
    check c tree user p group = ⟨0, "allowed\n", none⟩ ↔
      Allowed (.ofFolder tree c.paths.uciDir) user p group := by
  have hcheck : check c tree user p group = ⟨0, "allowed\n", none⟩ ↔
      isAllowed c tree user p group = true := by
    unfold check
    cases isAllowed c tree user p group <;> decide
  rw [hcheck]
  unfold isAllowed Allowed
  cases authorizationOf (.ofFolder tree c.paths.uciDir) user <;> simp

/-! ## Lines of a dry run -/

/-- A grant is on one of the grant lines of a dry run exactly if the user may log in and the library
gives it to him. -/
theorem mem_grantLines_dryRun_iff (n : Nat) {g : Grant} :
    ((dryRun (.ofNumber n) c tree user).status = 0 ∧
        g.toJson.compact ∈ grantLines (dryRun (.ofNumber n) c tree user).stdout) ↔
      ∃ auth, (loginCase c tree user).authorization = some auth ∧
        g ∈ (loginCase c tree user).grants auth := by
  cases hauth : (loginCase c tree user).authorization with
  | none =>
    rw [dryRun_of_denied hauth]
    simp [denial, Result.failed]
  | some auth =>
    rw [dryRun_of_authorized hauth (SessionId.text_ofNumber_ne n), Result.success,
      grantLines_dryRun, List.mem_map]
    constructor
    · rintro ⟨-, g', hg', hcompact⟩
      -- Two grants with the same text are the same, since both are read back from it.
      have hparse : Grant.parse g.toJson.compact = .ok g' := hcompact ▸ g'.parse_compact
      obtain rfl := Except.ok.inj (hparse.symm.trans g.parse_compact)
      exact ⟨auth, rfl, hg'⟩
    · rintro ⟨auth', hauth', hg⟩
      obtain rfl := Option.some.inj hauth'
      exact ⟨rfl, g, hg, rfl⟩

/-- The id of the session of a dry run is not the text of a grant. -/
theorem compact_ne_text_ofNumber (g : Grant) (n : Nat) :
    g.toJson.compact ≠ (SessionId.ofNumber n).text := by
  intro h
  have hbrace : '\x7b' ∈ (SessionId.ofNumber n).text.toList := by
    rw [← h, Json.compact, String.toList_ofList]
    exact List.mem_cons_self
  rw [SessionId.ofNumber, String.toList_ofList] at hbrace
  obtain ⟨m, hm, hchar⟩ := exists_hexChar_of_mem_hexDigits hbrace
  have hall : ∀ m < 16, '\x7b' ≠ Json.hexChar m := by decide
  exact hall m hm hchar

theorem lines_denial (user : String) : (denial user).lines = [] := by
  simp [Result.lines, denial, Result.failed, Text.lines, Text.linesAfter]

theorem lines_success (n : Nat) (gs : List Grant) :
    (Result.success ((SessionId.ofNumber n).text :: gs.map fun g => g.toJson.compact)).lines =
      (SessionId.ofNumber n).text :: gs.map fun g => g.toJson.compact := by
  simp only [Result.lines, Result.success]
  exact lines_dryRun n gs

/-- A grant that is on any line of a dry run is given by the library to a user who may log in. -/
theorem mem_lines_dryRun {n : Nat} {g : Grant}
    (h : g.toJson.compact ∈ (dryRun (.ofNumber n) c tree user).lines) :
    ∃ auth, (loginCase c tree user).authorization = some auth ∧
      g ∈ (loginCase c tree user).grants auth := by
  rw [← mem_grantLines_dryRun_iff n]
  cases hauth : (loginCase c tree user).authorization with
  | none =>
    rw [dryRun_of_denied hauth, lines_denial] at h
    exact absurd h List.not_mem_nil
  | some auth =>
    have hdry : dryRun (.ofNumber n) c tree user = _ :=
      dryRun_of_authorized hauth (SessionId.text_ofNumber_ne n)
    rw [hdry, lines_success] at h
    rw [hdry, Result.success, grantLines_dryRun]
    exact ⟨rfl, (List.mem_cons.1 h).resolve_left (compact_ne_text_ofNumber g n)⟩

/-! ## Logins through the client program -/

/-- A grant that a login submits is given by the library to a user who may log in. -/
theorem grant_mem_loginRequests (client : String → Client σ) (s : σ) {sid : SessionId} {g : Grant}
    {limit : Duration} (h : .grant sid g limit ∈ loginRequests client c tree user s) :
    ∃ auth, (loginCase c tree user).authorization = some auth ∧
      g ∈ (loginCase c tree user).grants auth := by
  have hcourse := Login.course_of_dialogue
    ((client c.broker.clientPath).broker c.broker.clientPath c.callTime) (loginCase c tree user) s
  have hrequests := map_request_exchanges
    ((client c.broker.clientPath).broker c.broker.clientPath c.callTime)
    (loginRequests client c tree user s) s
  rw [← hrequests] at h
  exact hcourse.exists_of_grant_mem h

/-- What a login prints is nothing, or the id of its session. -/
theorem stdout_login (client : String → Client σ) (s : σ) :
    (login client c tree user s).1.stdout = "" ∨
      ∃ sid : SessionId, (login client c tree user s).1.stdout = sid.text ++ "\n" := by
  unfold login
  dsimp only
  split
  · rename_i report _
    exact .inr ⟨report.sid, by simp [Result.success, unlines]⟩
  · exact .inl rfl

/-- The library shows a group at a level and the rights of the user cover it exactly if the grant
that shows it is among those of his login. -/
theorem view_mem_grants_iff {auth : Authorization} :
    Grant.view group p ∈ (loginCase c tree user).grants auth ↔
      c.login.library.Shows tree group p ∧ auth.allows p group = true := by
  unfold loginCase
  rw [mem_grants_view_iff rfl]
  constructor
  · rintro ⟨group', p', hshows, hallowed, hview⟩
    obtain ⟨rfl, rfl⟩ := Grant.view_injective hview
    exact ⟨hshows, hallowed⟩
  · rintro ⟨hshows, hallowed⟩
    exact ⟨group, p, hshows, hallowed, rfl⟩

/-- **A check agrees with the login.**  For a group that some document of the library shows at a
level, a check says that a user is allowed exactly if a dry run of his login succeeds and has the
line that shows the group at that level.  For a group that no document shows at the level, no login
of any user shows it: a dry run has no such line, and a login through the client program does not
submit the grant, and prints nothing but the id of its session. -/
theorem check_iff_dryRun (n : Nat) (c : Config) (tree : Tree) (p : Permission) (group : String) :
    (c.login.library.Shows tree group p → ∀ user,
      (check c tree user p group = ⟨0, "allowed\n", none⟩ ↔
        (dryRun (.ofNumber n) c tree user).status = 0 ∧
          viewLine group p ∈ grantLines (dryRun (.ofNumber n) c tree user).stdout)) ∧
    (¬c.login.library.Shows tree group p → ∀ user,
      viewLine group p ∉ (dryRun (.ofNumber n) c tree user).lines ∧
        ∀ (client : String → Client σ) (s : σ),
          (∀ sid limit, .grant sid (.view group p) limit ∉ loginRequests client c tree user s) ∧
          ((login client c tree user s).1.stdout = "" ∨
            ∃ sid : SessionId, (login client c tree user s).1.stdout = sid.text ++ "\n")) := by
  refine ⟨fun hshows user => ?_, fun hshows user => ⟨fun hline => ?_, fun client s => ⟨?_, ?_⟩⟩⟩
  · rw [check_eq_allowed_iff, viewLine, mem_grantLines_dryRun_iff]
    refine exists_congr fun auth => and_congr_right fun _ => ?_
    rw [view_mem_grants_iff, and_iff_right hshows]
  · obtain ⟨auth, -, hview⟩ := mem_lines_dryRun hline
    exact hshows (view_mem_grants_iff.1 hview).1
  · intro sid limit hrequest
    obtain ⟨auth, -, hview⟩ := grant_mem_loginRequests client s hrequest
    exact hshows (view_mem_grants_iff.1 hview).1
  · exact stdout_login client s

/-- In the library of the sample tree, the group `network` is shown for reading but not for
writing. -/
theorem check_iff_dryRun_network :
    check sampleConfig sampleTree "root" .read "network" = ⟨0, "allowed\n", none⟩ ∧
      check sampleConfig sampleTree "root" .write "network" = ⟨0, "allowed\n", none⟩ ∧
      viewLine "network" .write ∉ (dryRun (.ofNumber 1) sampleConfig sampleTree "root").lines := by
  have hload : sampleConfig.login.library.load sampleTree = _ := load_sampleTree
  have hread : sampleConfig.login.library.Shows sampleTree "network" .read :=
    ⟨_, _, _, _, hload, List.mem_singleton_self _, value?_sampleTree, rfl,
      .inl ⟨_, rfl⟩⟩
  have hwrite : ¬sampleConfig.login.library.Shows sampleTree "network" .write := by
    rintro ⟨files, l, v, scopes, hfiles, hl, hv, hblock, -⟩
    obtain rfl := Except.ok.inj (hload.symm.trans hfiles)
    obtain rfl := Except.ok.inj (List.mem_singleton.1 hl)
    obtain rfl := Option.some.inj (value?_sampleTree.symm.trans hv)
    exact absurd hblock (by rw [show Json.block? _ _ _ = none from rfl]; simp)
  obtain ⟨hshown, -⟩ := @check_iff_dryRun Unit 1 sampleConfig sampleTree .read "network"
  obtain ⟨-, hhidden⟩ := @check_iff_dryRun Unit 1 sampleConfig sampleTree .write "network"
  refine ⟨(hshown hread "root").2 ⟨?_, ?_⟩, ?_, (hhidden hwrite "root").1⟩
  · rw [dryRun_sampleTree]
    rfl
  · rw [dryRun_sampleTree, Result.success, grantLines_dryRun]
    exact List.mem_map_of_mem (List.mem_cons_of_mem _ List.mem_cons_self)
  · rfl

end Gatehouse.CommandLine
