import Gatehouse.CommandLine.Run
import Gatehouse.Proofs.Broker.Wire
import Gatehouse.Proofs.Login.Access
import Gatehouse.Proofs.Text.Lines

/-!
# Dry runs

A dry run holds the dialogue of a login with a broker in memory and shows what it granted.  The
login itself holds the same dialogue through a client program, and the answers of that program are
not known beforehand.

* `dryRun_of_authorized`, `dryRun_of_denied` — what a dry run shows: the grants of the library, if
  the user may log in.
* `grantLines_dryRun` — each of these grants is on a line of its own.
* `login_recording` — the runs of the client program that a login makes are its requests.

`login_of_dryRun` compares the two: once the session exists, the login makes one call for the user
and one for each grant that the dry run shows, whatever the program answers.
-/

namespace Gatehouse.CommandLine

open Gatehouse.Access Gatehouse.Acl Gatehouse.Broker Gatehouse.Broker.Dialogue Gatehouse.Files

variable {σ : Type} {c : Config} {tree : Tree} {user : String}

/-- What a login knows before it talks to a broker. -/
def loginCase (c : Config) (tree : Tree) (user : String) : LoginCase :=
  .prepare (.ofFolder tree c.paths.uciDir) tree c.login user

theorem loginDialogue_eq (c : Config) (tree : Tree) (user : String) :
    loginDialogue c tree user = Login.dialogue (loginCase c tree user) := rfl

/-- The end of a login that is denied. -/
def denial (user : String) : Result :=
  .failed (.of "Error" (LoginError.denied user))

/-! ## What a dry run shows -/

/-- A dry run for a user who may not log in is denied. -/
theorem dryRun_of_denied (h : (loginCase c tree user).authorization = none) (sid : SessionId) :
    dryRun sid c tree user = denial user := by
  have hresult := (Login.denied_of_authorization (Memory.broker fun _ => sid) h .fresh).1
  unfold dryRun
  rw [loginDialogue_eq]
  simp only [hresult]
  rfl

/-- A dry run for a user who may log in shows the session and the grants of the library. -/
theorem dryRun_of_authorized {auth : Authorization}
    (h : (loginCase c tree user).authorization = some auth) {sid : SessionId}
    (hsid : sid.text ≠ "") :
    dryRun sid c tree user = .success
      (sid.text :: ((loginCase c tree user).grants auth).map fun g => g.toJson.compact) := by
  obtain ⟨report, hresult, hreport⟩ := Login.ok_of_answers
    (b := Memory.broker fun _ => sid) (s := Memory.fresh) h hsid rfl rfl
  obtain ⟨auth', r, hauth, hsession, hgrants⟩ := Login.session?_inMemory hresult
  obtain rfl : auth' = auth := Option.some.inj (hauth.symm.trans h)
  have hshown : (Login.inMemory (fun _ => sid) (loginCase c tree user)).state.grants report.sid =
      (loginCase c tree user).grants auth' := by
    rw [Memory.grants, hsession]
    exact hgrants
  unfold Login.inMemory at hshown
  rw [hreport] at hshown
  unfold dryRun
  rw [loginDialogue_eq]
  simp only [hresult, hreport, hshown]

theorem exists_hexChar_of_mem_hexDigits {n k : Nat} {d : Char}
    (h : d ∈ SessionId.hexDigits n k) : ∃ m < 16, d = Json.hexChar m := by
  induction n generalizing k with
  | zero => exact absurd h List.not_mem_nil
  | succ n ih =>
    rw [SessionId.hexDigits, List.mem_append, List.mem_singleton] at h
    rcases h with h | rfl
    · exact ih h
    · exact ⟨_, Nat.mod_lt k (by decide), rfl⟩

theorem space_le_of_mem_hexDigits {n k : Nat} {d : Char} (h : d ∈ SessionId.hexDigits n k) :
    0x20 ≤ d.toNat := by
  obtain ⟨m, hm, rfl⟩ := exists_hexChar_of_mem_hexDigits h
  exact Json.space_le_hexChar hm

theorem toList_unlines (ls : List String) :
    (unlines ls).toList = Text.ofLines (ls.map String.toList) := by
  rw [unlines, String.toList_join, Text.ofLines, List.flatMap_map, List.flatMap_map]
  simp

/-- The lines on standard output after the first: those of a dry run are its grants. -/
def grantLines (stdout : String) : List String :=
  ((Text.lines stdout.toList).map String.ofList).drop 1

/-- The session and the grants that a dry run shows can be told apart by their lines. -/
theorem writable_of_mem_dryRun {n : Nat} {gs : List Grant} {l : String}
    (h : l ∈ (SessionId.ofNumber n).text :: gs.map fun g => g.toJson.compact) :
    Text.Writable l.toList := by
  refine Text.writable_of_space_le fun d hd => ?_
  rcases List.mem_cons.1 h with rfl | h
  · rw [SessionId.ofNumber, String.toList_ofList] at hd
    exact space_le_of_mem_hexDigits hd
  · obtain ⟨g, -, rfl⟩ := List.mem_map.1 h
    rw [Json.compact, String.toList_ofList] at hd
    exact g.readable_toJson.space_le_of_mem_write hd

/-- The session of a dry run and each of its grants are on a line of their own. -/
theorem lines_dryRun (n : Nat) (gs : List Grant) :
    (Text.lines (unlines ((SessionId.ofNumber n).text ::
        gs.map fun g => g.toJson.compact)).toList).map String.ofList =
      (SessionId.ofNumber n).text :: gs.map fun g => g.toJson.compact := by
  rw [toList_unlines, Text.lines_ofLines]
  · simp
  · intro l hl
    obtain ⟨text, htext, rfl⟩ := List.mem_map.1 hl
    exact writable_of_mem_dryRun htext

/-- The lines after the first are the grants. -/
theorem grantLines_dryRun (n : Nat) (gs : List Grant) :
    grantLines (unlines ((SessionId.ofNumber n).text :: gs.map fun g => g.toJson.compact)) =
      gs.map fun g => g.toJson.compact := by
  rw [grantLines, lines_dryRun]
  rfl

/-! ## What a login tells the client program -/

/-- The requests of a login through a client program. -/
def loginRequests (client : String → Client σ) (c : Config) (tree : Tree) (user : String) (s : σ) :
    List Request :=
  let path := c.broker.clientPath
  ((loginDialogue c tree user).run ((client path).broker path c.callTime) s).requests

/-- The runs of the client program are the requests, and noting them down changes nothing else. -/
theorem login_recording (client : String → Client σ) (log : List ClientRun) (s : σ) :
    login (fun program => (client program).recording program) c tree user (log, s) =
      ((login client c tree user s).1,
        (log ++ (loginRequests client c tree user s).map fun r =>
            ⟨c.broker.clientPath, r.arguments c.callTime⟩,
          (login client c tree user s).2)) := by
  unfold login loginRequests
  simp only [run_recording]
  split <;> rfl

/-- The arguments of a call of the session object; `limit` is the time limit in seconds. -/
def sessionCall (limit method body : String) : List String :=
  ["-t", limit, "call", "session", method, body]

/-- A line of a dry run and the body of a call name the same grant, and the call is for the
session. -/
def Submits (sid : SessionId) (line body : String) : Prop :=
  ∃ g, Grant.parse line = .ok g ∧ readGrant body = some (sid, g)

theorem forall₂_submits (sid : SessionId) (gs : List Grant) :
    List.Forall₂ (Submits sid) (gs.map fun g => g.toJson.compact)
      (gs.map fun g => (g.request sid).compact) := by
  induction gs with
  | nil => exact .nil
  | cons g gs ih => exact .cons ⟨g, g.parse_compact, readGrant_compact g sid⟩ ih

/-- A request of a login is a run that starts with the time limit of its calls. -/
theorem exists_arguments_of_course {case : LoginCase} {es : List Exchange}
    {result : Except LoginError LoginReport} (h : Login.Course case es result) {r : Request}
    (hr : r ∈ es.map Exchange.request) :
    ∃ rest, r.arguments case.call = "-t" :: toString (limitSecs case.call) :: rest := by
  have hconnect : ∃ rest, Request.arguments case.call .connect =
      "-t" :: toString (limitSecs case.call) :: rest := ⟨_, rfl⟩
  have hcreate : ∃ rest, Request.arguments case.call (.create case.idle case.call) =
      "-t" :: toString (limitSecs case.call) :: rest := ⟨_, rfl⟩
  cases h with
  | denied => exact absurd hr List.not_mem_nil
  | unconnected =>
    obtain rfl := List.mem_singleton.1 hr
    exact hconnect
  | uncreated | unnamed =>
    rcases List.mem_cons.1 hr with rfl | hr
    · exact hconnect
    · obtain rfl := List.mem_singleton.1 hr
      exact hcreate
  | opened hauth hsid hgranted =>
    rw [List.map_cons, List.map_cons, List.map_cons, hgranted] at hr
    rcases List.mem_cons.1 hr with rfl | hr
    · exact hconnect
    rcases List.mem_cons.1 hr with rfl | hr
    · exact hcreate
    rcases List.mem_cons.1 hr with rfl | hr
    · exact ⟨_, rfl⟩
    · obtain ⟨g, -, rfl⟩ := List.mem_map.1 hr
      exact ⟨_, rfl⟩

theorem exists_arguments_of_mem_loginRequests (client : String → Client σ) (s : σ) {r : Request}
    (hr : r ∈ loginRequests client c tree user s) :
    ∃ rest, r.arguments c.callTime = "-t" :: toString (limitSecs c.callTime) :: rest := by
  have hcourse := Login.course_of_dialogue
    ((client c.broker.clientPath).broker c.broker.clientPath c.callTime) (loginCase c tree user) s
  refine exists_arguments_of_course hcourse ?_
  rw [map_request_exchanges]
  exact hr

/-- A login that is denied does not run the program. -/
theorem login_of_denied (client : String → Client σ) (s : σ)
    (h : (loginCase c tree user).authorization = none) :
    (login client c tree user s).1 = denial user ∧ loginRequests client c tree user s = [] := by
  obtain ⟨hresult, hrequests⟩ := Login.denied_of_authorization
    ((client c.broker.clientPath).broker c.broker.clientPath c.callTime) h s
  refine ⟨?_, hrequests⟩
  unfold login
  rw [loginDialogue_eq]
  simp only [hresult]
  rfl

/-- A login whose session is created tells its id, and asks for all that the library grants. -/
theorem login_of_created (client : String → Client σ) (s : σ) {auth : Authorization}
    (h : (loginCase c tree user).authorization = some auth) {sid : SessionId} (hsid : sid.text ≠ "")
    {s₁ s₂ : σ}
    (hconnect : ((client c.broker.clientPath).broker c.broker.clientPath c.callTime).answer
      .connect s = (.ok (), s₁))
    (hcreate : ((client c.broker.clientPath).broker c.broker.clientPath c.callTime).answer
      (.create c.idleTime c.callTime) s₁ = (.ok sid, s₂)) :
    (login client c tree user s).1 = ⟨0, sid.text ++ "\n", none⟩ ∧
      loginRequests client c tree user s =
        .connect :: .create c.idleTime c.callTime :: .set sid "user" user c.callTime ::
          ((loginCase c tree user).grants auth).map (.grant sid · c.callTime) := by
  obtain ⟨report, hresult, rfl⟩ := Login.ok_of_answers h hsid (congrArg Prod.fst hconnect)
    (by rw [hconnect]; exact congrArg Prod.fst hcreate)
  obtain ⟨auth', hauth, -, hrequests⟩ := Login.opened_of_ok hresult
  obtain rfl : auth' = auth := Option.some.inj (hauth.symm.trans h)
  refine ⟨?_, hrequests⟩
  unfold login
  rw [loginDialogue_eq]
  simp only [hresult]
  simp [Result.success, unlines]

/-- **The dry run predicts the login.**  A login that the dry run denies is denied, and its client
program is not run.  Otherwise the program is first run to look for the session object.  If that
succeeds, and the session is created with an id, then the login succeeds with that id, and what is
left are one call that stores the user and one call for each grant that the dry run shows, in their
order and whatever the program answers.  All runs have the same time limit. -/
theorem login_of_dryRun (client : String → Client σ) (n : Nat) (c : Config) (tree : Tree)
    (user : String) (s : σ) :
    let dry := dryRun (.ofNumber n) c tree user
    let path := c.broker.clientPath
    let recorded :=
      login (fun program => (client program).recording program) c tree user ([], s)
    let runs := recorded.2.1
    let limit := toString (limitSecs c.callTime)
    let lookup := ["-t", limit, "list", "session"]
    let create := sessionCall limit "create"
      ("\x7b\"timeout\":" ++ toString c.session.timeoutSecs.toNat ++ "\x7d")
    (recorded.1, recorded.2.2) = login client c tree user s ∧
      (∀ run ∈ runs, run.program = path ∧ ∃ rest, run.arguments = "-t" :: limit :: rest) ∧
      (dry = denial user ∧ recorded.1 = denial user ∧ runs = [] ∨
        dry.status = 0 ∧ (∃ later, runs = ⟨path, lookup⟩ :: later) ∧
          ∀ found s₁ created s₂ sid,
            (client path).run lookup s = (.ok found, s₁) → found.exit = .status 0 →
            (client path).run create s₁ = (.ok created, s₂) → created.exit = .status 0 →
            NamesSession created.stdout sid →
            recorded.1 = ⟨0, sid.text ++ "\n", none⟩ ∧
              ∃ body bodies,
                runs = (lookup :: create :: sessionCall limit "set" body ::
                  bodies.map (sessionCall limit "grant")).map (ClientRun.mk path) ∧
                readSet body = some (sid, [("user", user)]) ∧
                List.Forall₂ (Submits sid) (grantLines dry.stdout) bodies) := by
  intro dry path recorded runs limit lookup create
  have hrecorded : recorded = ((login client c tree user s).1,
      ((loginRequests client c tree user s).map fun r => ⟨path, r.arguments c.callTime⟩,
        (login client c tree user s).2)) :=
    login_recording client [] s
  have hresult : recorded.1 = (login client c tree user s).1 := congrArg Prod.fst hrecorded
  have hruns : runs = (loginRequests client c tree user s).map fun r =>
      ⟨path, r.arguments c.callTime⟩ :=
    congrArg (fun x => x.2.1) hrecorded
  refine ⟨?_, ?_, ?_⟩
  · rw [hrecorded]
  · intro run hrun
    rw [hruns] at hrun
    obtain ⟨r, hr, rfl⟩ := List.mem_map.1 hrun
    exact ⟨rfl, exists_arguments_of_mem_loginRequests client s hr⟩
  cases hauth : (loginCase c tree user).authorization with
  | none =>
    obtain ⟨hdenied, hrequests⟩ := login_of_denied client s hauth
    refine .inl ⟨dryRun_of_denied hauth _, hresult.trans hdenied, ?_⟩
    rw [hruns, hrequests]
    rfl
  | some auth =>
    have hdry : dry = .success ((SessionId.ofNumber n).text ::
        ((loginCase c tree user).grants auth).map fun g => g.toJson.compact) :=
      dryRun_of_authorized hauth (SessionId.text_ofNumber_ne n)
    refine .inr ⟨by rw [hdry]; rfl, ?_, ?_⟩
    · obtain ⟨rest, hrest⟩ := Login.connect_of_authorization
        ((client path).broker path c.callTime) hauth s
      have hrequests : loginRequests client c tree user s = .connect :: rest := hrest
      rw [hruns, hrequests]
      exact ⟨_, rfl⟩
    -- What is known of the two first runs says how the broker answers the two first requests; from
    -- then on the requests do not depend on the answers.
    intro found s₁ created s₂ sid hfound hfoundExit hcreated hcreatedExit hsid
    have hcreate : create = callArgs c.callTime "create" (createBody c.idleTime) := by
      rw [callArgs, compact_createBody]
      rfl
    rw [hcreate] at hcreated
    obtain ⟨hok, hrequests⟩ := login_of_created client s hauth hsid.1
      (answer_connect hfound hfoundExit) (answer_create hcreated hcreatedExit hsid)
    refine ⟨hresult.trans hok, (setBody sid "user" user).compact,
      ((loginCase c tree user).grants auth).map fun g => (g.request sid).compact, ?_,
      readSet_compact sid "user" user, ?_⟩
    · rw [hruns, hrequests, hcreate]
      simp [Request.arguments, callArgs, limitArgs, lookupArgs, sessionCall, lookup, limit,
        sessionObject]
    · rw [hdry, Result.success, grantLines_dryRun]
      exact forall₂_submits sid _

/-! A program that creates a session and fails in every call after that. -/

/-- The program. -/
def failingClient : Client Unit where
  run arguments _ :=
    (.ok (match arguments with
      | [_, _, "list", _] => ⟨.status 0, []⟩
      | [_, _, "call", _, "create", _] => ⟨.status 0, "\x7b\"sid\":\"s\"\x7d".toUTF8.toList⟩
      | _ => ⟨.killed, []⟩), ())

/-- Settings with the folder of the sample documents. -/
def sampleConfig : Config :=
  ⟨⟨"acl", "*.json", "/etc/config"⟩, ⟨3600, 1500⟩, ⟨"ubus"⟩⟩

/-- What the sample documents grant with all rights. -/
def sampleGrants : List Grant :=
  [⟨"ubus", [("net*", "get")]⟩, ⟨"luci-ui", [("network", "read")]⟩]

theorem dryRun_sampleTree (n : Nat) :
    dryRun (.ofNumber n) sampleConfig sampleTree "root" = .success
      ((SessionId.ofNumber n).text :: sampleGrants.map fun g => g.toJson.compact) := by
  have hauth : (loginCase sampleConfig sampleTree "root").authorization = some .unrestricted := rfl
  have hgrants : (loginCase sampleConfig sampleTree "root").grants .unrestricted =
      sampleGrants := by
    have hload : sampleConfig.login.library.load sampleTree = _ := load_sampleTree
    unfold loginCase LoginCase.prepare LoginCase.grants
    rw [hload]
    rfl
  rw [dryRun_of_authorized hauth (SessionId.text_ofNumber_ne n), hgrants]

theorem grantLines_sampleTree :
    grantLines (dryRun (.ofNumber 1) sampleConfig sampleTree "root").stdout =
      ["\x7b\"scope\":\"ubus\",\"objects\":[[\"net*\",\"get\"]]\x7d",
        "\x7b\"scope\":\"luci-ui\",\"objects\":[[\"network\",\"read\"]]\x7d"] := by
  rw [dryRun_sampleTree, Result.success, grantLines_dryRun]
  cbv

theorem login_of_dryRun_root :
    grantLines (dryRun (.ofNumber 1) sampleConfig sampleTree "root").stdout =
        ["\x7b\"scope\":\"ubus\",\"objects\":[[\"net*\",\"get\"]]\x7d",
          "\x7b\"scope\":\"luci-ui\",\"objects\":[[\"network\",\"read\"]]\x7d"] ∧
      ∃ body bodies,
        login (fun program => failingClient.recording program) sampleConfig sampleTree "root"
            ([], ()) =
          (⟨0, "s\n", none⟩,
            (["-t", "2", "list", "session"] ::
              sessionCall "2" "create" "\x7b\"timeout\":3600\x7d" :: sessionCall "2" "set" body ::
                bodies.map (sessionCall "2" "grant")).map (ClientRun.mk "ubus"),
            ()) ∧
        readSet body = some (⟨"s"⟩, [("user", "root")]) ∧
        List.Forall₂ (Submits ⟨"s"⟩)
          (grantLines (dryRun (.ofNumber 1) sampleConfig sampleTree "root").stdout) bodies := by
  have hstatus : (dryRun (.ofNumber 1) sampleConfig sampleTree "root").status = 0 := by
    rw [dryRun_sampleTree]
    rfl
  have hreply : NamesSession "\x7b\"sid\":\"s\"\x7d".toUTF8.toList ⟨"s"⟩ :=
    sidOfReply_eq_ok_iff.1 (by decide +kernel)
  obtain ⟨-, -, ⟨hdenied, -⟩ | ⟨-, -, hopened⟩⟩ :=
    login_of_dryRun (fun _ => failingClient) 1 sampleConfig sampleTree "root" ()
  · rw [hdenied] at hstatus
    exact absurd hstatus (by decide)
  · obtain ⟨hresult, body, bodies, hruns, hbody, hbodies⟩ :=
      hopened _ _ _ _ ⟨"s"⟩ rfl rfl rfl rfl hreply
    exact ⟨grantLines_sampleTree, body, bodies, Prod.ext hresult (Prod.ext hruns rfl), hbody, hbodies⟩

end Gatehouse.CommandLine
