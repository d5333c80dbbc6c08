import Gatehouse.Broker.Client
import Gatehouse.Proofs.Acl.Request
import Gatehouse.Proofs.Broker.Exchanges

/-!
# What a client program is told

A broker behind a client program turns each request into one run of the program.

* `run_recording` — the runs of a dialogue are its requests, one by one and in order
  (`Request.arguments`), and noting them down changes nothing else.
* `readSet_compact`, `readGrant_compact` — the bodies of the calls say what was asked for: what is
  read from them is the session and the values or the grant that were written.
* `sidOfReply_eq_ok_iff` — which replies name a session.
-/

namespace Gatehouse

namespace Broker

open Gatehouse.Acl

variable {ε α σ : Type}

/-! ## Runs of the program -/

/-- The arguments of the program for a request; `lookupLimit` is the time that connecting may
take. -/
def Request.arguments (lookupLimit : Duration) : Request → List String
  | .connect => lookupArgs lookupLimit
  | .create idle limit => callArgs limit "create" (createBody idle)
  | .set sid key value limit => callArgs limit "set" (setBody sid key value)
  | .grant sid g limit => callArgs limit "grant" (g.request sid)

/-- A run of a program. -/
structure ClientRun where
  /-- The path of the program. -/
  program : String
  /-- The arguments. -/
  arguments : List String
  deriving DecidableEq, Repr

/-- The client program with a path, with all its runs noted down. -/
def Client.recording (client : Client σ) (program : String) : Client (List ClientRun × σ) where
  run arguments s :=
    let (r, s') := client.run arguments s.2
    (r, (s.1 ++ [⟨program, arguments⟩], s'))

/-- A request is one run of the program, and noting it down does not change the answer. -/
theorem answer_recording (client : Client σ) (program : String) (limit : Duration) (r : Request)
    (log : List ClientRun) (s : σ) :
    ((client.recording program).broker program limit).answer r (log, s) =
      (((client.broker program limit).answer r s).1,
        (log ++ [⟨program, r.arguments limit⟩], ((client.broker program limit).answer r s).2)) := by
  cases r <;> rfl

/-- The runs of a dialogue are its requests, and noting them down changes nothing else. -/
theorem Dialogue.run_recording (client : Client σ) (program : String) (limit : Duration)
    (d : Dialogue ε α) (log : List ClientRun) (s : σ) :
    d.run ((client.recording program).broker program limit) (log, s) =
      let o := d.run (client.broker program limit) s
      ⟨o.result, o.events, o.requests,
        (log ++ o.requests.map fun r => ⟨program, r.arguments limit⟩, o.state)⟩ := by
  induction d generalizing log s with
  | done a => simp [run]
  | note e d ih => simp [run, ih]
  | ask r next ih => simp [run, answer_recording, ih]

/-! ## Bodies of calls -/

/-- The session and the values that the body of a call names. -/
def readSet (body : String) : Option (SessionId × List (String × String)) := do
  let v ← (Json.parse (.ofString body)).toOption
  let sid ← (← v.member? "sid").string?
  let values ← (← v.member? "values").object?
  let texts ← values.mapM fun (key, value) => (key, ·) <$> value.string?
  pure (⟨sid⟩, texts)

/-- The session and the grant that the body of a call names. -/
def readGrant (body : String) : Option (SessionId × Grant) := do
  let v ← (Json.parse (.ofString body)).toOption
  let sid ← (← v.member? "sid").string?
  let g ← Grant.ofFields? (← v.member? "scope") (← v.member? "objects")
  pure (⟨sid⟩, g)

/-- The body of the call that creates a session. -/
theorem compact_createBody (idle : Duration) :
    (createBody idle).compact = "\x7b\"timeout\":" ++ toString idle.secs.toNat ++ "\x7d" := by
  have hname : Json.writeString "timeout" = "\"timeout\"".toList := by decide
  have hbrace : "\x7b\"timeout\":".toList = '\x7b' :: ("\"timeout\"".toList ++ [':']) := by decide
  rw [createBody, Json.compact, Json.ofNat, Json.write, Json.writeMembers, Json.write, hname]
  refine String.toList_inj.1 ?_
  rw [String.toList_ofList, String.toList_append, String.toList_append, hbrace]
  simp

/-- What the body of a call that stores a value says. -/
theorem readSet_compact (sid : SessionId) (key value : String) :
    readSet (setBody sid key value).compact = some (sid, [(key, value)]) := by
  have hreadable : (setBody sid key value).Readable Json.depthLimit := by
    refine Json.Readable.object fun e he => ?_
    rcases List.mem_cons.1 he with rfl | he
    · exact .string _
    · obtain rfl := List.mem_singleton.1 he
      refine Json.Readable.object fun e he => ?_
      obtain rfl := List.mem_singleton.1 he
      exact .string _
  rw [readSet, Json.parse_compact hreadable]
  rfl

/-- What the body of a call that grants rights says. -/
theorem readGrant_compact (g : Grant) (sid : SessionId) :
    readGrant (g.request sid).compact = some (sid, g) := by
  have hfields : readGrant (g.request sid).compact =
      (Grant.ofFields? (.string g.scope) g.pairsJson).bind fun g' => some (sid, g') := by
    rw [readGrant, Json.parse_compact (g.readable_request sid)]
    rfl
  rw [hfields, g.ofFields?_pairsJson]
  rfl

/-! ## Replies -/

/-- A reply that names a session: an object with one member under the names that hold the id, or an
array of one item, where the value is a text that is not empty. -/
def NamesSession (stdout : List UInt8) (sid : SessionId) : Prop :=
  sid.text ≠ "" ∧
    ((∃ members name, Json.parseRecord sidNames (Text.scan stdout) = .ok (.named members) ∧
        members.filter (·.1 ∈ sidNames) = [(name, .string sid.text)]) ∨
      Json.parseRecord sidNames (Text.scan stdout) = .ok (.positional [.string sid.text]))

theorem sidOfValue_eq_ok_iff {v : Option Json} {sid : SessionId} :
    sidOfValue v = .ok sid ↔ v = some (.string sid.text) ∧ sid.text ≠ "" := by
  constructor
  · intro h
    unfold sidOfValue at h
    split at h
    · exact absurd h (by simp)
    · exact absurd h (by simp)
    · split at h
      · exact absurd h (by simp)
      · rename_i hne
        obtain rfl := Except.ok.inj h
        exact ⟨rfl, hne⟩
    · exact absurd h (by simp)
  · rintro ⟨rfl, hne⟩
    simp only [sidOfValue, if_neg hne]

/-- Which replies are taken for the id of a session. -/
theorem sidOfReply_eq_ok_iff {stdout : List UInt8} {sid : SessionId} :
    sidOfReply stdout = .ok sid ↔ NamesSession stdout sid := by
  unfold sidOfReply NamesSession
  cases Json.parseRecord sidNames (Text.scan stdout) with
  | error fault => simp
  | ok record =>
    cases record with
    | named members =>
      simp only [Except.ok.injEq, Json.Record.named.injEq, reduceCtorEq, or_false]
      constructor
      · intro h
        split at h
        · rename_i v hv
          obtain ⟨rfl, hne⟩ := sidOfValue_eq_ok_iff.1 h
          obtain ⟨name, hname⟩ := Json.field?_eq_ok_some_iff.1 hv
          exact ⟨hne, members, name, rfl, hname⟩
        · exact absurd h (by simp)
      · rintro ⟨hne, _, name, rfl, hname⟩
        rw [Json.field?_eq_ok_some_iff.2 ⟨name, hname⟩]
        exact sidOfValue_eq_ok_iff.2 ⟨rfl, hne⟩
    | positional items =>
      simp only [Except.ok.injEq, Json.Record.positional.injEq, reduceCtorEq, false_and,
        exists_false, false_or]
      rcases items with _ | ⟨v, _ | ⟨w, items⟩⟩
      · simp
      · simp only [sidOfValue_eq_ok_iff]
        simp [and_comm]
      · simp

variable {client : Client σ} {program : String} {limit lookupLimit : Duration} {s s' : σ}

/-- Connecting succeeds if the program finds the session object. -/
theorem answer_connect {found : ProgramRun}
    (hrun : client.run (lookupArgs lookupLimit) s = (.ok found, s'))
    (hexit : found.exit = .status 0) :
    (client.broker program lookupLimit).answer .connect s = (.ok (), s') := by
  simp only [Client.broker, hrun, lookupResult, hexit, if_true]

/-- A session is created if the program succeeds with a reply that names it. -/
theorem answer_create {created : ProgramRun} {idle : Duration} {sid : SessionId}
    (hrun : client.run (callArgs limit "create" (createBody idle)) s = (.ok created, s'))
    (hexit : created.exit = .status 0) (hsid : NamesSession created.stdout sid) :
    (client.broker program lookupLimit).answer (.create idle limit) s = (.ok sid, s') := by
  have hresult : callResult "create" (.ok created) = .ok created.stdout := by
    simp only [callResult, hexit, if_true]
  have hreply : sidOfReply created.stdout = .ok sid := sidOfReply_eq_ok_iff.2 hsid
  simp only [Client.broker, hrun, hresult]
  exact Prod.ext hreply rfl

end Broker

end Gatehouse
