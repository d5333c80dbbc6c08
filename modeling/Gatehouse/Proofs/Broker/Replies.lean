import Gatehouse.Proofs.Broker.History
import Gatehouse.Proofs.Broker.Wire
import Gatehouse.Proofs.Json.Accepted
import Gatehouse.Proofs.Login.Course
import Gatehouse.Proofs.Text.Utf8

/-!
# What a reply makes of a session

The program answers a call that creates a session with a text, and any text may come.  If it is an
object, then whatever stands in it, and however it is written, only the members under the two names
of the id count (`idMembers`): one text that is not empty is the id, nothing at all or nothing in
one member means that there is none, and everything else is no answer (`sidOfMembers`).

* `sidOfReply_of_written` — the reply is read as its members say.
* `Login.session_of_request` — a login asks for nothing on a session but on the one that was
  created, and that one has a name.
* `create_reply` — both together: what creating a session answers, and which session a login uses.
-/

namespace Gatehouse

open Gatehouse.Broker

variable {σ : Type}

namespace Broker

/-- The members of an object under the names of the session id. -/
def idMembers (es : List (String × Json)) : List (String × Json) :=
  es.filter fun e => e.1 = "sid" ∨ e.1 = "ubus_rpc_session"

/-- The session id that members under its names give. -/
def sidOfMembers : List (String × Json) → Except BrokerError SessionId
  | [] => .error .noSessionId
  | [(_, v)] => sidOfValue (some v)
  | _ => .error (.invalidReply "create")

theorem filter_sidNames (es : List (String × Json)) :
    es.filter (·.1 ∈ sidNames) = idMembers es := by
  refine List.filter_congr fun e _ => ?_
  simp [sidNames]

/-- An object is read as its members under the names of the id say, whatever else stands in it and
however it is written. -/
theorem sidOfReply_of_written {text : String} {es : List (String × Json)}
    (h : Json.Written Json.depthLimit text.toList (.object es)) :
    sidOfReply text.toUTF8.toList = sidOfMembers (idMembers es) := by
  obtain ⟨ms, hrecord, hfields⟩ := Json.parseRecord_of_written h sidNames
  rw [sidOfReply, Text.toList_toUTF8, Text.scan_flatMap, hrecord]
  simp only [hfields sidNames fun _ h => h]
  rw [Json.field?, filter_sidNames]
  rcases idMembers es with _ | ⟨⟨name, v⟩, _ | ⟨e, es⟩⟩ <;> rfl

section Members

variable {ids : List (String × Json)}

theorem sidOfMembers_eq_ok_iff {sid : SessionId} :
    sidOfMembers ids = .ok sid ↔
      sid.text ≠ "" ∧ ∃ name, ids = [(name, .string sid.text)] := by
  rcases ids with _ | ⟨⟨name, v⟩, _ | ⟨e, es⟩⟩
  · simp [sidOfMembers]
  · rw [sidOfMembers, sidOfValue_eq_ok_iff]
    simp [and_comm]
  · simp [sidOfMembers]

theorem sidOfMembers_eq_noSessionId_iff :
    sidOfMembers ids = .error .noSessionId ↔
      ids = [] ∨ ∃ name, ids = [(name, .null)] ∨ ids = [(name, .string "")] := by
  rcases ids with _ | ⟨⟨name, v⟩, _ | ⟨e, es⟩⟩
  · simp [sidOfMembers]
  · rw [sidOfMembers]
    cases v with
    | null => simp [sidOfValue]
    | string s => by_cases hs : s = "" <;> simp [sidOfValue, hs]
    | bool | number | array | object => simp [sidOfValue]
  · simp [sidOfMembers]

theorem sidOfMembers_eq_invalidReply_iff :
    sidOfMembers ids = .error (.invalidReply "create") ↔
      2 ≤ ids.length ∨ ∃ name v, ids = [(name, v)] ∧ v ≠ .null ∧ ∀ s, v ≠ .string s := by
  rcases ids with _ | ⟨⟨name, v⟩, _ | ⟨e, es⟩⟩
  · simp [sidOfMembers]
  · rw [sidOfMembers]
    cases v with
    | null => simp [sidOfValue]
    | string s => by_cases hs : s = "" <;> simp [sidOfValue, hs]
    | bool | number | array | object => simp [sidOfValue]
  · simp [sidOfMembers]

/-- There are no other outcomes. -/
theorem sidOfMembers_cases (ids : List (String × Json)) :
    (∃ sid, sidOfMembers ids = .ok sid) ∨ sidOfMembers ids = .error .noSessionId ∨
      sidOfMembers ids = .error (.invalidReply "create") := by
  rcases ids with _ | ⟨⟨name, v⟩, _ | ⟨e, es⟩⟩
  · exact .inr (.inl rfl)
  · cases v with
    | null => exact .inr (.inl rfl)
    | string s =>
      by_cases hs : s = ""
      · exact .inr (.inl (by simp [sidOfMembers, sidOfValue, hs]))
      · exact .inl ⟨⟨s⟩, by simp [sidOfMembers, sidOfValue, hs]⟩
    | bool | number | array | object => exact .inr (.inr rfl)
  · exact .inr (.inr rfl)

end Members

/-- What creating a session answers when the program succeeds. -/
theorem answer_create_eq {client : Client σ} {limit idle : Duration} {s s' : σ}
    {stdout : List UInt8} (program : String) (lookupLimit : Duration)
    (hrun : client.run (callArgs limit "create" (createBody idle)) s =
      (.ok ⟨.status 0, stdout⟩, s')) :
    (client.broker program lookupLimit).answer (.create idle limit) s =
      (sidOfReply stdout, s') := by
  simp only [Client.broker, hrun, callResult, if_true]
  rfl

end Broker

namespace Login

variable {c : LoginCase} {r : Request} {sid : SessionId}

/-- The session of a login that succeeds has a name. -/
theorem Course.text_ne {es : List Exchange} {report : LoginReport} (h : Course c es (.ok report)) :
    report.sid.text ≠ "" := by
  cases h with
  | opened _ hsid _ => exact hsid

/-- A login that fails asks for nothing on any session. -/
theorem Course.session?_of_error {es : List Exchange} {e : LoginError}
    (h : Course c es (.error e)) (hr : r ∈ es.map Exchange.request) : r.session? = none := by
  cases h with
  | denied => exact absurd hr List.not_mem_nil
  | unconnected =>
    obtain rfl := List.mem_singleton.1 hr
    rfl
  | uncreated | unnamed =>
    rcases List.mem_cons.1 hr with rfl | hr
    · rfl
    · obtain rfl := List.mem_singleton.1 hr
      rfl

/-- A login asks for nothing on a session but on the one that was created, and that one has a
name. -/
theorem session_of_request {b : Broker σ} {s : σ}
    (hr : r ∈ ((dialogue c).run b s).requests) (hsid : r.session? = some sid) :
    sid.text ≠ "" ∧ (b.answer (.create c.idle c.call) (b.answer .connect s).2).1 = .ok sid := by
  have hcourse := course_of_dialogue b c s
  cases hresult : ((dialogue c).run b s).result with
  | error e =>
    rw [hresult] at hcourse
    have hnone := hcourse.session?_of_error (by rwa [map_request_exchanges])
    rw [hnone] at hsid
    cases hsid
  | ok report =>
    rw [hresult] at hcourse
    obtain ⟨auth, -, hcreate, hrequests⟩ := opened_of_ok hresult
    suffices heq : sid = report.sid by
      rw [heq]
      exact ⟨hcourse.text_ne, hcreate⟩
    rw [hrequests] at hr
    rcases List.mem_cons.1 hr with rfl | hr
    · cases hsid
    rcases List.mem_cons.1 hr with rfl | hr
    · cases hsid
    rcases List.mem_cons.1 hr with rfl | hr
    · exact (Option.some.inj hsid).symm
    · obtain ⟨g, -, rfl⟩ := List.mem_map.1 hr
      exact (Option.some.inj hsid).symm

/-- The session of a login that succeeds is the one that was created. -/
theorem created_of_ok {b : Broker σ} {s : σ} {report : LoginReport}
    (h : ((dialogue c).run b s).result = .ok report) :
    report.sid.text ≠ "" ∧
      (b.answer (.create c.idle c.call) (b.answer .connect s).2).1 = .ok report.sid := by
  obtain ⟨auth, -, -, hrequests⟩ := opened_of_ok h
  have hmem : userRequest c report.sid ∈ ((dialogue c).run b s).requests := by
    simp [hrequests]
  exact session_of_request hmem rfl

end Login

/-- **What a reply makes of a session.**  When the program succeeds with an object, in any spelling
and with any other members, creating a session answers with a text exactly if that is the only
member under the two names of the id and not empty; that there is no id exactly if there is no such
member, or one that is nothing or empty; and that the reply is invalid in all other cases, which
are two such members or more and one of another kind.  A login that hears this answer succeeds only
with the id of the first case, and asks for nothing on any other session. -/
theorem create_reply (client : Client σ) (program : String) (lookupLimit idle limit : Duration)
    (s s' : σ) (text : String) (es : List (String × Json))
    (hrun : client.run (callArgs limit "create" (createBody idle)) s =
      (.ok ⟨.status 0, text.toUTF8.toList⟩, s'))
    (htext : Json.Written Json.depthLimit text.toList (.object es)) :
    let b := client.broker program lookupLimit
    let answer := (b.answer (.create idle limit) s).1
    let ids := es.filter fun e => e.1 = "sid" ∨ e.1 = "ubus_rpc_session"
    (∀ sid, answer = .ok sid ↔ sid.text ≠ "" ∧ ∃ name, ids = [(name, .string sid.text)]) ∧
      (answer = .error .noSessionId ↔
        ids = [] ∨ ∃ name, ids = [(name, .null)] ∨ ids = [(name, .string "")]) ∧
      (answer = .error (.invalidReply "create") ↔
        2 ≤ ids.length ∨ ∃ name v, ids = [(name, v)] ∧ v ≠ .null ∧ ∀ s, v ≠ .string s) ∧
      ((∃ sid, answer = .ok sid) ∨ answer = .error .noSessionId ∨
        answer = .error (.invalidReply "create")) ∧
      ∀ (c : LoginCase) (start : σ), c.idle = idle → c.call = limit →
        (b.answer .connect start).2 = s →
        let o := (Login.dialogue c).run b start
        (∀ report, o.result = .ok report →
          report.sid.text ≠ "" ∧ ∃ name, ids = [(name, .string report.sid.text)]) ∧
        ∀ r ∈ o.requests, ∀ sid, r.session? = some sid →
          sid.text ≠ "" ∧ ∃ name, ids = [(name, .string sid.text)] := by
  intro b answer ids
  have hanswer : answer = sidOfMembers ids := by
    have hcreate := answer_create_eq program lookupLimit hrun
    exact (congrArg Prod.fst hcreate).trans (sidOfReply_of_written htext)
  have hok : ∀ sid, answer = .ok sid ↔
      sid.text ≠ "" ∧ ∃ name, ids = [(name, .string sid.text)] := by
    intro sid
    rw [hanswer, sidOfMembers_eq_ok_iff]
  refine ⟨hok, ?_, ?_, ?_, ?_⟩
  · rw [hanswer, sidOfMembers_eq_noSessionId_iff]
  · rw [hanswer, sidOfMembers_eq_invalidReply_iff]
  · rw [hanswer]
    exact sidOfMembers_cases ids
  · rintro c start rfl rfl rfl
    refine ⟨fun report hreport => ?_, fun r hr sid hsid => ?_⟩
    · exact (hok report.sid).1 (Login.created_of_ok hreport).2
    · exact (hok sid).1 (Login.session_of_request hr hsid).2

/-! A reply in which the names of the id also stand in another member, and the id is written with an
escape. -/

/-- The reply. -/
def escapedReply : String :=
  " \x7b\"data\" : [\x7b\"sid\":null\x7d, false, \"\\\"sid\\\":\"],\t" ++
    "\"ubus_rpc_session\":\"a\\/b\"\x7d\n"

/-- Its members. -/
def escapedMembers : List (String × Json) :=
  [("data", .array [.object [("sid", .null)], .bool false, .string "\"sid\":"]),
    ("ubus_rpc_session", .string "a/b")]

/-- A program that always gives this reply. -/
def escapedClient : Client Unit where
  run _ _ := (.ok ⟨.status 0, escapedReply.toUTF8.toList⟩, ())

theorem parse_escapedReply :
    Json.parse (.ofString escapedReply) = .ok (.object escapedMembers) := by
  cbv

theorem written_escapedReply :
    Json.Written Json.depthLimit escapedReply.toList (.object escapedMembers) := by
  obtain ⟨text, hinput, hwritten⟩ := Json.parse_eq_ok_iff.1 parse_escapedReply
  have htext : escapedReply.toList = text :=
    List.map_injective_iff.2 (fun _ _ => Option.some.inj) hinput
  rwa [htext]

theorem create_reply_escaped :
    ((escapedClient.broker "ubus" .zero).answer (.create .zero .zero) ()).1 = .ok ⟨"a/b"⟩ ∧
      ∀ r ∈ ((Login.dialogue ⟨"root", ⟨none, false⟩, .ok [], .zero, .zero⟩).run
          (escapedClient.broker "ubus" .zero) ()).requests,
        ∀ sid, r.session? = some sid → sid.text ≠ "" := by
  obtain ⟨hok, -, -, -, hlogin⟩ := create_reply escapedClient "ubus" .zero .zero .zero () ()
    escapedReply escapedMembers rfl written_escapedReply
  refine ⟨(hok ⟨"a/b"⟩).2 ⟨by decide, "ubus_rpc_session", by rfl⟩, fun r hr sid hsid => ?_⟩
  exact ((hlogin _ () rfl rfl rfl).2 r hr sid hsid).1

end Gatehouse
