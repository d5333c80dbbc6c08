import Gatehouse.Acl.Grant
import Gatehouse.Proofs.Json.Members
import Gatehouse.Proofs.Json.RoundTrip

/-!
# Grants as text

A grant is written as an object with two members, and the request that submits it as an object with
one member more.  Nothing is lost by that, whatever characters its texts are made of.

* `Grant.parse_of_members` — a grant is read from its two members; others are passed over.
* `Grant.parse_compact` — a grant that is written is read as itself.

`request_readBack` says of a request that its text is one line from which the session and the grant
can be read, so requests with the same text are the same.
-/

namespace Gatehouse.Acl.Grant

variable (g : Grant) (sid : SessionId)

/-! ## What is written -/

/-- What holds of all texts holds of both items of a pair. -/
theorem forall_pair {P : Json → Prop} (h : ∀ s, P (.string s)) (object function : String) :
    ∀ v ∈ [Json.string object, .string function], P v := by
  intro v hv
  rcases List.mem_cons.1 hv with rfl | hv
  · exact h object
  · obtain rfl := List.mem_singleton.1 hv
    exact h function

/-- The pairs of a grant can be read back, also inside other values. -/
theorem readable_pairsJson (room : Nat) : g.pairsJson.Readable (room + 2) := by
  refine Json.Readable.array fun v hv => ?_
  obtain ⟨⟨object, function⟩, -, rfl⟩ := List.mem_map.1 hv
  exact Json.Readable.array (forall_pair .string object function)

/-- So can the members of a grant. -/
theorem readable_fields {e : String × Json}
    (he : e ∈ [("scope", .string g.scope), ("objects", g.pairsJson)]) (room : Nat) :
    e.2.Readable (room + 2) := by
  rcases List.mem_cons.1 he with rfl | he
  · exact .string _
  · obtain rfl := List.mem_singleton.1 he
    exact g.readable_pairsJson room

/-- And those of a request. -/
theorem readable_requestFields {e : String × Json}
    (he : e ∈ [("sid", sid.toJson), ("scope", .string g.scope), ("objects", g.pairsJson)])
    (room : Nat) : e.2.Readable (room + 2) := by
  rcases List.mem_cons.1 he with rfl | he
  · exact .string _
  · exact g.readable_fields he room

theorem readable_toJson : g.toJson.Readable Json.depthLimit :=
  Json.Readable.object fun _ he => g.readable_fields he _

theorem readable_request : (g.request sid).Readable Json.depthLimit :=
  Json.Readable.object fun _ he => g.readable_requestFields sid he _

theorem distinct_pairsJson : g.pairsJson.Distinct := by
  refine Json.Distinct.array fun v hv => ?_
  obtain ⟨⟨object, function⟩, -, rfl⟩ := List.mem_map.1 hv
  exact Json.Distinct.array (forall_pair .string object function)

/-- No object of a request has a name twice. -/
theorem distinct_request : (g.request sid).Distinct := by
  refine Json.Distinct.object (show ["sid", "scope", "objects"].Nodup by decide) fun e he => ?_
  rcases List.mem_cons.1 he with rfl | he
  · exact .string _
  rcases List.mem_cons.1 he with rfl | he
  · exact .string _
  obtain rfl := List.mem_singleton.1 he
  exact g.distinct_pairsJson

/-! ## What is read -/

/-- The fields of a grant give it back. -/
theorem ofFields?_pairsJson : ofFields? (.string g.scope) g.pairsJson = some g := by
  have hpairs : ∀ pairs : List (String × String),
      (pairs.map fun p => Json.array [.string p.1, .string p.2]).mapM pair? = some pairs := by
    intro pairs
    induction pairs with
    | nil => rfl
    | cons pair pairs ih => rw [List.map_cons, List.mapM_cons, ih]; rfl
  have hobjects : g.pairsJson.array? =
      some (g.pairs.map fun p => .array [.string p.1, .string p.2]) := rfl
  rw [ofFields?, hobjects]
  simp [Json.string?, hpairs]

/-- A grant is read from its two members, whatever other members stand around them. -/
theorem parse_of_members {es : List (String × Json)}
    (hreadable : (Json.object es).Readable Json.depthLimit)
    (hscope : es.filter (·.1 ∈ ["scope"]) = [("scope", .string g.scope)])
    (hobjects : es.filter (·.1 ∈ ["objects"]) = [("objects", g.pairsJson)]) :
    Grant.parse (Json.object es).compact = .ok g := by
  obtain ⟨ms, hrecord, hfields⟩ := Json.parseRecord_compact hreadable ["scope", "objects"]
  have hfield : ∀ {name : String} {v : Json}, name ∈ ["scope", "objects"] →
      es.filter (·.1 ∈ [name]) = [(name, v)] → Json.field? [name] ms = .ok (some v) := by
    intro name v hname honce
    rw [hfields [name] (List.forall_mem_singleton.2 hname)]
    exact Json.field?_eq_ok_some_iff.2 ⟨name, honce⟩
  have hgrant : ofRecord? (.named ms) = some g := by
    rw [ofRecord?, hfield (by decide) hscope, hfield (by decide) hobjects]
    exact g.ofFields?_pairsJson
  rw [Grant.parse, hrecord]
  simp only [hgrant]

/-- A grant that is written is read as itself. -/
theorem parse_compact : Grant.parse g.toJson.compact = .ok g :=
  g.parse_of_members g.readable_toJson rfl rfl

/-- A grant is read from the request that submits it. -/
theorem parse_compact_request : Grant.parse (g.request sid).compact = .ok g :=
  g.parse_of_members (g.readable_request sid) rfl rfl

/-- The text of a request has no control characters. -/
theorem space_le_of_mem_request {c : Char} (h : c ∈ (g.request sid).compact.toList) :
    0x20 ≤ c.toNat := by
  rw [Json.compact, String.toList_ofList] at h
  exact (g.readable_request sid).space_le_of_mem_write h

/-- A request is read as itself, by the reader that resolves repeated names too. -/
theorem settled_parse_request :
    Json.settled <$> Json.parse (.ofString (g.request sid).compact) = .ok (g.request sid) := by
  rw [Json.parse_compact (g.readable_request sid)]
  exact congrArg Except.ok (g.distinct_request sid).settled_eq

/-- **The text of a request loses nothing.**  It is one line without control characters.  It is read
as an object with the session, the scope and the pairs, in this order; a reader that only looks for
the grant finds exactly the grant, as it does in the text of the grant alone.  So two requests that
have the same text are for the same session and the same grant. -/
theorem request_readBack :
    (∀ c ∈ (g.request sid).compact.toList, 0x20 ≤ c.toNat) ∧
      Json.settled <$> Json.parse (.ofString (g.request sid).compact) =
        .ok (.object [("sid", .string sid.text), ("scope", .string g.scope),
          ("objects", g.pairsJson)]) ∧
      Grant.parse (g.request sid).compact = .ok g ∧
      Grant.parse g.toJson.compact = .ok g ∧
      ∀ (g' : Grant) (sid' : SessionId),
        (g'.request sid').compact = (g.request sid).compact ↔ g' = g ∧ sid' = sid := by
  refine ⟨fun c hc => g.space_le_of_mem_request sid hc, g.settled_parse_request sid,
    g.parse_compact_request sid, g.parse_compact, fun g' sid' => ⟨fun h => ?_, ?_⟩⟩
  · -- Both the grant and the session can be read from the common text.
    have hgrant : Grant.parse (g.request sid).compact = .ok g' := h ▸ g'.parse_compact_request sid'
    have hvalue : Json.settled <$> Json.parse (.ofString (g.request sid).compact) =
        .ok (g'.request sid') := h ▸ g'.settled_parse_request sid'
    rw [parse_compact_request] at hgrant
    rw [settled_parse_request] at hvalue
    have hmembers := Json.object.inj (Except.ok.inj hvalue)
    have hsid : sid.toJson = sid'.toJson := congrArg Prod.snd (List.cons.inj hmembers).1
    obtain ⟨text⟩ := sid
    obtain ⟨text'⟩ := sid'
    exact ⟨(Except.ok.inj hgrant).symm, congrArg SessionId.mk (Json.string.inj hsid).symm⟩
  · rintro ⟨rfl, rfl⟩
    rfl

example : (request ⟨"ubus", [("a\"b", "\n\x01")]⟩ ⟨"s\\"⟩).compact =
    "\x7b\"sid\":\"s\\\\\",\"scope\":\"ubus\",\"objects\":[[\"a\\\"b\",\"\\n\\u0001\"]]\x7d" := by
  decide

end Gatehouse.Acl.Grant
