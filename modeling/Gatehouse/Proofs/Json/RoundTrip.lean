import Gatehouse.Json.Writer
import Gatehouse.Proofs.Json.Grammar

/-!
# Writing JSON and reading it

What is written of a value is one of its texts (`Readable.written`), so it is read back.  That
holds of values that have no numbers and are not nested too deep (`Readable`); a number is kept as
a text, and not every text is one.

* `escapeChar_cases` — the three ways in which a character of a string is written.
* `parse_compact` — the text of a value is read as that value.
* `parseRecord_compact` — the text of an object is read as a record with the fields of the object;
  other members are passed over.
* `space_le_of_mem_write` — a text that is written has no control characters, so it is one line.
-/

namespace Gatehouse.Json

open Reader

/-! ## Strings -/

/-- A character is written with a letter after a backslash, as a code, or as it is. -/
theorem escapeChar_cases (c : Char) :
    (∃ d, d ≠ 'u' ∧ 0x20 ≤ d.toNat ∧ shortEscape? d = some c ∧ escapeChar c = ['\\', d]) ∨
      (c.toNat < 0x20 ∧ escapeChar c =
        ['\\', 'u', '0', '0', hexChar (c.toNat / 16), hexChar (c.toNat % 16)]) ∨
      (c ≠ '"' ∧ c ≠ '\\' ∧ 0x20 ≤ c.toNat ∧ escapeChar c = [c]) := by
  have hshort : ∀ d e : Char, d ≠ 'u' ∧ 0x20 ≤ d.toNat ∧ shortEscape? d = some e →
      escapeChar e = ['\\', d] → c = e →
      ∃ d, d ≠ 'u' ∧ 0x20 ≤ d.toNat ∧ shortEscape? d = some c ∧ escapeChar c = ['\\', d] := by
    rintro d e ⟨hu, hd, he⟩ hesc rfl
    exact ⟨d, hu, hd, he, hesc⟩
  by_cases h1 : c = '"'
  · exact .inl (hshort '"' '"' (by decide) rfl h1)
  by_cases h2 : c = '\\'
  · exact .inl (hshort '\\' '\\' (by decide) rfl h2)
  by_cases h3 : c = '\x08'
  · exact .inl (hshort 'b' '\x08' (by decide) rfl h3)
  by_cases h4 : c = '\x0c'
  · exact .inl (hshort 'f' '\x0c' (by decide) rfl h4)
  by_cases h5 : c = '\n'
  · exact .inl (hshort 'n' '\n' (by decide) rfl h5)
  by_cases h6 : c = '\r'
  · exact .inl (hshort 'r' '\r' (by decide) rfl h6)
  by_cases h7 : c = '\t'
  · exact .inl (hshort 't' '\t' (by decide) rfl h7)
  by_cases h8 : c.toNat < 0x20
  · refine .inr (.inl ⟨h8, ?_⟩)
    rw [escapeChar, if_neg h1, if_neg h2, if_neg h3, if_neg h4, if_neg h5, if_neg h6, if_neg h7,
      if_pos h8]
  · refine .inr (.inr ⟨h1, h2, Nat.le_of_not_lt h8, ?_⟩)
    rw [escapeChar, if_neg h1, if_neg h2, if_neg h3, if_neg h4, if_neg h5, if_neg h6, if_neg h7,
      if_neg h8]

theorem hexValue?_hexChar {n : Nat} (h : n < 16) : hexValue? (hexChar n) = some n := by
  have hall : ∀ k : Fin 16, hexValue? (hexChar k) = some k.val := by decide
  exact hall ⟨n, h⟩

theorem space_le_hexChar {n : Nat} (h : n < 16) : 0x20 ≤ (hexChar n).toNat := by
  have hall : ∀ k : Fin 16, 0x20 ≤ (hexChar k).toNat := by decide
  exact hall ⟨n, h⟩

theorem fourDigits_hexChar {n : Nat} (h : n < 0x20) :
    FourDigits ['0', '0', hexChar (n / 16), hexChar (n % 16)] n := by
  have hzero : hexValue? '0' = some 0 := by decide
  have hdigits := FourDigits.mk hzero hzero (hexValue?_hexChar (n := n / 16) (by omega))
    (hexValue?_hexChar (n := n % 16) (by omega))
  have hvalue : ((0 * 16 + 0) * 16 + n / 16) * 16 + n % 16 = n := by omega
  rwa [hvalue] at hdigits

theorem spelling_escapeChar (c : Char) : Spelling (escapeChar c) c := by
  rcases escapeChar_cases c with ⟨d, -, -, hd, hesc⟩ | ⟨hlt, hesc⟩ | ⟨hquote, hescape, hle, hesc⟩
  · rw [hesc]
    exact .short hd
  · have hhigh : isHighHalf c.toNat = false := by
      simp only [isHighHalf, Bool.and_eq_false_iff, decide_eq_false_iff_not]
      omega
    have hlow : isLowHalf c.toNat = false := by
      simp only [isLowHalf, Bool.and_eq_false_iff, decide_eq_false_iff_not]
      omega
    have hcode := Spelling.code (fourDigits_hexChar hlt) hhigh hlow
    rwa [Char.ofNat_toNat, ← hesc] at hcode
  · rw [hesc]
    exact .plain hquote hescape hle

theorem quoted_writeString (s : String) : Quoted (writeString s) s := by
  have hchars : ∀ cs : List Char, Spelled (cs.flatMap escapeChar) cs := by
    intro cs
    induction cs with
    | nil => exact .nil
    | cons c cs ih => exact .cons (spelling_escapeChar c) ih
  have hquoted := Quoted.mk (hchars s.toList)
  rwa [String.ofList_toList] at hquoted

/-! ## Values -/

theorem separated_map {α β : Type} (text : β → List Char) (g : α → β) (first : α)
    (others : List α) :
    separated text (g first) (others.map g) = separated (fun a => text (g a)) first others := by
  rw [separated, separated, List.flatMap_map]

/-- An item with the text that is written of it. -/
def itemText (v : Json) : List Char × Json :=
  (v.write, v)

theorem writeItems_cons (v : Json) (vs : List Json) :
    writeItems (v :: vs) = separated (fun w => (itemText w).1) v vs := by
  induction vs generalizing v with
  | nil => simp [writeItems, separated, itemText]
  | cons w vs ih =>
    have hstep : writeItems (v :: w :: vs) = (itemText v).1 ++ ',' :: writeItems (w :: vs) := rfl
    rw [hstep, ih, separated, separated, List.flatMap_cons, List.cons_append]

/-- A member with the texts that are written of it. -/
def memberText (e : String × Json) : MemberText :=
  ⟨writeString e.1, e.1, e.2.write, e.2⟩

theorem writeMembers_cons (e : String × Json) (es : List (String × Json)) :
    writeMembers (e :: es) = separated (fun d => (memberText d).text) e es := by
  induction es generalizing e with
  | nil => simp [writeMembers, separated, memberText, MemberText.text]
  | cons d es ih =>
    have hstep : writeMembers (e :: d :: es) =
        (memberText e).text ++ ',' :: writeMembers (d :: es) := by
      simp [writeMembers, memberText, MemberText.text]
    rw [hstep, ih, separated, separated, List.flatMap_cons, List.cons_append]

/-- A value without numbers, in which no more than `room` arrays and objects stand inside each
other. -/
inductive Readable : Nat → Json → Prop where
  | null {room : Nat} : Readable room .null
  | bool {room : Nat} (b : Bool) : Readable room (.bool b)
  | string {room : Nat} (s : String) : Readable room (.string s)
  | array {room : Nat} {items : List Json} (h : ∀ v ∈ items, Readable room v) :
      Readable (room + 1) (.array items)
  | object {room : Nat} {members : List (String × Json)} (h : ∀ e ∈ members, Readable room e.2) :
      Readable (room + 1) (.object members)

/-- What is written of a value is a text of it. -/
theorem Readable.written {room : Nat} {v : Json} (h : Readable room v) :
    Written room v.write v := by
  induction h with
  | null => exact .null
  | bool b => cases b <;> constructor
  | string s => exact .string (quoted_writeString s)
  | @array room vs _ ih =>
    cases vs with
    | nil => exact .noItems blank_nil
    | cons v vs =>
      have hitems : ∀ e ∈ itemText v :: vs.map itemText, Written room e.1 e.2 := by
        intro e he
        have hmap : e ∈ (v :: vs).map itemText := he
        obtain ⟨w, hw, rfl⟩ := List.mem_map.1 hmap
        exact ih w hw
      have hback : (itemText v :: vs.map itemText).map Prod.snd = v :: vs := by
        simp [itemText, Function.comp_def]
      have harray := Written.array hitems
      rw [separated_map, ← writeItems_cons, hback] at harray
      rw [write]
      exact harray
  | @object room es _ ih =>
    cases es with
    | nil => exact .noMembers blank_nil
    | cons e es =>
      have hnames : ∀ m ∈ memberText e :: es.map memberText, NameWritten m.nameText m.name := by
        intro m hm
        have hmap : m ∈ (e :: es).map memberText := hm
        obtain ⟨d, -, rfl⟩ := List.mem_map.1 hmap
        have hname := NameWritten.mk blank_nil (quoted_writeString d.1) blank_nil
        rwa [List.append_nil, List.nil_append] at hname
      have hvalues : ∀ m ∈ memberText e :: es.map memberText, Written room m.valueText m.value := by
        intro m hm
        have hmap : m ∈ (e :: es).map memberText := hm
        obtain ⟨d, hd, rfl⟩ := List.mem_map.1 hmap
        exact ih d hd
      have hback : (memberText e :: es.map memberText).map MemberText.member = e :: es := by
        simp [memberText, MemberText.member, Function.comp_def]
      have hobject := Written.object hnames hvalues
      rw [separated_map, ← writeMembers_cons, hback] at hobject
      rw [write]
      exact hobject

/-- The text of a value is read as that value. -/
theorem parse_compact {v : Json} (h : Readable depthLimit v) :
    Json.parse (.ofString v.compact) = .ok v := by
  rw [Input.ofString, compact, String.toList_ofList]
  exact parse_of_written h.written

/-- The text of an object is read as a record with the fields of the object. -/
theorem parseRecord_compact {es : List (String × Json)} (h : Readable depthLimit (.object es))
    (fields : List String) :
    ∃ ms, Json.parseRecord fields (.ofString (Json.object es).compact) = .ok (.named ms) ∧
      ∀ names : List String, (∀ name ∈ names, name ∈ fields) →
        field? names ms = field? names es := by
  rw [Input.ofString, compact, String.toList_ofList]
  exact parseRecord_of_written h.written fields

/-- Which field a record has under some names. -/
theorem field?_eq_ok_some_iff {names : List String} {members : List (String × Json)} {v : Json} :
    field? names members = .ok (some v) ↔
      ∃ name, members.filter (·.1 ∈ names) = [(name, v)] := by
  unfold field?
  generalize members.filter (·.1 ∈ names) = found
  rcases found with _ | ⟨⟨name, w⟩, _ | ⟨e, es⟩⟩
  · simp
  · simp
  · simp

/-! ## Lines -/

theorem space_le_of_mem_escapeChar {c d : Char} (h : d ∈ escapeChar c) : 0x20 ≤ d.toNat := by
  rcases escapeChar_cases c with ⟨e, -, he, -, hesc⟩ | ⟨hlt, hesc⟩ | ⟨-, -, hle, hesc⟩
  · rw [hesc, List.mem_cons, List.mem_singleton] at h
    rcases h with rfl | rfl
    · decide
    · exact he
  · rw [hesc] at h
    simp only [List.mem_cons, List.not_mem_nil, or_false] at h
    rcases h with rfl | rfl | rfl | rfl | rfl | rfl
    · decide
    · decide
    · decide
    · decide
    · exact space_le_hexChar (by omega)
    · exact space_le_hexChar (by omega)
  · rw [hesc] at h
    obtain rfl := List.mem_singleton.1 h
    exact hle

/-- A character that is written is no control character. -/
theorem space_le_of_mem_writeString {s : String} {d : Char} (h : d ∈ writeString s) :
    0x20 ≤ d.toNat := by
  rw [writeString, List.cons_append, List.mem_cons, List.mem_append, List.mem_singleton] at h
  rcases h with rfl | h | rfl
  · decide
  · obtain ⟨c, -, hd⟩ := List.mem_flatMap.1 h
    exact space_le_of_mem_escapeChar hd
  · decide

theorem mem_writeItems {vs : List Json} {d : Char} (h : d ∈ writeItems vs) :
    d = ',' ∨ ∃ v ∈ vs, d ∈ v.write := by
  cases vs with
  | nil => exact absurd h (by simp [writeItems])
  | cons v vs =>
    rw [writeItems_cons, separated, List.mem_append, List.mem_flatMap] at h
    rcases h with h | ⟨w, hw, h⟩
    · exact .inr ⟨v, List.mem_cons_self, h⟩
    · exact (List.mem_cons.1 h).imp_right fun h => ⟨w, List.mem_cons_of_mem _ hw, h⟩

theorem mem_writeMembers {es : List (String × Json)} {d : Char} (h : d ∈ writeMembers es) :
    d = ',' ∨ ∃ e ∈ es, d ∈ (memberText e).text := by
  cases es with
  | nil => exact absurd h (by simp [writeMembers])
  | cons e es =>
    rw [writeMembers_cons, separated, List.mem_append, List.mem_flatMap] at h
    rcases h with h | ⟨e', he', h⟩
    · exact .inr ⟨e, List.mem_cons_self, h⟩
    · exact (List.mem_cons.1 h).imp_right fun h => ⟨e', List.mem_cons_of_mem _ he', h⟩

/-- The text of a value has no control characters. -/
theorem Readable.space_le_of_mem_write {room : Nat} {v : Json} (h : Readable room v) {d : Char}
    (hd : d ∈ v.write) : 0x20 ≤ d.toNat := by
  induction h generalizing d with
  | null =>
    have hall : (write .null).all (fun c => 0x20 ≤ c.toNat) = true := by decide
    exact of_decide_eq_true (List.all_eq_true.1 hall d hd)
  | bool b =>
    have hall : (write (.bool b)).all (fun c => 0x20 ≤ c.toNat) = true := by cases b <;> decide
    exact of_decide_eq_true (List.all_eq_true.1 hall d hd)
  | string s => exact space_le_of_mem_writeString (by rwa [write] at hd)
  | array hvs ih =>
    rw [write, List.cons_append, List.mem_cons, List.mem_append, List.mem_singleton] at hd
    rcases hd with rfl | hd | rfl
    · decide
    · rcases mem_writeItems hd with rfl | ⟨v, hv, hd⟩
      · decide
      · exact ih v hv hd
    · decide
  | object hes ih =>
    rw [write, List.cons_append, List.mem_cons, List.mem_append, List.mem_singleton] at hd
    rcases hd with rfl | hd | rfl
    · decide
    · rcases mem_writeMembers hd with rfl | ⟨e, he, hd⟩
      · decide
      · rw [MemberText.text, List.mem_append, List.mem_cons] at hd
        rcases hd with hd | rfl | hd
        · exact space_le_of_mem_writeString hd
        · decide
        · exact ih e he hd
    · decide

end Gatehouse.Json
