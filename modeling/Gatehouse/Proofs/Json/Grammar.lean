import Gatehouse.Proofs.Json.Tokens

/-!
# The grammar of JSON

Which texts are values, without looking at how they are read: `Written` relates a value to its
texts, with space wherever the grammar allows it.  The number in front says how many arrays and
objects may stand inside each other.

Every text of the grammar is read to its end, in front of anything that a number could not go on
with (`Written.exists_reads`): with full rigor as its value, and where only the grammar counts as
some value.
-/

namespace Gatehouse.Json

open Reader

/-! ## Values -/

/-- The texts of elements with commas between them. -/
def separated {α : Type} (text : α → List Char) (first : α) (others : List α) : List Char :=
  text first ++ others.flatMap fun e => ',' :: text e

/-- A member of an object with its texts. -/
structure MemberText where
  /-- The text up to the colon. -/
  nameText : List Char
  /-- The name. -/
  name : String
  /-- The text behind the colon. -/
  valueText : List Char
  /-- The value. -/
  value : Json

/-- The text of a member. -/
def MemberText.text (m : MemberText) : List Char :=
  m.nameText ++ ':' :: m.valueText

/-- The name and the value of a member. -/
def MemberText.member (m : MemberText) : String × Json :=
  (m.name, m.value)

/-- A name in its quotes with space around them. -/
inductive NameWritten : List Char → String → Prop where
  | mk {before text after : List Char} {name : String} (hb : Blank before)
      (h : Quoted text name) (ha : Blank after) : NameWritten (before ++ text ++ after) name

/-- A value as it is written, in which no more than `room` arrays and objects stand inside each
other. -/
inductive Written : Nat → List Char → Json → Prop where
  | null {room : Nat} : Written room ['n', 'u', 'l', 'l'] .null
  | yes {room : Nat} : Written room ['t', 'r', 'u', 'e'] (.bool true)
  | no {room : Nat} : Written room ['f', 'a', 'l', 's', 'e'] (.bool false)
  /-- A number in the range of a double. -/
  | number {room : Nat} {n : Numeral} (h : n.Grammatical) (hrange : n.tooLarge = false) :
      Written room n.text (.number (String.ofList n.text))
  | string {room : Nat} {text : List Char} {s : String} (h : Quoted text s) :
      Written room text (.string s)
  /-- An array without items. -/
  | noItems {room : Nat} {space : List Char} (h : Blank space) :
      Written (room + 1) ('[' :: (space ++ [']'])) (.array [])
  /-- The items of an array with commas between them. -/
  | array {room : Nat} {first : List Char × Json} {others : List (List Char × Json)}
      (h : ∀ e ∈ first :: others, Written room e.1 e.2) :
      Written (room + 1) ('[' :: (separated Prod.fst first others ++ [']']))
        (.array ((first :: others).map Prod.snd))
  /-- An object without members. -/
  | noMembers {room : Nat} {space : List Char} (h : Blank space) :
      Written (room + 1) ('\x7b' :: (space ++ ['}'])) (.object [])
  /-- The members of an object with commas between them. -/
  | object {room : Nat} {first : MemberText} {others : List MemberText}
      (hn : ∀ m ∈ first :: others, NameWritten m.nameText m.name)
      (h : ∀ m ∈ first :: others, Written room m.valueText m.value) :
      Written (room + 1) ('\x7b' :: (separated MemberText.text first others ++ ['}']))
        (.object ((first :: others).map MemberText.member))
  /-- Space around a value. -/
  | spaced {room : Nat} {before text after : List Char} {v : Json} (hb : Blank before)
      (h : Written room text v) (ha : Blank after) : Written room (before ++ text ++ after) v

/-! ## Space before a value -/

theorem value_skipSpace (rigor : Rigor) (room fuel : Nat) (s : Input) :
    value rigor room fuel (skipSpace s) = value rigor room fuel s := by
  cases fuel with
  | zero => rfl
  | succ fuel => rw [value, value, skipSpace_skipSpace]

theorem items_skipSpace (rigor : Rigor) (room : Nat) (first : Bool) (fuel : Nat) (s : Input) :
    items rigor room first fuel (skipSpace s) = items rigor room first fuel s := by
  cases fuel with
  | zero => rfl
  | succ fuel => rw [items, items, skipSpace_skipSpace]

theorem members_skipSpace (rigor : Rigor) (rigorOf : String → Rigor) (room : Nat) (first : Bool)
    (fuel : Nat) (s : Input) :
    members rigor rigorOf room first fuel (skipSpace s) =
      members rigor rigorOf room first fuel s := by
  cases fuel with
  | zero => rfl
  | succ fuel => rw [members, members, skipSpace_skipSpace]

theorem nextItem_skipSpace (rigor : Rigor) (room fuel : Nat) (s : Input) :
    nextItem rigor room fuel (skipSpace s) = nextItem rigor room fuel s := by
  cases fuel with
  | zero => rfl
  | succ fuel => rw [nextItem, nextItem, value_skipSpace]

theorem nextMember_skipSpace (rigor : Rigor) (rigorOf : String → Rigor) (room fuel : Nat)
    (s : Input) :
    nextMember rigor rigorOf room fuel (skipSpace s) = nextMember rigor rigorOf room fuel s := by
  cases fuel with
  | zero => rfl
  | succ fuel => rw [nextMember, nextMember, skipSpace_skipSpace]

/-! ## Reading values -/

/-- A text is read as a value in front of anything that it could not go on with, and space is all
that is left of it. -/
def Reads (rigor : Rigor) (room : Nat) (text : List Char) (w : Json) : Prop :=
  ∀ fuel rest, 2 * text.length ≤ fuel → Next Ends rest →
    ∃ t, value rigor room fuel (text.map some ++ rest) = .ok (w, t) ∧
      skipSpace t = skipSpace rest

/-- What starts a number starts nothing else. -/
theorem ne_of_startsNumber {c : Char} (h : c = '-' ∨ c.isDigit = true) :
    isSpace c = false ∧ c ≠ ']' ∧ c ≠ '"' ∧ c ≠ '[' ∧ c ≠ '\x7b' ∧ c ≠ 'n' ∧ c ≠ 't' ∧ c ≠ 'f' := by
  rcases h with rfl | h
  · decide
  · refine ⟨?_, ?_, ?_, ?_, ?_, ?_, ?_, ?_⟩
    · refine Bool.eq_false_iff.2 fun hspace => ?_
      exact absurd h (by simp [(ends_of_isSpace hspace).1])
    all_goals
      rintro rfl
      exact absurd h (by decide)

section Values

variable {rigor : Rigor} {room : Nat} {text : List Char} {v w : Json}

/-- A text of a value starts with a token, and not with one that ends an array. -/
theorem Written.exists_token (h : Written room text v) :
    ∃ before c cs, Blank before ∧ text = before ++ c :: cs ∧ isSpace c = false ∧ c ≠ ']' := by
  induction h with
  | null => exact ⟨[], _, _, blank_nil, rfl, by decide, by decide⟩
  | yes => exact ⟨[], _, _, blank_nil, rfl, by decide, by decide⟩
  | no => exact ⟨[], _, _, blank_nil, rfl, by decide, by decide⟩
  | number h hrange =>
    obtain ⟨c, cs, htext, hc⟩ := h.exists_cons
    obtain ⟨hspace, hbracket, -⟩ := ne_of_startsNumber hc
    exact ⟨[], c, cs, blank_nil, htext, hspace, hbracket⟩
  | string h =>
    obtain ⟨h⟩ := h
    exact ⟨[], _, _, blank_nil, rfl, by decide, by decide⟩
  | noItems => exact ⟨[], _, _, blank_nil, rfl, by decide, by decide⟩
  | array => exact ⟨[], _, _, blank_nil, rfl, by decide, by decide⟩
  | noMembers => exact ⟨[], _, _, blank_nil, rfl, by decide, by decide⟩
  | object => exact ⟨[], _, _, blank_nil, rfl, by decide, by decide⟩
  | @spaced _ front text back _ hb h ha ih =>
    obtain ⟨before, c, cs, hbefore, rfl, hspace, hbracket⟩ := ih
    exact ⟨front ++ before, c, cs ++ back, List.forall_mem_append.2 ⟨hb, hbefore⟩, by simp, hspace,
      hbracket⟩

/-- Space before a text and behind it makes no difference. -/
theorem Reads.spaced {before after : List Char} (hb : Blank before) (h : Reads rigor room text w)
    (ha : Blank after) : Reads rigor room (before ++ text ++ after) w := by
  intro fuel rest hfuel hrest
  have hlength : 2 * text.length ≤ fuel := by
    simp only [List.length_append] at hfuel
    omega
  have hrest' : Next Ends (after.map some ++ rest) :=
    Next.append (fun c cs hc => ends_of_isSpace (ha c (hc ▸ List.mem_cons_self))) hrest
  obtain ⟨t, hread, ht⟩ := h fuel _ hlength hrest'
  refine ⟨t, ?_, ht.trans (skipSpace_append ha rest)⟩
  rw [← value_skipSpace, List.map_append, List.map_append, List.append_assoc, List.append_assoc,
    skipSpace_append hb, value_skipSpace]
  exact hread

theorem reads_word (hne : text ≠ [])
    (h : ∀ n rest, value rigor room (n + 1) (text.map some ++ rest) = .ok (w, rest)) :
    Reads rigor room text w := by
  intro fuel rest hfuel _
  have hlength := List.length_pos_iff.2 hne
  obtain ⟨n, rfl⟩ : ∃ n, fuel = n + 1 := ⟨fuel - 1, by omega⟩
  exact ⟨rest, h n rest, rfl⟩

theorem reads_number {n : Numeral} (h : n.Grammatical) (hrange : n.tooLarge = false) :
    Reads rigor room n.text (.number (String.ofList n.text)) := by
  intro fuel rest hfuel hrest
  obtain ⟨c, cs, htext, hc⟩ := h.exists_cons
  obtain ⟨hspace, -, hquote, hbracket, hbrace, hn, ht, hf⟩ := ne_of_startsNumber hc
  have hnumber : Reader.number rigor (n.text.map some ++ rest) =
      .ok (.number (String.ofList n.text), rest) := by
    rw [Reader.number, h.read hrest]
    simp only [hrange, Bool.false_eq_true, and_false, if_false]
  refine ⟨rest, ?_, rfl⟩
  rw [htext, List.map_cons, List.cons_append] at hnumber ⊢
  rw [htext, List.length_cons] at hfuel
  obtain ⟨m, rfl⟩ : ∃ m, fuel = m + 1 := ⟨fuel - 1, by omega⟩
  rw [value, skipSpace_of_not_isSpace hspace]
  simp only [if_neg hquote, if_neg hbracket, if_neg hbrace, if_neg hn, if_neg ht, if_neg hf]
  rw [if_pos hc, hnumber]

theorem reads_string {s : String} (h : StringReads rigor text s) :
    Reads rigor room text (.string s) := by
  intro fuel rest hfuel hrest
  obtain ⟨ts, rfl, hread⟩ := h
  rw [List.length_cons] at hfuel
  obtain ⟨m, rfl⟩ : ∃ m, fuel = m + 1 := ⟨fuel - 1, by omega⟩
  refine ⟨rest, ?_, rfl⟩
  rw [List.map_cons, List.cons_append, value, skipSpace_of_not_isSpace (by decide)]
  simp only [if_true, hread]
  rw [← String.ofList_toList (s := s)]
  simp

/-- Behind a text in a list there is a comma or the character that closes the list. -/
theorem next_flatMap {α : Type} (es : List α) (text : α → List Char) (close : Char)
    (h : Ends close) (rest : Input) :
    Next Ends ((es.flatMap fun e => ',' :: text e).map some ++ some close :: rest) := by
  cases es with
  | nil => exact next_cons h rest
  | cons => exact next_cons (by decide) _

/-! ## Reading arrays -/

variable {f : List Char × Json → Json}

/-- Items after the first are read, each behind its comma. -/
theorem items_flatMap {es : List (List Char × Json)} (h : ∀ e ∈ es, Reads rigor room e.1 (f e))
    {fuel : Nat} (rest : Input) (hfuel : 2 * (es.flatMap fun e => ',' :: e.1).length + 1 ≤ fuel) :
    items rigor room false fuel
      ((es.flatMap fun e => ',' :: e.1).map some ++ some ']' :: rest) = .ok (es.map f, rest) := by
  induction es generalizing fuel with
  | nil =>
    obtain ⟨n, rfl⟩ : ∃ n, fuel = n + 1 := ⟨fuel - 1, by omega⟩
    rfl
  | cons e es ih =>
    obtain ⟨he, hes⟩ := List.forall_mem_cons.1 h
    rw [List.flatMap_cons, List.length_append, List.length_cons] at hfuel
    obtain ⟨n, rfl⟩ : ∃ n, fuel = n + 2 := ⟨fuel - 2, by omega⟩
    have htext : ((e :: es).flatMap fun e => ',' :: e.1).map some ++ some ']' :: rest =
        some ',' :: (e.1.map some ++
          ((es.flatMap fun e => ',' :: e.1).map some ++ some ']' :: rest)) := by
      simp
    obtain ⟨t, hread, ht⟩ := he n _ (by omega) (next_flatMap es Prod.fst ']' (by decide) rest)
    have hcomma : some ',' ≠ some ']' := by decide
    rw [htext, items, skipSpace_of_not_isSpace (by decide)]
    simp only [if_neg hcomma, if_true, Bool.false_eq_true, if_false]
    rw [nextItem, hread]
    dsimp only
    rw [← items_skipSpace, ht, items_skipSpace, ih hes (by omega)]
    rfl

/-- The items of an array are read, up to the bracket that closes it. -/
theorem items_cons {first : List Char × Json} {others : List (List Char × Json)}
    (hfirst : Written room first.1 first.2) (h : ∀ e ∈ first :: others, Reads rigor room e.1 (f e))
    {fuel : Nat} (rest : Input)
    (hfuel : 2 * (separated Prod.fst first others).length + 3 ≤ fuel) :
    items rigor room true fuel ((separated Prod.fst first others).map some ++ some ']' :: rest) =
      .ok ((first :: others).map f, rest) := by
  obtain ⟨hread, hothers⟩ := List.forall_mem_cons.1 h
  obtain ⟨n, rfl⟩ : ∃ n, fuel = n + 2 := ⟨fuel - 2, by omega⟩
  rw [separated, List.length_append] at hfuel
  rw [separated, List.map_append, List.append_assoc]
  obtain ⟨t, hvalue, ht⟩ := hread n _ (by omega) (next_flatMap others Prod.fst ']' (by decide) rest)
  obtain ⟨before, c, cs, hbefore, htext, hspace, hbracket⟩ := hfirst.exists_token
  have hbracket' : some c ≠ some ']' := fun h => hbracket (Option.some.inj h)
  have hskip : ∀ s : Input, skipSpace (first.1.map some ++ s) = some c :: (cs.map some ++ s) := by
    intro s
    rw [htext, List.map_append, List.append_assoc, skipSpace_append hbefore, List.map_cons,
      List.cons_append, skipSpace_of_not_isSpace hspace]
  have hnext : nextItem rigor room (n + 1) (some c :: (cs.map some ++
      ((others.flatMap fun e => ',' :: e.1).map some ++ some ']' :: rest))) =
        .ok (f first :: others.map f, rest) := by
    rw [← hskip, nextItem_skipSpace, nextItem, hvalue]
    dsimp only
    rw [← items_skipSpace, ht, items_skipSpace, items_flatMap hothers rest (by omega)]
    rfl
  rw [items, hskip]
  simp only [if_neg hbracket', if_true]
  exact hnext

theorem value_bracket (rigor : Rigor) (room fuel : Nat) (s : Input) :
    value rigor (room + 1) (fuel + 1) (some '[' :: s) =
      (fun (vs, t) => (.array vs, t)) <$> items rigor room true fuel s := by
  have hquote : ('[' : Char) ≠ '"' := by decide
  rw [value, skipSpace_of_not_isSpace (by decide)]
  simp only [if_neg hquote, if_true, Nat.add_sub_cancel]
  rw [if_neg (by simp)]

theorem reads_noItems {space : List Char} (h : Blank space) :
    Reads rigor (room + 1) ('[' :: (space ++ [']'])) (.array []) := by
  intro fuel rest hfuel _
  simp only [List.length_cons, List.length_append] at hfuel
  obtain ⟨n, rfl⟩ : ∃ n, fuel = n + 2 := ⟨fuel - 2, by omega⟩
  have htext : ('[' :: (space ++ [']'])).map some ++ rest =
      some '[' :: (space.map some ++ some ']' :: rest) := by
    simp
  refine ⟨rest, ?_, rfl⟩
  rw [htext, value_bracket, items, skipSpace_append h, skipSpace_of_not_isSpace (by decide)]
  rfl

theorem reads_array {first : List Char × Json} {others : List (List Char × Json)}
    (hfirst : Written room first.1 first.2)
    (h : ∀ e ∈ first :: others, Reads rigor room e.1 (f e)) :
    Reads rigor (room + 1) ('[' :: (separated Prod.fst first others ++ [']']))
      (.array ((first :: others).map f)) := by
  intro fuel rest hfuel _
  rw [List.length_cons, List.length_append, List.length_singleton] at hfuel
  obtain ⟨n, rfl⟩ : ∃ n, fuel = n + 1 := ⟨fuel - 1, by omega⟩
  have htext : ('[' :: (separated Prod.fst first others ++ [']'])).map some ++ rest =
      some '[' :: ((separated Prod.fst first others).map some ++ some ']' :: rest) := by
    simp
  refine ⟨rest, ?_, rfl⟩
  rw [htext, value_bracket, items_cons hfirst h rest (by omega)]
  rfl

/-! ## Reading objects -/

section Members

variable {rigorOf : String → Rigor} {member : MemberText → String × Json}

/-- The text of a member is read as the name and the value of another one. -/
structure MemberReads (rigor : Rigor) (rigorOf : String → Rigor) (room : Nat) (m : MemberText)
    (e : String × Json) : Prop where
  /-- The name is read, and the space around it. -/
  name : ∃ before text after, Blank before ∧ Blank after ∧
    m.nameText = before ++ text ++ after ∧ StringReads rigor text e.1
  /-- The value is read with the rigor that the name asks for. -/
  value : Reads (rigorOf e.1) room m.valueText e.2

/-- A member is read, and then the others. -/
theorem nextMember_append {m : MemberText} {e : String × Json}
    (h : MemberReads rigor rigorOf room m e) {fuel : Nat} {rest : Input}
    (hfuel : 2 * m.text.length ≤ fuel) (hrest : Next Ends rest) :
    nextMember rigor rigorOf room (fuel + 1) (m.text.map some ++ rest) =
      (fun (ms, q) => (e :: ms, q)) <$> members rigor rigorOf room false fuel rest := by
  obtain ⟨before, text, after, hbefore, hafter, hname, ts, rfl, hstring⟩ := h.name
  have hlength : m.valueText.length ≤ m.text.length := by
    simp only [MemberText.text, List.length_append, List.length_cons]
    omega
  obtain ⟨t, hvalue, ht⟩ :=
    h.value fuel rest (Nat.le_trans (Nat.mul_le_mul_left 2 hlength) hfuel) hrest
  have htext : m.text.map some ++ rest = before.map some ++ some '"' :: (ts.map some ++
      (after.map some ++ some ':' :: (m.valueText.map some ++ rest))) := by
    simp [MemberText.text, hname]
  rw [htext, nextMember, skipSpace_append hbefore, skipSpace_of_not_isSpace (by decide)]
  simp only [if_true, hstring, String.ofList_toList]
  rw [skipSpace_append hafter, skipSpace_of_not_isSpace (by decide)]
  simp only [if_true, hvalue]
  rw [← members_skipSpace, ht, members_skipSpace]

/-- Members after the first are read, each behind its comma. -/
theorem members_flatMap {ms : List MemberText}
    (h : ∀ m ∈ ms, MemberReads rigor rigorOf room m (member m)) {fuel : Nat} (rest : Input)
    (hfuel : 2 * (ms.flatMap fun m => ',' :: m.text).length + 1 ≤ fuel) :
    members rigor rigorOf room false fuel
      ((ms.flatMap fun m => ',' :: m.text).map some ++ some '}' :: rest) =
        .ok (ms.map member, rest) := by
  induction ms generalizing fuel with
  | nil =>
    obtain ⟨n, rfl⟩ : ∃ n, fuel = n + 1 := ⟨fuel - 1, by omega⟩
    rfl
  | cons m ms ih =>
    obtain ⟨hm, hms⟩ := List.forall_mem_cons.1 h
    rw [List.flatMap_cons, List.length_append, List.length_cons] at hfuel
    obtain ⟨n, rfl⟩ : ∃ n, fuel = n + 2 := ⟨fuel - 2, by omega⟩
    have htext : ((m :: ms).flatMap fun m => ',' :: m.text).map some ++ some '}' :: rest =
        some ',' :: (m.text.map some ++
          ((ms.flatMap fun m => ',' :: m.text).map some ++ some '}' :: rest)) := by
      simp
    have hcomma : some ',' ≠ some '}' := by decide
    rw [htext, members, skipSpace_of_not_isSpace (by decide)]
    simp only [if_neg hcomma, if_true, Bool.false_eq_true, if_false]
    rw [nextMember_append hm (by omega) (next_flatMap ms MemberText.text '}' (by decide) rest),
      ih hms (by omega)]
    rfl

/-- The members of an object are read, up to the brace that closes it. -/
theorem members_cons {first : MemberText} {others : List MemberText}
    (h : ∀ m ∈ first :: others, MemberReads rigor rigorOf room m (member m)) {fuel : Nat}
    (rest : Input)
    (hfuel : 2 * (separated MemberText.text first others).length + 3 ≤ fuel) :
    members rigor rigorOf room true fuel
      ((separated MemberText.text first others).map some ++ some '}' :: rest) =
        .ok ((first :: others).map member, rest) := by
  obtain ⟨hread, hothers⟩ := List.forall_mem_cons.1 h
  obtain ⟨n, rfl⟩ : ∃ n, fuel = n + 2 := ⟨fuel - 2, by omega⟩
  rw [separated, List.length_append] at hfuel
  rw [separated, List.map_append, List.append_assoc]
  have hnext := nextMember_append hread (by omega : 2 * first.text.length ≤ n)
    (next_flatMap others MemberText.text '}' (by decide) rest)
  rw [members_flatMap hothers rest (by omega)] at hnext
  obtain ⟨before, text, after, hbefore, -, hname, ts, rfl, -⟩ := hread.name
  have hskip : ∀ s : Input, ∃ cs, skipSpace (first.text.map some ++ s) = some '"' :: cs := by
    intro s
    rw [MemberText.text, hname]
    simp only [List.map_append, List.append_assoc, skipSpace_append hbefore]
    exact ⟨_, skipSpace_of_not_isSpace (by decide) _⟩
  have hquote : some '"' ≠ some '}' := by decide
  obtain ⟨cs, hcs⟩ := hskip _
  rw [members, hcs]
  simp only [if_neg hquote, if_true]
  rw [← hcs, nextMember_skipSpace, hnext]
  rfl

theorem value_brace (rigor : Rigor) (room fuel : Nat) (s : Input) :
    value rigor (room + 1) (fuel + 1) (some '\x7b' :: s) =
      (fun (ms, t) => (.object ms, t)) <$> members rigor (fun _ => rigor) room true fuel s := by
  have hquote : ('\x7b' : Char) ≠ '"' := by decide
  have hbracket : ('\x7b' : Char) ≠ '[' := by decide
  rw [value, skipSpace_of_not_isSpace (by decide)]
  simp only [if_neg hquote, if_neg hbracket, if_true, Nat.add_sub_cancel]
  rw [if_neg (by simp)]

/-- The inside of an object without members is read. -/
theorem members_blank {space : List Char} (h : Blank space) (fuel : Nat) (rest : Input) :
    members rigor rigorOf room true (fuel + 1) (space.map some ++ some '}' :: rest) =
      .ok ([], rest) := by
  rw [members, skipSpace_append h, skipSpace_of_not_isSpace (by decide)]
  rfl

theorem reads_noMembers {space : List Char} (h : Blank space) :
    Reads rigor (room + 1) ('\x7b' :: (space ++ ['}'])) (.object []) := by
  intro fuel rest hfuel _
  simp only [List.length_cons, List.length_append] at hfuel
  obtain ⟨n, rfl⟩ : ∃ n, fuel = n + 2 := ⟨fuel - 2, by omega⟩
  have htext : ('\x7b' :: (space ++ ['}'])).map some ++ rest =
      some '\x7b' :: (space.map some ++ some '}' :: rest) := by
    simp
  refine ⟨rest, ?_, rfl⟩
  rw [htext, value_brace, members_blank h]
  rfl

theorem reads_object {first : MemberText} {others : List MemberText}
    (h : ∀ m ∈ first :: others, MemberReads rigor (fun _ => rigor) room m (member m)) :
    Reads rigor (room + 1) ('\x7b' :: (separated MemberText.text first others ++ ['}']))
      (.object ((first :: others).map member)) := by
  intro fuel rest hfuel _
  rw [List.length_cons, List.length_append, List.length_singleton] at hfuel
  obtain ⟨n, rfl⟩ : ∃ n, fuel = n + 1 := ⟨fuel - 1, by omega⟩
  have htext : ('\x7b' :: (separated MemberText.text first others ++ ['}'])).map some ++ rest =
      some '\x7b' :: ((separated MemberText.text first others).map some ++ some '}' :: rest) := by
    simp
  refine ⟨rest, ?_, rfl⟩
  rw [htext, value_brace, members_cons h rest (by omega)]
  rfl

end Members

/-- A name is read, with full rigor as itself. -/
theorem NameWritten.exists_reads {name : String} (h : NameWritten text name) (rigor : Rigor) :
    ∃ name', (rigor = .full → name' = name) ∧ ∃ before quoted after, Blank before ∧ Blank after ∧
      text = before ++ quoted ++ after ∧ StringReads rigor quoted name' := by
  obtain ⟨hb, h, ha⟩ := h
  obtain ⟨name', hname, hread⟩ := h.exists_reads rigor
  exact ⟨name', hname, _, _, _, hb, ha, rfl, hread⟩

/-- Every text of a value is read to its end, with full rigor as the value. -/
theorem Written.exists_reads (h : Written room text v) (rigor : Rigor) :
    ∃ w, (rigor = .full → w = v) ∧ Reads rigor room text w := by
  induction h with
  | null => exact ⟨.null, fun _ => rfl, reads_word (by decide) fun _ _ => rfl⟩
  | yes => exact ⟨.bool true, fun _ => rfl, reads_word (by decide) fun _ _ => rfl⟩
  | no => exact ⟨.bool false, fun _ => rfl, reads_word (by decide) fun _ _ => rfl⟩
  | number h hrange => exact ⟨_, fun _ => rfl, reads_number h hrange⟩
  | string h =>
    obtain ⟨t, ht, hread⟩ := h.exists_reads rigor
    exact ⟨.string t, fun hfull => by rw [ht hfull], reads_string hread⟩
  | noItems h => exact ⟨_, fun _ => rfl, reads_noItems h⟩
  | @array room first others h ih =>
    choose! f hf hread using ih
    refine ⟨.array ((first :: others).map f), fun hfull => ?_, ?_⟩
    · rw [List.map_congr_left fun e he => hf e he hfull]
    · exact reads_array (h first List.mem_cons_self) hread
  | noMembers h => exact ⟨_, fun _ => rfl, reads_noMembers h⟩
  | @object room first others hn _ ih =>
    choose! name hname hnames using fun m hm => (hn m hm).exists_reads rigor
    choose! value hvalue hread using ih
    refine ⟨.object ((first :: others).map fun m => (name m, value m)), fun hfull => ?_, ?_⟩
    · have hmembers : (first :: others).map (fun m => (name m, value m)) =
          (first :: others).map MemberText.member :=
        List.map_congr_left fun m hm => Prod.ext (hname m hm hfull) (hvalue m hm hfull)
      rw [hmembers]
    · exact reads_object fun m hm => ⟨hnames m hm, hread m hm⟩
  | spaced hb _ ha ih =>
    obtain ⟨w, hw, hread⟩ := ih
    exact ⟨w, hw, hread.spaced hb ha⟩

end Values

/-! ## Whole texts -/

/-- A text of a value is read as the value. -/
theorem parse_of_written {text : List Char} {v : Json} (h : Written depthLimit text v) :
    Json.parse (text.map some) = .ok v := by
  obtain ⟨w, hw, hread⟩ := h.exists_reads .full
  obtain rfl := hw rfl
  obtain ⟨t, hvalue, ht⟩ := hread (steps (text.map some)) [] (by simp [steps]; omega)
    (fun _ _ h => absurd h (by simp))
  rw [List.append_nil] at hvalue
  rw [Json.parse, hvalue, complete, ht]
  rfl

/-- The value of a field depends on the members with its names only. -/
theorem field?_congr {names : List String} {ms es : List (String × Json)}
    (h : ms.filter (·.1 ∈ names) = es.filter (·.1 ∈ names)) :
    field? names ms = field? names es := by
  rw [field?, field?, h]

/-- Behind the brace that opens an object, members are read up to the one that closes it.  Where a
name asks for full rigor, they are the members of the object. -/
theorem Written.exists_members {room : Nat} {text : List Char} {es : List (String × Json)}
    (h : Written room text (.object es)) (rigorOf : String → Rigor) :
    ∃ before inside after, Blank before ∧ Blank after ∧
      text = before ++ '\x7b' :: inside ++ after ∧
      ∃ ms, (∀ names : List String, (∀ name ∈ names, rigorOf name = .full) →
          field? names ms = field? names es) ∧
        ∀ fuel rest, 2 * inside.length + 1 ≤ fuel →
          members .full rigorOf (room - 1) true fuel (inside.map some ++ rest) =
            .ok (ms, rest) := by
  generalize hv : Json.object es = v at h
  induction h with
  | null | yes | no | number | string | noItems | array => cases hv
  | @noMembers room space hspace =>
    cases hv
    refine ⟨[], _, [], blank_nil, blank_nil, (List.append_nil _).symm, [], fun _ _ => rfl, ?_⟩
    intro fuel rest hfuel
    obtain ⟨n, rfl⟩ : ∃ n, fuel = n + 1 := ⟨fuel - 1, by omega⟩
    rw [List.map_append, List.append_assoc]
    exact members_blank hspace n rest
  | @object room first others hn hvalues =>
    cases hv
    choose! name hname hnames using fun m hm => (hn m hm).exists_reads .full
    choose! value hvalue hread using fun m hm => (hvalues m hm).exists_reads (rigorOf m.name)
    refine ⟨[], _, [], blank_nil, blank_nil, (List.append_nil _).symm,
      (first :: others).map fun m => (m.name, value m), fun names hfull => ?_, ?_⟩
    · refine field?_congr ?_
      rw [List.filter_map, List.filter_map]
      refine List.map_congr_left fun m hm => ?_
      obtain ⟨hm, hmem⟩ := List.mem_filter.1 hm
      exact Prod.ext rfl (hvalue m hm (hfull _ (of_decide_eq_true hmem)))
    · intro fuel rest hfuel
      rw [List.length_append, List.length_singleton] at hfuel
      rw [List.map_append, List.append_assoc]
      refine members_cons (fun m hm => ⟨?_, hread m hm⟩) rest (by omega)
      have hnames := hnames m hm
      rwa [hname m hm rfl] at hnames
  | @spaced _ front text back v hb _ ha ih =>
    obtain ⟨before, inside, after, hbefore, hafter, rfl, hmembers⟩ := ih hv
    exact ⟨front ++ before, inside, after ++ back, List.forall_mem_append.2 ⟨hb, hbefore⟩,
      List.forall_mem_append.2 ⟨hafter, ha⟩, by simp, hmembers⟩

/-- A text of an object is read as a record with the fields of the object. -/
theorem parseRecord_of_written {text : List Char} {es : List (String × Json)}
    (h : Written depthLimit text (.object es)) (fields : List String) :
    ∃ ms, Json.parseRecord fields (text.map some) = .ok (.named ms) ∧
      ∀ names : List String, (∀ name ∈ names, name ∈ fields) →
        field? names ms = field? names es := by
  obtain ⟨before, inside, after, hbefore, hafter, rfl, ms, hfield, hread⟩ :=
    h.exists_members fun name => if name ∈ fields then .full else .grammar
  refine ⟨ms, ?_, fun names hnames => hfield names fun name hname => if_pos (hnames name hname)⟩
  have htext : (before ++ '\x7b' :: inside ++ after).map some =
      before.map some ++ some '\x7b' :: (inside.map some ++ after.map some) := by
    simp
  have hend : skipSpace (after.map some) = [] := by
    rw [← List.append_nil (after.map some), skipSpace_append hafter]
    rfl
  rw [htext, Json.parseRecord, skipSpace_append hbefore, skipSpace_of_not_isSpace (by decide)]
  simp only [if_true]
  rw [hread _ _ (by simp [steps]; omega)]
  simp only [Except.map, Functor.map, complete, hend, if_true]

end Gatehouse.Json
