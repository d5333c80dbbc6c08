import Gatehouse.Proofs.Json.Grammar

/-!
# Which texts are accepted

Reading with full rigor accepts nothing but the texts of the grammar, and gives the value of each
(`parse_eq_ok_iff`).

Items and members stand in lists of the same form, an element and then others behind commas.
`Listed` describes such a list up to the character that closes it, `ListedBehind` what is left of
it behind an element; the space around the commas counts as part of the elements.  `Accepts` says
of each of the readers that what it reads has the form it should have, and it holds for any number
of steps because it holds for one more (`Accepts.succ`).
-/

namespace Gatehouse.Json

open Reader

/-! ## Lists of elements -/

section Lists

variable {α β : Type}

/-- Elements with their texts and what they stand for. -/
structure ElementKind (α β : Type) where
  /-- Whether a text is one of the element. -/
  good : α → Prop
  /-- The text. -/
  text : α → List Char
  /-- What it stands for. -/
  value : α → β
  /-- The character that closes a list of such elements. -/
  close : Char

/-- The items of an array, in which no more than `room` arrays and objects stand inside each
other. -/
def itemKind (room : Nat) : ElementKind (List Char × Json) Json :=
  ⟨fun e => Written room e.1 e.2, Prod.fst, Prod.snd, ']'⟩

/-- The members of an object, likewise. -/
def memberKind (room : Nat) : ElementKind MemberText (String × Json) :=
  ⟨fun m => NameWritten m.nameText m.name ∧ Written room m.valueText m.value, MemberText.text,
    MemberText.member, '}'⟩

variable {kind : ElementKind α β} {s t : Input} {v : β} {vs : List β}

/-- Elements with commas between them, up to the character that closes the list. -/
def Listed (kind : ElementKind α β) (s : Input) (vs : List β) (t : Input) : Prop :=
  ∃ (first : α) (others : List α), (∀ e ∈ first :: others, kind.good e) ∧
    (first :: others).map kind.value = vs ∧
    s = (separated kind.text first others).map some ++ some kind.close :: t

/-- Elements behind commas, perhaps none, after some space, up to the character that closes the
list. -/
def ListedBehind (kind : ElementKind α β) (s : Input) (vs : List β) (t : Input) : Prop :=
  ∃ (space : List Char) (others : List α), Blank space ∧ (∀ e ∈ others, kind.good e) ∧
    others.map kind.value = vs ∧
    s = (space ++ others.flatMap fun e => ',' :: kind.text e).map some ++ some kind.close :: t

theorem listedBehind_nil {space : List Char} (h : Blank space) (t : Input) :
    ListedBehind kind (space.map some ++ some kind.close :: t) [] t :=
  ⟨space, [], h, fun _ he => absurd he List.not_mem_nil, rfl, by simp⟩

theorem Listed.behind_comma {space : List Char} (hspace : Blank space) (h : Listed kind s vs t) :
    ListedBehind kind (space.map some ++ some ',' :: s) vs t := by
  obtain ⟨first, others, hgood, rfl, rfl⟩ := h
  exact ⟨space, first :: others, hspace, hgood, rfl, by simp [separated]⟩

/-- An element, whose text may be followed by space, and others behind it. -/
theorem ListedBehind.cons {text : List Char} (h : ListedBehind kind s vs t)
    (he : ∀ after, Blank after → ∃ e, kind.good e ∧ kind.value e = v ∧
      kind.text e = text ++ after) :
    Listed kind (text.map some ++ s) (v :: vs) t := by
  obtain ⟨space, others, hspace, hgood, rfl, rfl⟩ := h
  obtain ⟨e, hegood, rfl, htext⟩ := he space hspace
  exact ⟨e, others, List.forall_mem_cons.2 ⟨hegood, hgood⟩, rfl, by simp [separated, htext]⟩

/-- Space in front of a list belongs to its first element. -/
theorem Listed.after_blank {space : List Char} (h : Listed kind s vs t)
    (hspace : ∀ e, kind.good e → ∃ e', kind.good e' ∧ kind.value e' = kind.value e ∧
      kind.text e' = space ++ kind.text e) :
    Listed kind (space.map some ++ s) vs t := by
  obtain ⟨first, others, hgood, rfl, rfl⟩ := h
  obtain ⟨hfirst, hothers⟩ := List.forall_mem_cons.1 hgood
  obtain ⟨e, hegood, hvalue, htext⟩ := hspace first hfirst
  exact ⟨e, others, List.forall_mem_cons.2 ⟨hegood, hothers⟩, by simp [hvalue],
    by simp [separated, htext]⟩

theorem itemKind_after_blank {room : Nat} {space : List Char} (hspace : Blank space)
    (e : List Char × Json) (h : (itemKind room).good e) :
    ∃ e', (itemKind room).good e' ∧ (itemKind room).value e' = (itemKind room).value e ∧
      (itemKind room).text e' = space ++ (itemKind room).text e := by
  refine ⟨(space ++ e.1, e.2), ?_, rfl, rfl⟩
  have hspaced := Written.spaced hspace h blank_nil
  rwa [List.append_nil] at hspaced

theorem memberKind_after_blank {room : Nat} {space : List Char} (hspace : Blank space)
    (m : MemberText) (h : (memberKind room).good m) :
    ∃ m', (memberKind room).good m' ∧ (memberKind room).value m' = (memberKind room).value m ∧
      (memberKind room).text m' = space ++ (memberKind room).text m := by
  obtain ⟨hname, hvalue⟩ := h
  refine ⟨{ m with nameText := space ++ m.nameText }, ⟨?_, hvalue⟩, rfl, List.append_assoc _ _ _⟩
  obtain ⟨nameText, name, valueText, value⟩ := m
  obtain ⟨hb, hquoted, ha⟩ := hname
  have hnamed := NameWritten.mk (List.forall_mem_append.2 ⟨hspace, hb⟩) hquoted ha
  simpa using hnamed

end Lists

/-! ## One step of each reader -/

/-- What is read with so many steps has the form that it should have. -/
structure Accepts (fuel : Nat) : Prop where
  value : ∀ {room s v t}, value .full room fuel s = .ok (v, t) →
    ∃ text, Written room text v ∧ s = text.map some ++ t
  items : ∀ {room s vs t}, items .full room true fuel s = .ok (vs, t) →
    (vs = [] ∧ ∃ space, Blank space ∧ s = space.map some ++ some ']' :: t) ∨
      Listed (itemKind room) s vs t
  itemsBehind : ∀ {room s vs t}, Reader.items .full room false fuel s = .ok (vs, t) →
    ListedBehind (itemKind room) s vs t
  nextItem : ∀ {room s vs t}, nextItem .full room fuel s = .ok (vs, t) →
    Listed (itemKind room) s vs t
  members : ∀ {room s ms t}, members .full (fun _ => .full) room true fuel s = .ok (ms, t) →
    (ms = [] ∧ ∃ space, Blank space ∧ s = space.map some ++ some '}' :: t) ∨
      Listed (memberKind room) s ms t
  membersBehind : ∀ {room s ms t},
    Reader.members .full (fun _ => .full) room false fuel s = .ok (ms, t) →
    ListedBehind (memberKind room) s ms t
  nextMember : ∀ {room s ms t}, nextMember .full (fun _ => .full) room fuel s = .ok (ms, t) →
    Listed (memberKind room) s ms t

theorem accepts_zero : Accepts 0 where
  value h := by cases h
  items h := by cases h
  itemsBehind h := by cases h
  nextItem h := by cases h
  members h := by cases h
  membersBehind h := by cases h
  nextMember h := by cases h

section Step

variable {fuel room : Nat} {s t : Input} (ih : Accepts fuel)

include ih

/-- The inside of an array makes it an array. -/
theorem Accepts.array {vs : List Json} (h : Reader.items .full room true fuel s = .ok (vs, t)) :
    ∃ text, Written (room + 1) text (.array vs) ∧ some '[' :: s = text.map some ++ t := by
  rcases ih.items h with ⟨rfl, space, hspace, rfl⟩ | ⟨first, others, hgood, rfl, rfl⟩
  · exact ⟨_, .noItems hspace, by simp⟩
  · exact ⟨_, .array hgood, by simp [itemKind]⟩

/-- The inside of an object makes it an object. -/
theorem Accepts.object {ms : List (String × Json)}
    (h : Reader.members .full (fun _ => .full) room true fuel s = .ok (ms, t)) :
    ∃ text, Written (room + 1) text (.object ms) ∧ some '\x7b' :: s = text.map some ++ t := by
  rcases ih.members h with ⟨rfl, space, hspace, rfl⟩ | ⟨first, others, hgood, rfl, rfl⟩
  · exact ⟨_, .noMembers hspace, by simp⟩
  · exact ⟨_, .object (fun m hm => (hgood m hm).1) (fun m hm => (hgood m hm).2),
      by simp [memberKind]⟩

theorem Accepts.value_succ {v : Json} (h : Reader.value .full room (fuel + 1) s = .ok (v, t)) :
    ∃ text, Written room text v ∧ s = text.map some ++ t := by
  obtain ⟨space, hspace, hs⟩ := exists_blank s
  suffices hskip : ∃ text, Written room text v ∧ skipSpace s = text.map some ++ t by
    obtain ⟨text, htext, heq⟩ := hskip
    refine ⟨space ++ text ++ [], .spaced hspace htext blank_nil, ?_⟩
    rw [hs, heq]
    simp
  have hword : ∀ {c : Char} {w : List Char} {r : Input} {u : Json}, expectWord w r = .ok t →
      Written room (c :: w) u → ∃ text, Written room text u ∧ some c :: r = text.map some ++ t := by
    intro c w r u hr hu
    exact ⟨_, hu, by rw [eq_of_expectWord hr]; rfl⟩
  rw [Reader.value] at h
  split at h
  · cases h
  · cases h
  next c r hc =>
  rw [hc]
  split at h
  · next hquote =>
    subst hquote
    obtain ⟨⟨cs, t'⟩, hbody, heq⟩ := map_eq_ok_iff.1 h
    cases heq
    obtain ⟨ts, hts, rfl⟩ := exists_of_stringBody hbody
    exact ⟨_, .string (.mk hts), by simp⟩
  split at h
  · next hbracket =>
    subst hbracket
    split at h
    · cases h
    next hroom =>
    obtain ⟨inner, rfl⟩ : ∃ n, room = n + 1 := ⟨room - 1, by simp at hroom; omega⟩
    obtain ⟨⟨vs, t'⟩, hitems, heq⟩ := map_eq_ok_iff.1 h
    cases heq
    exact ih.array hitems
  split at h
  · next hbrace =>
    subst hbrace
    split at h
    · cases h
    next hroom =>
    obtain ⟨inner, rfl⟩ : ∃ n, room = n + 1 := ⟨room - 1, by simp at hroom; omega⟩
    obtain ⟨⟨ms, t'⟩, hmembers, heq⟩ := map_eq_ok_iff.1 h
    cases heq
    exact ih.object hmembers
  split at h
  · next hn =>
    subst hn
    obtain ⟨t', hr, heq⟩ := map_eq_ok_iff.1 h
    cases heq
    exact hword hr .null
  split at h
  · next ht =>
    subst ht
    obtain ⟨t', hr, heq⟩ := map_eq_ok_iff.1 h
    cases heq
    exact hword hr .yes
  split at h
  · next hf =>
    subst hf
    obtain ⟨t', hr, heq⟩ := map_eq_ok_iff.1 h
    cases heq
    exact hword hr .no
  split at h
  · rw [Reader.number] at h
    split at h
    · cases h
    next n t' hn =>
    split at h
    · cases h
    next hrange =>
    cases h
    obtain ⟨hgood, heq⟩ := of_numeral hn
    exact ⟨n.text, .number hgood (by simpa using hrange), heq⟩
  · cases h

theorem Accepts.nextItem_succ {vs : List Json}
    (h : Reader.nextItem .full room (fuel + 1) s = .ok (vs, t)) :
    Listed (itemKind room) s vs t := by
  rw [Reader.nextItem] at h
  split at h
  · cases h
  next v u hv =>
  obtain ⟨⟨vs', t'⟩, hitems, heq⟩ := map_eq_ok_iff.1 h
  cases heq
  obtain ⟨text, htext, rfl⟩ := ih.value hv
  refine (ih.itemsBehind hitems).cons fun after hafter => ⟨(text ++ after, v), ?_, rfl, rfl⟩
  exact .spaced blank_nil htext hafter

theorem Accepts.itemsBehind_succ {vs : List Json}
    (h : Reader.items .full room false (fuel + 1) s = .ok (vs, t)) :
    ListedBehind (itemKind room) s vs t := by
  obtain ⟨space, hspace, hs⟩ := exists_blank s
  rw [Reader.items] at h
  split at h
  · cases h
  next x r hx =>
  rw [hs, hx]
  split at h
  · next hclose =>
    cases h
    subst hclose
    exact listedBehind_nil hspace _
  split at h
  · next hfirst => cases hfirst
  split at h
  · next hcomma =>
    subst hcomma
    exact (ih.nextItem h).behind_comma hspace
  · cases h

theorem Accepts.items_succ {vs : List Json}
    (h : Reader.items .full room true (fuel + 1) s = .ok (vs, t)) :
    (vs = [] ∧ ∃ space, Blank space ∧ s = space.map some ++ some ']' :: t) ∨
      Listed (itemKind room) s vs t := by
  obtain ⟨space, hspace, hs⟩ := exists_blank s
  rw [Reader.items] at h
  split at h
  · cases h
  next x r hx =>
  rw [hs, hx]
  split at h
  · next hclose =>
    cases h
    subst hclose
    exact .inl ⟨rfl, space, hspace, rfl⟩
  · rw [if_pos rfl] at h
    exact .inr ((ih.nextItem h).after_blank (itemKind_after_blank hspace))

theorem Accepts.nextMember_succ {ms : List (String × Json)}
    (h : Reader.nextMember .full (fun _ => .full) room (fuel + 1) s = .ok (ms, t)) :
    Listed (memberKind room) s ms t := by
  obtain ⟨before, hbefore, hs⟩ := exists_blank s
  rw [Reader.nextMember] at h
  split at h
  · cases h
  next x r hx =>
  split at h
  · next hquote =>
    subst hquote
    split at h
    · cases h
    next name u hname =>
    obtain ⟨after, hafter, hu⟩ := exists_blank u
    split at h
    · cases h
    next y q hy =>
    split at h
    · next hcolon =>
      subst hcolon
      split at h
      · cases h
      next v w hv =>
      obtain ⟨⟨ms', t'⟩, hmembers, heq⟩ := map_eq_ok_iff.1 h
      cases heq
      obtain ⟨ts, hts, rfl⟩ := exists_of_stringBody hname
      obtain ⟨text, htext, rfl⟩ := ih.value hv
      have hs' : s = (before ++ '"' :: (ts ++ ['"']) ++ after ++ ':' :: text).map some ++ w := by
        rw [hs, hx, hu, hy]
        simp
      rw [hs']
      refine (ih.membersBehind hmembers).cons fun space hspace =>
        ⟨⟨before ++ '"' :: (ts ++ ['"']) ++ after, String.ofList name, text ++ space, v⟩,
          ⟨.mk hbefore (.mk hts) hafter, .spaced blank_nil htext hspace⟩, rfl, ?_⟩
      simp [memberKind, MemberText.text]
    · cases h
  · cases h

theorem Accepts.membersBehind_succ {ms : List (String × Json)}
    (h : Reader.members .full (fun _ => .full) room false (fuel + 1) s = .ok (ms, t)) :
    ListedBehind (memberKind room) s ms t := by
  obtain ⟨space, hspace, hs⟩ := exists_blank s
  rw [Reader.members] at h
  split at h
  · cases h
  next x r hx =>
  rw [hs, hx]
  split at h
  · next hclose =>
    cases h
    subst hclose
    exact listedBehind_nil hspace _
  split at h
  · next hfirst => cases hfirst
  split at h
  · next hcomma =>
    subst hcomma
    exact (ih.nextMember h).behind_comma hspace
  · cases h

theorem Accepts.members_succ {ms : List (String × Json)}
    (h : Reader.members .full (fun _ => .full) room true (fuel + 1) s = .ok (ms, t)) :
    (ms = [] ∧ ∃ space, Blank space ∧ s = space.map some ++ some '}' :: t) ∨
      Listed (memberKind room) s ms t := by
  obtain ⟨space, hspace, hs⟩ := exists_blank s
  rw [Reader.members] at h
  split at h
  · cases h
  next x r hx =>
  rw [hs, hx]
  split at h
  · next hclose =>
    cases h
    subst hclose
    exact .inl ⟨rfl, space, hspace, rfl⟩
  · rw [if_pos rfl] at h
    exact .inr ((ih.nextMember h).after_blank (memberKind_after_blank hspace))

theorem Accepts.succ : Accepts (fuel + 1) where
  value := ih.value_succ
  items := ih.items_succ
  itemsBehind := ih.itemsBehind_succ
  nextItem := ih.nextItem_succ
  members := ih.members_succ
  membersBehind := ih.membersBehind_succ
  nextMember := ih.nextMember_succ

end Step

/-! ## Whole texts -/

/-- However many steps are taken, what is read has the form that it should have. -/
theorem accepts (fuel : Nat) : Accepts fuel := by
  induction fuel with
  | zero => exact accepts_zero
  | succ fuel ih => exact ih.succ

/-- **The accepted texts are those of the grammar.**  A text is read as a value exactly if the
grammar has it as a text of the value, with arrays and objects nested no deeper than is allowed. -/
theorem parse_eq_ok_iff {s : Input} {v : Json} :
    Json.parse s = .ok v ↔ ∃ text, s = text.map some ∧ Written depthLimit text v := by
  constructor
  · intro h
    unfold Json.parse complete at h
    split at h
    · cases h
    next w t hvalue =>
    split at h
    · next hend =>
      cases h
      obtain ⟨text, htext, rfl⟩ := (accepts _).value hvalue
      obtain ⟨space, hspace, ht⟩ := exists_blank t
      rw [hend, List.append_nil] at ht
      refine ⟨[] ++ text ++ space, ?_, .spaced blank_nil htext hspace⟩
      rw [ht]
      simp
    · cases h
  · rintro ⟨text, rfl, htext⟩
    exact parse_of_written htext

end Gatehouse.Json
