import Gatehouse.Json.Reader
import Mathlib.Tactic.Common

/-!
# The tokens of JSON

Which texts are strings and which are numbers, without looking at how they are read.

* `Spelling`, `Spelled` — a character of a string, or the characters of one, as they are written:
  as they are, with a letter after a backslash, or as one or two codes of four digits.
* `Numeral.Grammatical` — the digits, fraction and exponent of a number.
* `Blank` — space between tokens.

Such a text is read as what it stands for, in front of anything that it could not go on with.
Where only the grammar counts, a string is read as some string and just as far.  With full rigor,
nothing else is read (`exists_of_stringBody`, `of_numeral`).
-/

namespace Gatehouse.Json

open Reader

/-! ## Strings -/

/-- Four hexadecimal digits and their value. -/
inductive FourDigits : List Char → Nat → Prop where
  | mk {a b c d : Char} {i j k l : Nat} (ha : hexValue? a = some i) (hb : hexValue? b = some j)
      (hc : hexValue? c = some k) (hd : hexValue? d = some l) :
      FourDigits [a, b, c, d] (((i * 16 + j) * 16 + k) * 16 + l)

/-- A character of a string, as it is written and as it is read. -/
inductive Spelling : List Char → Char → Prop where
  /-- The character itself. -/
  | plain {c : Char} (hquote : c ≠ '"') (hescape : c ≠ '\\') (hcontrol : 0x20 ≤ c.toNat) :
      Spelling [c] c
  /-- A letter that stands for it. -/
  | short {c d : Char} (h : shortEscape? c = some d) : Spelling ['\\', c] d
  /-- Its code. -/
  | code {ds : List Char} {n : Nat} (h : FourDigits ds n) (hhigh : isHighHalf n = false)
      (hlow : isLowHalf n = false) : Spelling ('\\' :: 'u' :: ds) (Char.ofNat n)
  /-- The two halves of its code. -/
  | pair {ds es : List Char} {high low : Nat} (hds : FourDigits ds high) (hes : FourDigits es low)
      (hhigh : isHighHalf high = true) (hlow : isLowHalf low = true) :
      Spelling ('\\' :: 'u' :: (ds ++ '\\' :: 'u' :: es))
        (Char.ofNat (0x10000 + (high - 0xD800) * 0x400 + (low - 0xDC00)))

/-- The characters of a string, as they are written and as they are read. -/
inductive Spelled : List Char → List Char → Prop where
  | nil : Spelled [] []
  | cons {ds ts cs : List Char} {c : Char} (hc : Spelling ds c) (h : Spelled ts cs) :
      Spelled (ds ++ ts) (c :: cs)

/-- A string in its quotes. -/
inductive Quoted : List Char → String → Prop where
  | mk {ts cs : List Char} (h : Spelled ts cs) : Quoted ('"' :: (ts ++ ['"'])) (String.ofList cs)

/-! ## Numbers -/

/-- Digits, at least one. -/
structure IsDigits (ds : List Char) : Prop where
  /-- There is one. -/
  nonempty : ds ≠ []
  /-- All of them are digits. -/
  digits : ∀ c ∈ ds, c.isDigit = true

/-- A point with digits behind it, or nothing. -/
inductive IsFraction : List Char → Prop where
  | none : IsFraction []
  | digits {ds : List Char} (h : IsDigits ds) : IsFraction ('.' :: ds)

/-- A letter, perhaps a sign, and digits, or nothing. -/
inductive IsExponent : List Char → Prop where
  | none : IsExponent []
  | digits {e : Char} {sign ds : List Char} (he : e = 'e' ∨ e = 'E')
      (hsign : sign = [] ∨ sign = ['+'] ∨ sign = ['-']) (h : IsDigits ds) :
      IsExponent (e :: (sign ++ ds))

/-- The parts of a number are as they should be. -/
structure Numeral.Grammatical (n : Numeral) : Prop where
  /-- Digits stand before the point. -/
  whole : IsDigits n.whole
  /-- No zero stands in front of others. -/
  leading : ∀ d ds, n.whole ≠ '0' :: d :: ds
  /-- Then come the digits behind the point. -/
  fraction : IsFraction n.fraction
  /-- And then the exponent. -/
  exponent : IsExponent n.exponent

/-! ## Reading space and words -/

/-- Space between tokens, or nothing. -/
def Blank (cs : List Char) : Prop :=
  ∀ c ∈ cs, isSpace c = true

@[simp] theorem blank_nil : Blank [] := by
  intro c hc
  exact absurd hc List.not_mem_nil

theorem skipSpace_of_not_isSpace {c : Char} (h : isSpace c = false) (r : Input) :
    skipSpace (some c :: r) = some c :: r := by
  rw [skipSpace, h]
  rfl

theorem skipSpace_append {space : List Char} (h : Blank space) (s : Input) :
    skipSpace (space.map some ++ s) = skipSpace s := by
  induction space with
  | nil => rfl
  | cons c cs ih =>
    obtain ⟨hc, hcs⟩ := List.forall_mem_cons.1 h
    rw [List.map_cons, List.cons_append, skipSpace, hc]
    exact ih hcs

theorem skipSpace_skipSpace (s : Input) : skipSpace (skipSpace s) = skipSpace s := by
  fun_induction skipSpace s with
  | case1 c r hspace ih => exact ih
  | case2 c r hspace => rw [skipSpace, if_neg hspace]
  | case3 s hs => rw [skipSpace]; exact hs

/-! ## Reading strings -/

theorem hexDigit_of_hexValue? {c : Char} {n : Nat} (h : hexValue? c = some n) :
    hexDigit (some c) = .ok n := by
  rw [hexDigit, Option.bind_some, h]

theorem FourDigits.read {ds : List Char} {n : Nat} (h : FourDigits ds n) (r : Input) :
    ∃ hlt, fourHex (ds.map some ++ r) = .ok (n, ⟨r, hlt⟩) := by
  obtain ⟨ha, hb, hc, hd⟩ := h
  refine ⟨by simp only [List.length_append, List.length_map, List.length_cons]; omega, ?_⟩
  change fourHex (_ :: _ :: _ :: _ :: r) = _
  rw [fourHex, hexDigit_of_hexValue? ha, hexDigit_of_hexValue? hb, hexDigit_of_hexValue? hc,
    hexDigit_of_hexValue? hd]
  rfl

theorem stringBody_quote (rigor : Rigor) (r : Input) :
    stringBody rigor (some '"' :: r) = .ok ([], r) := by
  rw [stringBody, if_pos rfl]

/-- A backslash and what is read behind it are one character. -/
theorem stringBody_escape {rigor : Rigor} {s r : Input} {c : Char} {hlt : r.length < s.length}
    (h : escapeSequence rigor s = .ok (c, ⟨r, hlt⟩)) :
    stringBody rigor (some '\\' :: s) = (fun (cs, t) => (c :: cs, t)) <$> stringBody rigor r := by
  have hquote : ('\\' : Char) ≠ '"' := by decide
  rw [stringBody, if_neg hquote, if_pos rfl, h]

/-- Where only the grammar counts, a code is one character. -/
theorem escapeSequence_grammar {ds : List Char} {n : Nat} (h : FourDigits ds n) (r : Input) :
    ∃ hlt, escapeSequence .grammar (some 'u' :: (ds.map some ++ r)) =
      .ok (placeholder, ⟨r, hlt⟩) := by
  obtain ⟨hlt, hfour⟩ := h.read r
  refine ⟨by simp only [List.length_cons, List.length_append]; omega, ?_⟩
  rw [escapeSequence, if_pos rfl, unicodeEscape, hfour]

theorem escapeSequence_code {ds : List Char} {n : Nat} (h : FourDigits ds n)
    (hhigh : isHighHalf n = false) (hlow : isLowHalf n = false) (r : Input) :
    ∃ hlt, escapeSequence .full (some 'u' :: (ds.map some ++ r)) =
      .ok (Char.ofNat n, ⟨r, hlt⟩) := by
  obtain ⟨hlt, hfour⟩ := h.read r
  refine ⟨by simp only [List.length_cons, List.length_append]; omega, ?_⟩
  rw [escapeSequence, if_pos rfl, unicodeEscape, hfour]
  simp only [hhigh, hlow, Bool.false_eq_true, if_false]

theorem escapeSequence_pair {ds es : List Char} {high low : Nat} (hds : FourDigits ds high)
    (hes : FourDigits es low) (hhigh : isHighHalf high = true) (hlow : isLowHalf low = true)
    (r : Input) :
    ∃ hlt, escapeSequence .full
        (some 'u' :: (ds.map some ++ some '\\' :: some 'u' :: (es.map some ++ r))) =
      .ok (Char.ofNat (0x10000 + (high - 0xD800) * 0x400 + (low - 0xDC00)), ⟨r, hlt⟩) := by
  have hother : isLowHalf high = false := by
    simp only [isHighHalf, isLowHalf, Bool.and_eq_true, decide_eq_true_eq] at hhigh ⊢
    simp only [Bool.and_eq_false_iff, decide_eq_false_iff_not]
    omega
  obtain ⟨hlt, hfour⟩ := hds.read (some '\\' :: some 'u' :: (es.map some ++ r))
  obtain ⟨hlt', hfour'⟩ := hes.read r
  refine ⟨by simp only [List.length_cons, List.length_append]; omega, ?_⟩
  rw [escapeSequence, if_pos rfl, unicodeEscape, hfour]
  simp only [hother, hhigh, Bool.false_eq_true, if_false, if_true, lowHalf, hfour', hlow]

/-- A character that is written is read, with full rigor as itself. -/
theorem Spelling.exists_reads {ds : List Char} {c : Char} (h : Spelling ds c) (rigor : Rigor) :
    ∃ cs, (rigor = .full → cs = [c]) ∧ ∀ r, stringBody rigor (ds.map some ++ r) =
      (fun (es, t) => (cs ++ es, t)) <$> stringBody rigor r := by
  cases h with
  | plain hquote hescape hcontrol =>
    refine ⟨[c], fun _ => rfl, fun r => ?_⟩
    change stringBody rigor (some c :: r) = _
    rw [stringBody, if_neg hquote, if_neg hescape, if_neg (Nat.not_lt.2 hcontrol)]
    rfl
  | @short d _ hshort =>
    refine ⟨[c], fun _ => rfl, fun r => ?_⟩
    have hu : some d ≠ some 'u' := by
      intro hd
      rw [Option.some.inj hd] at hshort
      exact Option.some_ne_none c hshort.symm
    have hseq : escapeSequence rigor (some d :: r) = .ok (c, ⟨r, by simp⟩) := by
      rw [escapeSequence, if_neg hu, Option.bind_some, hshort]
    exact stringBody_escape hseq
  | @code ds n hds hhigh hlow =>
    cases rigor with
    | full =>
      refine ⟨[Char.ofNat n], fun _ => rfl, fun r => ?_⟩
      obtain ⟨hlt, hseq⟩ := escapeSequence_code hds hhigh hlow r
      exact stringBody_escape hseq
    | grammar =>
      refine ⟨[placeholder], fun h => absurd h (by decide), fun r => ?_⟩
      obtain ⟨hlt, hseq⟩ := escapeSequence_grammar hds r
      exact stringBody_escape hseq
  | @pair ds es high low hds hes hhigh hlow =>
    have htext : ∀ r : Input, ('\\' :: 'u' :: (ds ++ '\\' :: 'u' :: es)).map some ++ r =
        some '\\' :: some 'u' :: (ds.map some ++ some '\\' :: some 'u' :: (es.map some ++ r)) := by
      intro r
      simp
    cases rigor with
    | full =>
      refine ⟨[_], fun _ => rfl, fun r => ?_⟩
      obtain ⟨hlt, hseq⟩ := escapeSequence_pair hds hes hhigh hlow r
      rw [htext]
      exact stringBody_escape hseq
    | grammar =>
      -- the halves are not put together, so there are two characters
      refine ⟨[placeholder, placeholder], fun h => absurd h (by decide), fun r => ?_⟩
      obtain ⟨hlt, hseq⟩ := escapeSequence_grammar hds (some '\\' :: some 'u' :: (es.map some ++ r))
      obtain ⟨hlt', hseq'⟩ := escapeSequence_grammar hes r
      rw [htext, stringBody_escape hseq, stringBody_escape hseq']
      simp only [Functor.map_map, List.cons_append, List.nil_append]

/-- What stands between the quotes of a string is read, with full rigor as the string. -/
theorem Spelled.exists_reads {ts cs : List Char} (h : Spelled ts cs) (rigor : Rigor) :
    ∃ ds, (rigor = .full → ds = cs) ∧ ∀ r,
      stringBody rigor (ts.map some ++ some '"' :: r) = .ok (ds, r) := by
  induction h with
  | nil => exact ⟨[], fun _ => rfl, stringBody_quote rigor⟩
  | cons hc _ ih =>
    obtain ⟨ds, hds, hread⟩ := hc.exists_reads rigor
    obtain ⟨es, hes, hrest⟩ := ih
    refine ⟨ds ++ es, fun h => ?_, fun r => ?_⟩
    · rw [hds h, hes h]
      rfl
    · rw [List.map_append, List.append_assoc, hread, hrest]
      rfl

/-- What is written of a string, its opening quote apart, is read as the string. -/
def StringReads (rigor : Rigor) (text : List Char) (s : String) : Prop :=
  ∃ ts, text = '"' :: ts ∧ ∀ r, stringBody rigor (ts.map some ++ r) = .ok (s.toList, r)

theorem Quoted.exists_reads {text : List Char} {s : String} (h : Quoted text s) (rigor : Rigor) :
    ∃ t, (rigor = .full → t = s) ∧ StringReads rigor text t := by
  obtain ⟨h⟩ := h
  obtain ⟨ds, hds, hread⟩ := h.exists_reads rigor
  refine ⟨.ofList ds, fun h => by rw [hds h], _, rfl, fun r => ?_⟩
  rw [List.map_append, List.append_assoc, String.toList_ofList]
  exact hread r

/-! ## Reading numbers -/

/-- The next character, if there is one, has a property. -/
def Next (P : Char → Prop) (s : Input) : Prop :=
  ∀ c r, s = some c :: r → P c

theorem next_cons {P : Char → Prop} {c : Char} (h : P c) (r : Input) : Next P (some c :: r) := by
  intro d s hd
  cases hd
  exact h

theorem Next.mono {P Q : Char → Prop} {s : Input} (h : Next P s) (himp : ∀ c, P c → Q c) :
    Next Q s :=
  fun c r hs => himp c (h c r hs)

theorem Next.append {P : Char → Prop} {text : List Char} {s : Input}
    (htext : ∀ c cs, text = c :: cs → P c) (hs : Next P s) : Next P (text.map some ++ s) := by
  cases text with
  | nil => exact hs
  | cons => exact next_cons (htext _ _ rfl) _

/-- A character that no number goes on with. -/
def Ends (c : Char) : Prop :=
  c.isDigit = false ∧ c ≠ '.' ∧ c ≠ 'e' ∧ c ≠ 'E'

instance : DecidablePred Ends :=
  fun _ => inferInstanceAs (Decidable (_ ∧ _))

theorem ends_of_isSpace {c : Char} (h : isSpace c = true) : Ends c := by
  simp only [isSpace, Bool.or_eq_true, beq_iff_eq] at h
  rcases h with ((rfl | rfl) | rfl) | rfl <;> decide

theorem spanDigits_append {ds : List Char} (h : ∀ c ∈ ds, c.isDigit = true) {s : Input}
    (hs : Next (·.isDigit = false) s) : spanDigits (ds.map some ++ s) = (ds, s) := by
  induction ds with
  | nil =>
    rcases s with _ | ⟨_ | c, r⟩
    · rfl
    · rfl
    · simp [spanDigits, hs c r rfl]
  | cons d ds ih =>
    obtain ⟨hd, hds⟩ := List.forall_mem_cons.1 h
    rw [List.map_cons, List.cons_append, spanDigits, if_pos hd, ih hds]

theorem IsDigits.exists_cons {ds : List Char} (h : IsDigits ds) :
    ∃ c cs, ds = c :: cs ∧ c.isDigit = true := by
  cases ds with
  | nil => exact absurd rfl h.nonempty
  | cons c cs => exact ⟨c, cs, rfl, h.digits c List.mem_cons_self⟩

theorem IsDigits.read {ds : List Char} (h : IsDigits ds) {s : Input}
    (hs : Next (·.isDigit = false) s) : Reader.digits (ds.map some ++ s) = .ok (ds, s) := by
  have hspan := spanDigits_append h.digits hs
  obtain ⟨c, cs, rfl, -⟩ := h.exists_cons
  rw [List.map_cons, List.cons_append] at hspan ⊢
  simp only [Reader.digits, hspan]

theorem wholePart_append {ds : List Char} (h : IsDigits ds) (hlead : ∀ d es, ds ≠ '0' :: d :: es)
    {s : Input} (hs : Next (·.isDigit = false) s) : wholePart (ds.map some ++ s) = .ok (ds, s) := by
  rw [wholePart, h.read hs]
  split
  · next heq =>
    cases heq
    exact absurd rfl (hlead _ _)
  · rfl

theorem fractionPart_append {f : List Char} (h : IsFraction f) {s : Input}
    (hs : Next (fun c => c.isDigit = false ∧ c ≠ '.') s) :
    fractionPart (f.map some ++ s) = .ok (f, s) := by
  cases h with
  | none =>
    unfold fractionPart
    split
    · next heq => exact absurd rfl (hs _ _ heq).2
    · rfl
  | digits hds =>
    rw [List.map_cons, List.cons_append, fractionPart, hds.read (hs.mono fun _ h => h.1)]
    rfl

theorem exponentPart_append {x : List Char} (h : IsExponent x) {s : Input} (hs : Next Ends s) :
    exponentPart (x.map some ++ s) = .ok (x, s) := by
  cases h with
  | none =>
    unfold exponentPart
    split
    · next heq =>
      obtain ⟨-, -, he, hE⟩ := hs _ _ heq
      rw [if_neg (by simp [he, hE])]
      exact congrArg _ (congrArg _ heq.symm)
    · rfl
  | @digits e sign ds he hsign hds =>
    have hread := hds.read (hs.mono fun _ h => h.1)
    rcases hsign with rfl | rfl | rfl
    · -- no digit is a sign
      have hnosign : ∀ c r, c = '+' ∨ c = '-' → ds.map some ++ s ≠ some c :: r := by
        intro c r hc heq
        obtain ⟨d, cs, rfl, hd⟩ := hds.exists_cons
        cases heq
        rcases hc with rfl | rfl <;> exact absurd hd (by decide)
      change exponentPart (some e :: (ds.map some ++ s)) = _
      rw [exponentPart, if_pos he, hread]
      · rfl
      · exact fun r => hnosign '+' r (.inl rfl)
      · exact fun r => hnosign '-' r (.inr rfl)
    · change exponentPart (some e :: some '+' :: (ds.map some ++ s)) = _
      rw [exponentPart, if_pos he, hread]
      rfl
    · change exponentPart (some e :: some '-' :: (ds.map some ++ s)) = _
      rw [exponentPart, if_pos he, hread]
      rfl

namespace Numeral.Grammatical

variable {n : Numeral} (h : n.Grammatical)

include h

/-- A number starts with its sign or with a digit. -/
theorem exists_cons : ∃ c cs, n.text = c :: cs ∧ (c = '-' ∨ c.isDigit = true) := by
  obtain ⟨negative, whole, fraction, exponent⟩ := n
  obtain ⟨c, cs, hwhole, hc⟩ := h.whole.exists_cons
  dsimp only at hwhole
  subst hwhole
  cases negative with
  | true => exact ⟨_, _, rfl, .inl rfl⟩
  | false => exact ⟨_, _, rfl, .inr hc⟩

/-- A number is read in front of anything that it could not go on with. -/
theorem read {rest : Input} (hrest : Next Ends rest) :
    numeral (n.text.map some ++ rest) = .ok (n, rest) := by
  obtain ⟨negative, whole, fraction, exponent⟩ := n
  obtain ⟨hwhole, hlead, hfraction, hexponent⟩ := h
  dsimp only at hwhole hlead hfraction hexponent
  have hbehindFraction : Next (fun c => c.isDigit = false ∧ c ≠ '.')
      (exponent.map some ++ rest) := by
    refine Next.append (fun c cs hc => ?_) (hrest.mono fun _ h => ⟨h.1, h.2.1⟩)
    cases hexponent with
    | none => cases hc
    | digits he =>
      cases hc
      rcases he with rfl | rfl <;> decide
  have hbehindWhole : Next (·.isDigit = false)
      (fraction.map some ++ (exponent.map some ++ rest)) := by
    refine Next.append (fun c cs hc => ?_) (hbehindFraction.mono fun _ h => h.1)
    cases hfraction with
    | none => cases hc
    | digits =>
      cases hc
      decide
  have hparts := wholePart_append hwhole hlead hbehindWhole
  have hfraction' := fractionPart_append hfraction hbehindFraction
  have hexponent' := exponentPart_append hexponent hrest
  cases negative with
  | true =>
    have htext : (text ⟨true, whole, fraction, exponent⟩).map some ++ rest = some '-' ::
        (whole.map some ++ (fraction.map some ++ (exponent.map some ++ rest))) := by
      simp [text]
    rw [htext, numeral]
    simp only [hparts, hfraction', hexponent', bind, Except.bind, pure, Except.pure]
  | false =>
    have htext : (text ⟨false, whole, fraction, exponent⟩).map some ++ rest =
        whole.map some ++ (fraction.map some ++ (exponent.map some ++ rest)) := by
      simp [text]
    have hminus : ∀ r, whole.map some ++ (fraction.map some ++ (exponent.map some ++ rest)) ≠
        some '-' :: r := by
      intro r heq
      obtain ⟨c, cs, rfl, hc⟩ := hwhole.exists_cons
      cases heq
      exact absurd hc (by decide)
    rw [htext, numeral]
    · simp only [hparts, hfraction', hexponent', bind, Except.bind, pure, Except.pure]
    · exact hminus

end Numeral.Grammatical

/-! ## What is read is a token -/

theorem map_eq_ok_iff {ε α β : Type} {f : α → β} {x : Except ε α} {b : β} :
    f <$> x = .ok b ↔ ∃ a, x = .ok a ∧ f a = b := by
  cases x <;> simp

theorem exists_blank (s : Input) : ∃ space, Blank space ∧ s = space.map some ++ skipSpace s := by
  fun_induction skipSpace s with
  | case1 c r hspace ih =>
    obtain ⟨space, hblank, heq⟩ := ih
    refine ⟨c :: space, List.forall_mem_cons.2 ⟨hspace, hblank⟩, ?_⟩
    rw [List.map_cons, List.cons_append, ← heq]
  | case2 c r hspace => exact ⟨[], blank_nil, rfl⟩
  | case3 s hs => exact ⟨[], blank_nil, rfl⟩

theorem eq_of_expectWord {w : List Char} {s r : Input} (h : expectWord w s = .ok r) :
    s = w.map some ++ r := by
  fun_induction expectWord w s with
  | case1 s => cases h; rfl
  | case2 => cases h
  | case3 c w s ih => rw [ih h]; rfl
  | case4 => cases h

theorem exists_of_hexDigit {x : Option Char} {n : Nat} (h : hexDigit x = .ok n) :
    ∃ c, x = some c ∧ hexValue? c = some n := by
  unfold hexDigit at h
  split at h
  · next m hm =>
    cases h
    exact Option.bind_eq_some_iff.1 hm
  · cases h

theorem exists_of_fourHex {s r : Input} {n : Nat} {hlt : r.length < s.length}
    (h : fourHex s = .ok (n, ⟨r, hlt⟩)) : ∃ ds, FourDigits ds n ∧ s = ds.map some ++ r := by
  unfold fourHex at h
  split at h
  · simp only [bind, Except.bind] at h
    split at h
    · cases h
    next i hi =>
    split at h
    · cases h
    next j hj =>
    split at h
    · cases h
    next k hk =>
    split at h
    · cases h
    next l hl =>
    cases h
    obtain ⟨a, rfl, ha⟩ := exists_of_hexDigit hi
    obtain ⟨b, rfl, hb⟩ := exists_of_hexDigit hj
    obtain ⟨c, rfl, hc⟩ := exists_of_hexDigit hk
    obtain ⟨d, rfl, hd⟩ := exists_of_hexDigit hl
    exact ⟨_, .mk ha hb hc hd, rfl⟩
  · cases h

theorem exists_of_lowHalf {high : Nat} {s r : Input} {c : Char} {hlt : r.length < s.length}
    (h : lowHalf high s = .ok (c, ⟨r, hlt⟩)) :
    ∃ es low, FourDigits es low ∧ isLowHalf low = true ∧
      c = Char.ofNat (0x10000 + (high - 0xD800) * 0x400 + (low - 0xDC00)) ∧
      s = some '\\' :: some 'u' :: (es.map some ++ r) := by
  unfold lowHalf at h
  split at h
  · cases h
  split at h
  · next hescape =>
    subst hescape
    split at h
    · cases h
    split at h
    · next hu =>
      subst hu
      split at h
      · cases h
      next low r' hlt' hfour =>
      split at h
      · next hlow =>
        simp only [Except.ok.injEq, Prod.mk.injEq, Subtype.mk.injEq] at h
        obtain ⟨hc, rfl⟩ := h
        obtain ⟨es, hes, rfl⟩ := exists_of_fourHex hfour
        exact ⟨es, low, hes, hlow, hc.symm, rfl⟩
      · cases h
    · cases h
  · cases h

theorem exists_of_unicodeEscape {s r : Input} {c : Char} {hlt : r.length < s.length}
    (h : unicodeEscape .full s = .ok (c, ⟨r, hlt⟩)) :
    ∃ ds, Spelling ('\\' :: 'u' :: ds) c ∧ s = ds.map some ++ r := by
  unfold unicodeEscape at h
  split at h
  · cases h
  next n r' hlt' hfour =>
  obtain ⟨ds, hds, rfl⟩ := exists_of_fourHex hfour
  dsimp only at h
  split at h
  · cases h
  next hnotLow =>
  split at h
  · next hhigh =>
    split at h
    · cases h
    next c' r'' hlt'' hsecond =>
    simp only [Except.ok.injEq, Prod.mk.injEq, Subtype.mk.injEq] at h
    obtain ⟨rfl, rfl⟩ := h
    obtain ⟨es, low, hes, hlow, hc, rfl⟩ := exists_of_lowHalf hsecond
    refine ⟨ds ++ '\\' :: 'u' :: es, ?_, by simp⟩
    rw [hc]
    exact .pair hds hes hhigh hlow
  · next hnotHigh =>
    simp only [Except.ok.injEq, Prod.mk.injEq, Subtype.mk.injEq] at h
    obtain ⟨rfl, rfl⟩ := h
    exact ⟨ds, .code hds (Bool.eq_false_iff.2 hnotHigh) (Bool.eq_false_iff.2 hnotLow), rfl⟩

theorem exists_of_escapeSequence {s r : Input} {c : Char} {hlt : r.length < s.length}
    (h : escapeSequence .full s = .ok (c, ⟨r, hlt⟩)) :
    ∃ ds, Spelling ('\\' :: ds) c ∧ s = ds.map some ++ r := by
  unfold escapeSequence at h
  split at h
  · cases h
  split at h
  · next hu =>
    subst hu
    split at h
    · cases h
    next c' r' hlt' hcode =>
    cases h
    obtain ⟨ds, hds, rfl⟩ := exists_of_unicodeEscape hcode
    exact ⟨'u' :: ds, hds, rfl⟩
  · split at h
    · next d hd =>
      cases h
      obtain ⟨e, rfl, he⟩ := Option.bind_eq_some_iff.1 hd
      exact ⟨[e], .short he, rfl⟩
    · cases h

/-- What is read with full rigor up to the closing quote are the characters of a string. -/
theorem exists_of_stringBody {s t : Input} {cs : List Char} (h : stringBody .full s = .ok (cs, t)) :
    ∃ ts, Spelled ts cs ∧ s = ts.map some ++ some '"' :: t := by
  generalize hrigor : Rigor.full = rigor at h
  fun_induction stringBody rigor s generalizing cs t with
  | case1 => cases h
  | case2 => cases h
  | case3 r hrelaxed => exact absurd hrigor.symm hrelaxed
  | case4 r =>
    cases h
    exact ⟨[], .nil, rfl⟩
  | case5 => cases h
  | case6 r c r' hlt hescape _ ih =>
    obtain ⟨⟨cs', t'⟩, hrest, heq⟩ := map_eq_ok_iff.1 h
    cases heq
    obtain ⟨ts, hts, rfl⟩ := ih hrest
    subst hrigor
    obtain ⟨ds, hds, rfl⟩ := exists_of_escapeSequence hescape
    exact ⟨_, .cons hds hts, by simp⟩
  | case7 => cases h
  | case8 c r hquote hescape hcontrol ih =>
    obtain ⟨⟨cs', t'⟩, hrest, heq⟩ := map_eq_ok_iff.1 h
    cases heq
    obtain ⟨ts, hts, rfl⟩ := ih hrest
    exact ⟨_, .cons (.plain hquote hescape (Nat.le_of_not_lt hcontrol)) hts, rfl⟩

theorem of_spanDigits {s t : Input} {ds : List Char} (h : spanDigits s = (ds, t)) :
    (∀ c ∈ ds, c.isDigit = true) ∧ s = ds.map some ++ t := by
  fun_induction spanDigits s generalizing ds t with
  | case1 c r hdigit ds' t' hspan ih =>
    cases h
    obtain ⟨hall, rfl⟩ := ih hspan
    exact ⟨List.forall_mem_cons.2 ⟨hdigit, hall⟩, rfl⟩
  | case2 =>
    cases h
    exact ⟨fun c hc => absurd hc List.not_mem_nil, rfl⟩
  | case3 =>
    cases h
    exact ⟨fun c hc => absurd hc List.not_mem_nil, rfl⟩

theorem of_digits {s t : Input} {ds : List Char} (h : Reader.digits s = .ok (ds, t)) :
    IsDigits ds ∧ s = ds.map some ++ t := by
  unfold Reader.digits at h
  split at h
  · cases h
  split at h
  · cases h
  · next hsome hnonempty =>
    obtain ⟨hall, heq⟩ := of_spanDigits (Except.ok.inj h)
    refine ⟨⟨?_, hall⟩, heq⟩
    rintro rfl
    exact hnonempty _ (Except.ok.inj h)

theorem of_wholePart {s t : Input} {ds : List Char} (h : wholePart s = .ok (ds, t)) :
    IsDigits ds ∧ (∀ d es, ds ≠ '0' :: d :: es) ∧ s = ds.map some ++ t := by
  unfold wholePart at h
  split at h
  · cases h
  · next hlead =>
    obtain ⟨hds, heq⟩ := of_digits h
    refine ⟨hds, ?_, heq⟩
    rintro d es rfl
    exact hlead _ _ _ h

theorem of_fractionPart {s t : Input} {f : List Char} (h : fractionPart s = .ok (f, t)) :
    IsFraction f ∧ s = f.map some ++ t := by
  unfold fractionPart at h
  split at h
  · obtain ⟨⟨ds, t'⟩, hdigits, heq⟩ := map_eq_ok_iff.1 h
    cases heq
    obtain ⟨hds, rfl⟩ := of_digits hdigits
    exact ⟨.digits hds, rfl⟩
  · cases h
    exact ⟨.none, rfl⟩

theorem of_exponentPart {s t : Input} {x : List Char} (h : exponentPart s = .ok (x, t)) :
    IsExponent x ∧ s = x.map some ++ t := by
  have hsigned : ∀ (e : Char) (sign : List Char) (r : Input), (e = 'e' ∨ e = 'E') →
      (sign = [] ∨ sign = ['+'] ∨ sign = ['-']) →
      (fun p : List Char × Input => (e :: (sign ++ p.1), p.2)) <$> Reader.digits r = .ok (x, t) →
      IsExponent x ∧ some e :: (sign.map some ++ r) = x.map some ++ t := by
    intro e sign r he hsign hread
    obtain ⟨⟨ds, t'⟩, hdigits, heq⟩ := map_eq_ok_iff.1 hread
    cases heq
    obtain ⟨hds, rfl⟩ := of_digits hdigits
    exact ⟨.digits he hsign hds, by simp⟩
  unfold exponentPart at h
  split at h
  · split at h
    · next he =>
      split at h
      · exact hsigned _ ['+'] _ he (.inr (.inl rfl)) h
      · exact hsigned _ ['-'] _ he (.inr (.inr rfl)) h
      · exact hsigned _ [] _ he (.inl rfl) h
    · cases h
      exact ⟨.none, rfl⟩
  · cases h
    exact ⟨.none, rfl⟩

/-- What is read as a number is one. -/
theorem of_numeral {s t : Input} {n : Numeral} (h : numeral s = .ok (n, t)) :
    n.Grammatical ∧ s = n.text.map some ++ t := by
  have hparts : ∀ negative : Bool, ∀ r : Input,
      (do
        let (whole, s) ← wholePart r
        let (fraction, s) ← fractionPart s
        let (exponent, s) ← exponentPart s
        pure (⟨negative, whole, fraction, exponent⟩, s) : Except Fault (Numeral × Input)) =
          .ok (n, t) →
      n.Grammatical ∧ n.negative = negative ∧
        r = (n.whole ++ n.fraction ++ n.exponent).map some ++ t := by
    intro negative r h
    simp only [bind, Except.bind] at h
    split at h
    · cases h
    next whole hwhole =>
    split at h
    · cases h
    next fraction hfraction =>
    split at h
    · cases h
    next exponent hexponent =>
    cases h
    obtain ⟨hw, hlead, rfl⟩ := of_wholePart hwhole
    obtain ⟨hf, hf'⟩ := of_fractionPart hfraction
    obtain ⟨hx, hx'⟩ := of_exponentPart hexponent
    refine ⟨⟨hw, hlead, hf, hx⟩, rfl, ?_⟩
    rw [hf', hx']
    simp
  unfold numeral at h
  split at h
  next negative r hsign =>
  obtain ⟨hgood, hnegative, rfl⟩ := hparts negative r h
  refine ⟨hgood, ?_⟩
  split at hsign
  · cases hsign
    simp [Numeral.text, hnegative]
  · cases hsign
    simp [Numeral.text, hnegative]

end Gatehouse.Json
