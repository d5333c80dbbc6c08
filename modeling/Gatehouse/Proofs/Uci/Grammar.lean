import Gatehouse.Uci.Words
import Mathlib.Tactic.Common

/-!
# The grammar of a line

What a line means, without looking at how it is scanned.

* `Piece` — a piece of a word as it is written, and the text that it stands for: a quoted run, an
  escaped character or a plain one.
* `Word` — a non-empty sequence of pieces that does not begin as a comment would.
* `Line` — words with blanks between them, and perhaps a comment.
* `OpenLine` — a line that ends inside a quoted run or right after a backslash.

`Spells` says what the scanner does with a stretch of text in front of any rest, and with it every
line of the grammar is scanned as it should (`wordsFrom_of_line`, `wordsFrom_of_openLine`).  Since
each line is of one of the two kinds (`line_or_openLine`), there is nothing else to be scanned, and
`words_iff_line` puts this together.
-/

namespace Gatehouse.Uci

open Gatehouse.Text

/-! ## Pieces and words -/

/-- The inside of double quotes, as it is written and as it is read. -/
inductive DoubleQuoted : List Char → List Char → Prop where
  /-- Nothing stands there. -/
  | nil : DoubleQuoted [] []
  /-- A character stands for itself. -/
  | plain {c : Char} {written content : List Char} (hquote : c ≠ '"') (hescape : c ≠ '\\')
      (h : DoubleQuoted written content) : DoubleQuoted (c :: written) (c :: content)
  /-- A backslash makes the next character literal. -/
  | escaped (c : Char) {written content : List Char} (h : DoubleQuoted written content) :
      DoubleQuoted ('\\' :: c :: written) (c :: content)

/-- A piece of a word, as it is written and as it is read. -/
inductive Piece : List Char → List Char → Prop where
  /-- A run in single quotes, without a single quote in it. -/
  | single {content : List Char} (h : '\'' ∉ content) :
      Piece ('\'' :: (content ++ ['\''])) content
  /-- A run in double quotes. -/
  | double {written content : List Char} (h : DoubleQuoted written content) :
      Piece ('"' :: (written ++ ['"'])) content
  /-- A character after a backslash, whatever it is. -/
  | escape (c : Char) : Piece ['\\', c] [c]
  /-- Any other character that is not blank. -/
  | plain {c : Char} (hblank : isBlank c = false) (hsingle : c ≠ '\'') (hdouble : c ≠ '"')
      (hescape : c ≠ '\\') : Piece [c] [c]

/-- Pieces one after the other. -/
inductive Pieces : List Char → List Char → Prop where
  /-- No pieces. -/
  | nil : Pieces [] []
  /-- A piece before others. -/
  | cons {p s written content : List Char} (hp : Piece p s) (h : Pieces written content) :
      Pieces (p ++ written) (s ++ content)

/-- A word, as it is written and as it is read.  Where a word could start, a `#` begins a comment,
so no word is written with a `#` in front. -/
structure Word (written content : List Char) : Prop where
  /-- A word is made of pieces. -/
  pieces : Pieces written content
  /-- There is at least one. -/
  nonempty : written ≠ []
  /-- The first is not the start of a comment. -/
  noComment : written.head? ≠ some '#'

/-- A line and the contents of its words. -/
inductive Line : List Char → List (List Char) → Prop where
  /-- The line is over. -/
  | nil : Line [] []
  /-- A comment takes the rest of the line. -/
  | comment (rest : List Char) : Line ('#' :: rest) []
  /-- A blank before a word or a comment. -/
  | blank {c : Char} {rest : List Char} {ws : List (List Char)} (hc : isBlank c = true)
      (h : Line rest ws) : Line (c :: rest) ws
  /-- A word, which goes on up to the next blank or the end of the line. -/
  | word {written content rest : List Char} {ws : List (List Char)} (hw : Word written content)
      (hend : EndsWord rest) (h : Line rest ws) : Line (written ++ rest) (content :: ws)

/-! ## Lines that end too early -/

/-- A piece that the end of the line cuts off, and what there is to say about it. -/
inductive OpenPiece : List Char → String → Prop where
  /-- The line ends inside single quotes. -/
  | single {content : List Char} (h : '\'' ∉ content) :
      OpenPiece ('\'' :: content) "unterminated single quote"
  /-- The line ends inside double quotes. -/
  | double {written content : List Char} (h : DoubleQuoted written content) :
      OpenPiece ('"' :: written) "unterminated double quote"
  /-- The line ends inside double quotes, right after a backslash. -/
  | doubleEscape {written content : List Char} (h : DoubleQuoted written content) :
      OpenPiece ('"' :: (written ++ ['\\'])) "dangling escape in double quote"
  /-- The line ends right after a backslash outside quotes. -/
  | escape : OpenPiece ['\\'] "dangling escape"

/-- A line whose last piece is cut off, with what there is to say about it. -/
inductive OpenLine : List Char → String → Prop where
  /-- The last word, with its whole pieces and the one that is cut off. -/
  | last {written content tail : List Char} {message : String} (hp : Pieces written content)
      (hstart : written.head? ≠ some '#') (h : OpenPiece tail message) :
      OpenLine (written ++ tail) message
  /-- A blank before it. -/
  | blank {c : Char} {rest : List Char} {message : String} (hc : isBlank c = true)
      (h : OpenLine rest message) : OpenLine (c :: rest) message
  /-- A word before it. -/
  | word {written content rest : List Char} {message : String} (hw : Word written content)
      (hend : EndsWord rest) (h : OpenLine rest message) : OpenLine (written ++ rest) message

/-! ## What is scanned -/

/-- Scanning a stretch of text from one state leads to another, in front of any rest, and puts the
content before the words of the rest. -/
def Spells (a : WordState) (written content : List Char) (b : WordState) : Prop :=
  ∀ rest, wordsFrom a (written ++ rest) = (content.foldr consFirst ·) <$> wordsFrom b rest

theorem spells_nil (a : WordState) : Spells a [] [] a := by
  intro rest
  cases h : wordsFrom a rest <;> simp [h]

theorem Spells.append {a b d : WordState} {v s w t : List Char} (h : Spells a v s b)
    (h' : Spells b w t d) : Spells a (v ++ w) (s ++ t) d := by
  intro rest
  rw [List.append_assoc, h, h']
  cases wordsFrom d rest <;> simp

/-- One character is put before what follows. -/
theorem Spells.cons {a b d : WordState} {w s : List Char} {x c : Char}
    (hx : ∀ rest, wordsFrom a (x :: rest) = consFirst c <$> wordsFrom b rest)
    (h : Spells b w s d) : Spells a (x :: w) (c :: s) d := by
  intro rest
  rw [List.cons_append, hx, h]
  cases wordsFrom d rest <;> rfl

/-- One character is left out. -/
theorem Spells.skip {a b d : WordState} {w s : List Char} {x : Char}
    (hx : ∀ rest, wordsFrom a (x :: rest) = wordsFrom b rest)
    (h : Spells b w s d) : Spells a (x :: w) s d := by
  intro rest
  rw [List.cons_append, hx, h]

/-- Inside single quotes everything but a single quote is taken as it is. -/
theorem spells_single {content : List Char} (h : '\'' ∉ content) :
    Spells .single content content .single := by
  induction content with
  | nil => exact spells_nil .single
  | cons c content ih =>
    rw [List.mem_cons, not_or] at h
    refine .cons (fun rest => ?_) (ih h.2)
    rw [wordsFrom, if_neg (Ne.symm h.1)]

theorem spells_doubleQuoted {written content : List Char} (h : DoubleQuoted written content) :
    Spells .double written content .double := by
  induction h with
  | nil => exact spells_nil .double
  | plain hquote hescape _ ih =>
    refine .cons (fun rest => ?_) ih
    rw [wordsFrom, if_neg hquote, if_neg hescape]
  | escaped c _ ih =>
    exact .skip (b := .doubleEscape) (fun _ => rfl) (.cons (fun _ => rfl) ih)

/-- How the pieces begin inside a word. -/
theorem wordsFrom_word_opening (rest : List Char) :
    wordsFrom .word ('\'' :: rest) = wordsFrom .single rest ∧
      wordsFrom .word ('"' :: rest) = wordsFrom .double rest ∧
      wordsFrom .word ('\\' :: rest) = wordsFrom .escape rest :=
  ⟨rfl, rfl, rfl⟩

theorem spells_piece {p s : List Char} (h : Piece p s) : Spells .word p s .word := by
  cases h with
  | single hcontent =>
    have hclose : Spells .single ['\''] [] .word := .skip (fun _ => rfl) (spells_nil .word)
    have hrun := (spells_single hcontent).append hclose
    rw [List.append_nil] at hrun
    exact .skip (fun rest => (wordsFrom_word_opening rest).1) hrun
  | double hcontent =>
    have hclose : Spells .double ['"'] [] .word := .skip (fun _ => rfl) (spells_nil .word)
    have hrun := (spells_doubleQuoted hcontent).append hclose
    rw [List.append_nil] at hrun
    exact .skip (fun rest => (wordsFrom_word_opening rest).2.1) hrun
  | escape c =>
    exact .skip (fun rest => (wordsFrom_word_opening rest).2.2)
      (.cons (fun _ => rfl) (spells_nil .word))
  | @plain c hblank hsingle hdouble hescape =>
    refine .cons (fun rest => ?_) (spells_nil .word)
    rw [wordsFrom, hblank, if_neg Bool.false_ne_true, WordState.onPiece, if_neg hsingle,
      if_neg hdouble, if_neg hescape]

theorem spells_pieces {written content : List Char} (h : Pieces written content) :
    Spells .word written content .word := by
  induction h with
  | nil => exact spells_nil .word
  | cons hp _ ih => exact (spells_piece hp).append ih

/-- A piece does not begin with a blank. -/
theorem Piece.head_not_blank {p s : List Char} (h : Piece p s) :
    ∃ c r, p = c :: r ∧ isBlank c = false := by
  cases h with
  | single => exact ⟨_, _, rfl, by decide⟩
  | double => exact ⟨_, _, rfl, by decide⟩
  | escape => exact ⟨_, _, rfl, by decide⟩
  | plain hblank => exact ⟨_, _, rfl, hblank⟩

theorem OpenPiece.head_not_blank {tail : List Char} {message : String}
    (h : OpenPiece tail message) : ∃ c r, tail = c :: r ∧ isBlank c = false ∧ c ≠ '#' := by
  cases h <;> exact ⟨_, _, rfl, by decide, by decide⟩

/-- Where a word starts it is scanned as in its middle, if what stands there is no comment. -/
theorem wordsFrom_gap_eq_word {c : Char} (hblank : isBlank c = false) (hcomment : c ≠ '#')
    (rest : List Char) : wordsFrom .gap (c :: rest) = wordsFrom .word (c :: rest) := by
  rw [wordsFrom, wordsFrom, hblank, if_neg Bool.false_ne_true, if_neg hcomment,
    if_neg Bool.false_ne_true]

theorem wordsFrom_gap_pieces {written content : List Char} (hp : Pieces written content)
    (hstart : written.head? ≠ some '#') (hne : written ≠ []) (rest : List Char) :
    wordsFrom .gap (written ++ rest) = wordsFrom .word (written ++ rest) := by
  cases hp with
  | nil => exact absurd rfl hne
  | cons hp _ =>
    obtain ⟨c, r, rfl, hblank⟩ := hp.head_not_blank
    have hcomment : c ≠ '#' := fun hc => hstart (congrArg some hc)
    rw [List.cons_append, List.cons_append, wordsFrom_gap_eq_word hblank hcomment]

/-- A word is scanned as its content. -/
theorem wordsFrom_of_word {written content rest : List Char} (hw : Word written content)
    (hend : EndsWord rest) :
    wordsFrom .gap (written ++ rest) = (content :: ·) <$> wordsFrom .gap rest := by
  refine wordsFrom_gap_of_foldr hend ?_
  rw [wordsFrom_gap_pieces hw.pieces hw.noComment hw.nonempty, spells_pieces hw.pieces]

/-- A line is scanned as the contents of its words. -/
theorem wordsFrom_of_line {line : List Char} {ws : List (List Char)} (h : Line line ws) :
    wordsFrom .gap line = .ok ws := by
  induction h with
  | nil => rfl
  | comment rest => rfl
  | blank hc _ ih => rw [wordsFrom, if_pos hc, ih]
  | word hw hend _ ih =>
    rw [wordsFrom_of_word hw hend, ih]
    rfl

/-- A piece that is cut off is reported. -/
theorem wordsFrom_of_openPiece {tail : List Char} {message : String} (h : OpenPiece tail message) :
    ∃ fault, wordsFrom .word tail = .error fault ∧ fault.message = message := by
  -- Nothing follows, so the fault is that of the end of the line in the state that was reached.
  have hstop : ∀ {a b : WordState} {written content : List Char} {fault : WordFault},
      Spells a written content b → wordsFrom b [] = .error fault →
        wordsFrom a written = .error fault := by
    intro a b written content fault hspells hend
    have heq := hspells []
    rw [List.append_nil, hend] at heq
    exact heq
  cases h with
  | single hcontent => exact ⟨.openSingleQuote, hstop (spells_single hcontent) rfl, rfl⟩
  | double hcontent => exact ⟨.openDoubleQuote, hstop (spells_doubleQuoted hcontent) rfl, rfl⟩
  | doubleEscape hcontent =>
    have hescape : Spells .double ['\\'] [] .doubleEscape :=
      .skip (fun _ => rfl) (spells_nil .doubleEscape)
    have hrun := (spells_doubleQuoted hcontent).append hescape
    exact ⟨.escapeInDoubleQuote, hstop hrun rfl, rfl⟩
  | escape => exact ⟨.escapeAtEnd, rfl, rfl⟩

/-- So is a line that ends too early. -/
theorem wordsFrom_of_openLine {line : List Char} {message : String} (h : OpenLine line message) :
    ∃ fault, wordsFrom .gap line = .error fault ∧ fault.message = message := by
  induction h with
  | @last written content tail message hp hstart htail =>
    obtain ⟨fault, hfault, hmessage⟩ := wordsFrom_of_openPiece htail
    refine ⟨fault, ?_, hmessage⟩
    have hgap : wordsFrom .gap (written ++ tail) = wordsFrom .word (written ++ tail) := by
      by_cases hne : written = []
      · obtain ⟨c, r, rfl, hblank, hcomment⟩ := htail.head_not_blank
        rw [hne, List.nil_append, wordsFrom_gap_eq_word hblank hcomment]
      · exact wordsFrom_gap_pieces hp hstart hne tail
    rw [hgap, spells_pieces hp, hfault]
    rfl
  | blank hc _ ih =>
    obtain ⟨fault, hfault, hmessage⟩ := ih
    exact ⟨fault, by rw [wordsFrom, if_pos hc, hfault], hmessage⟩
  | word hw hend _ ih =>
    obtain ⟨fault, hfault, hmessage⟩ := ih
    refine ⟨fault, ?_, hmessage⟩
    rw [wordsFrom_of_word hw hend, hfault]
    rfl

/-! ## Every line is of one kind -/

/-- What follows a double quote: a closed run, or one that the end of the line cuts off. -/
theorem doubleQuoted_cases (r : List Char) :
    (∃ written content rest, r = written ++ '"' :: rest ∧ DoubleQuoted written content) ∨
      ∃ message, OpenPiece ('"' :: r) message := by
  -- Putting one more character in front keeps both cases.
  have hadd : ∀ (front : List Char) {r : List Char} {c : Char},
      (∀ {w s}, DoubleQuoted w s → DoubleQuoted (front ++ w) (c :: s)) →
      ((∃ written content rest, r = written ++ '"' :: rest ∧ DoubleQuoted written content) ∨
        ∃ message, OpenPiece ('"' :: r) message) →
      (∃ written content rest, front ++ r = written ++ '"' :: rest ∧
          DoubleQuoted written content) ∨ ∃ message, OpenPiece ('"' :: (front ++ r)) message := by
    rintro front r c hfront (⟨written, content, rest, rfl, h⟩ | ⟨message, h⟩)
    · exact Or.inl ⟨front ++ written, _, rest, (List.append_assoc _ _ _).symm, hfront h⟩
    · cases h with
      | double h => exact Or.inr ⟨_, .double (hfront h)⟩
      | doubleEscape h =>
        rw [← List.append_assoc]
        exact Or.inr ⟨_, .doubleEscape (hfront h)⟩
  induction hn : r.length using Nat.strongRecOn generalizing r with
  | ind n ih =>
    subst hn
    cases r with
    | nil => exact Or.inr ⟨_, .double .nil⟩
    | cons c rest =>
      by_cases hquote : c = '"'
      · exact Or.inl ⟨[], [], rest, by rw [hquote]; rfl, .nil⟩
      by_cases hescape : c = '\\'
      · subst hescape
        cases rest with
        | nil => exact Or.inr ⟨_, .doubleEscape .nil⟩
        | cons d rest =>
          have hlength : rest.length < ('\\' :: d :: rest).length := by
            simp only [List.length_cons]
            omega
          exact hadd ['\\', d] (.escaped d) (ih rest.length hlength rest rfl)
      · exact hadd [c] (.plain hquote hescape) (ih rest.length (by simp) rest rfl)

/-- What follows the start of a word: pieces up to where the word ends, or a piece that the end of
the line cuts off. -/
theorem pieces_cases (r : List Char) :
    ∃ written content rest, r = written ++ rest ∧ Pieces written content ∧
      (EndsWord rest ∨ ∃ message, OpenPiece rest message) := by
  induction hn : r.length using Nat.strongRecOn generalizing r with
  | ind n ih =>
    subst hn
    -- A piece at the front leaves a shorter text.
    have hpiece : ∀ {p s : List Char} (rest : List Char), r = p ++ rest → Piece p s →
        ∃ written content rest, r = written ++ rest ∧ Pieces written content ∧
          (EndsWord rest ∨ ∃ message, OpenPiece rest message) := by
      rintro p s rest rfl hp
      obtain ⟨c, q, rfl, -⟩ := hp.head_not_blank
      have hlength : rest.length < (c :: q ++ rest).length := by
        rw [List.length_append, List.length_cons]
        omega
      obtain ⟨written, content, rest, rfl, hpieces, hend⟩ := ih rest.length hlength rest rfl
      exact ⟨_, _, rest, (List.append_assoc _ _ _).symm, .cons hp hpieces, hend⟩
    have hhere : (EndsWord r ∨ ∃ message, OpenPiece r message) →
        ∃ written content rest, r = written ++ rest ∧ Pieces written content ∧
          (EndsWord rest ∨ ∃ message, OpenPiece rest message) :=
      fun hend => ⟨[], [], r, rfl, .nil, hend⟩
    cases r with
    | nil => exact hhere (Or.inl fun _ h => nomatch h)
    | cons c rest =>
      cases hblank : isBlank c with
      | true => exact hhere (Or.inl fun d hd => Option.some.inj hd ▸ hblank)
      | false =>
        by_cases hsingle : c = '\''
        · subst hsingle
          by_cases hclosed : '\'' ∈ rest
          · obtain ⟨content, after, rfl, hcontent⟩ := List.eq_append_cons_of_mem hclosed
            exact hpiece after (by simp) (.single hcontent)
          · exact hhere (Or.inr ⟨_, .single hclosed⟩)
        by_cases hdouble : c = '"'
        · subst hdouble
          rcases doubleQuoted_cases rest with ⟨written, content, after, rfl, h⟩ | hopen
          · exact hpiece after (by simp) (.double h)
          · exact hhere (Or.inr hopen)
        by_cases hescape : c = '\\'
        · subst hescape
          cases rest with
          | nil => exact hhere (Or.inr ⟨_, .escape⟩)
          | cons d after => exact hpiece after rfl (.escape d)
        · exact hpiece rest rfl (.plain hblank hsingle hdouble hescape)

/-- Every line has words, or it ends too early. -/
theorem line_or_openLine (line : List Char) :
    (∃ ws, Line line ws) ∨ ∃ message, OpenLine line message := by
  induction hn : line.length using Nat.strongRecOn generalizing line with
  | ind n ih =>
    subst hn
    cases line with
    | nil => exact Or.inl ⟨_, .nil⟩
    | cons c r =>
      by_cases hcomment : c = '#'
      · subst hcomment
        exact Or.inl ⟨_, .comment r⟩
      cases hblank : isBlank c with
      | true =>
        rcases ih r.length (by simp) r rfl with ⟨ws, h⟩ | ⟨message, h⟩
        · exact Or.inl ⟨ws, .blank hblank h⟩
        · exact Or.inr ⟨message, .blank hblank h⟩
      | false =>
        obtain ⟨written, content, rest, hline, hpieces, hend⟩ := pieces_cases (c :: r)
        have hstart : written.head? ≠ some '#' := by
          cases written with
          | nil => simp
          | cons d w =>
            obtain ⟨rfl, -⟩ := List.cons.inj hline
            exact fun h => hcomment (Option.some.inj h)
        rcases hend with hend | ⟨message, hopen⟩
        · have hne : written ≠ [] := by
            rintro rfl
            obtain rfl : c :: r = rest := hline
            exact absurd (hend c rfl) (by simp [hblank])
          have hword : Word written content := ⟨hpieces, hne, hstart⟩
          have hlength : rest.length < (c :: r).length := by
            have hpos := List.length_pos_iff.2 hne
            rw [hline, List.length_append]
            omega
          rw [hline]
          rcases ih rest.length hlength rest rfl with ⟨ws, h⟩ | ⟨message, h⟩
          · exact Or.inl ⟨_, .word hword hend h⟩
          · exact Or.inr ⟨_, .word hword hend h⟩
        · rw [hline]
          exact Or.inr ⟨message, .last hpieces hstart hopen⟩

/-- **The words of a line are those of its grammar.**  A line has words exactly if it is made as the
grammar says, and they are the contents of its words in order, the empty ones among them.  It has
none exactly if it ends too early, and then it is reported how. -/
theorem words_iff_line (line : List Char) :
    (∀ ts, words line = .ok ts ↔ ∃ ws, Line line ws ∧ ts = ws.map String.ofList) ∧
      ∀ message, (∃ fault, words line = .error fault ∧ fault.message = message) ↔
        OpenLine line message := by
  have hok : ∀ {ws}, Line line ws → words line = .ok (ws.map String.ofList) := fun h => by
    rw [words, wordsFrom_of_line h]
    rfl
  have herror : ∀ {message}, OpenLine line message →
      ∃ fault, words line = .error fault ∧ fault.message = message := fun h => by
    obtain ⟨fault, hfault, hmessage⟩ := wordsFrom_of_openLine h
    refine ⟨fault, ?_, hmessage⟩
    rw [words, hfault]
    rfl
  constructor
  · intro ts
    constructor
    · intro hts
      rcases line_or_openLine line with ⟨ws, h⟩ | ⟨message, h⟩
      · exact ⟨ws, h, Except.ok.inj (hts.symm.trans (hok h))⟩
      · obtain ⟨fault, hfault, -⟩ := herror h
        exact absurd (hts.symm.trans hfault) (by simp)
    · rintro ⟨ws, h, rfl⟩
      exact hok h
  · intro message
    constructor
    · rintro ⟨fault, hfault, rfl⟩
      rcases line_or_openLine line with ⟨ws, h⟩ | ⟨message, h⟩
      · exact absurd (hfault.symm.trans (hok h)) (by simp)
      · obtain ⟨fault', hfault', rfl⟩ := herror h
        obtain rfl := Except.error.inj (hfault.symm.trans hfault')
        exact h
    · exact herror

example :
    words "list\t'a 'b\"\\\"c\"\\ d '' e#f #g '".toList = .ok ["list", "a b\"c d", "", "e#f"] := by
  decide

end Gatehouse.Uci
