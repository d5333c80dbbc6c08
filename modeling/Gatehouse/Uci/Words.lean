import Gatehouse.Text.Blank

/-!
# Words of a configuration line

A line is split at blanks.  A single-quoted run is taken as it stands, in a double-quoted run a
backslash makes the next character literal, and so it does outside quotes.  Quoted and plain pieces
without a blank between them are one word, and a `#` where a word could start begins a comment.
`quote` writes a text so that it is one word, and `words_quote` says that reading undoes it.
-/

namespace Gatehouse.Uci

open Gatehouse.Text

/-- Why a line has no words. -/
inductive WordFault where
  /-- The line ends inside single quotes. -/
  | openSingleQuote
  /-- The line ends inside double quotes. -/
  | openDoubleQuote
  /-- The line ends after a backslash inside double quotes. -/
  | escapeInDoubleQuote
  /-- The line ends after a backslash outside quotes. -/
  | escapeAtEnd
  deriving DecidableEq, Repr

/-- The wording of a fault. -/
def WordFault.message : WordFault → String
  | .openSingleQuote => "unterminated single quote"
  | .openDoubleQuote => "unterminated double quote"
  | .escapeInDoubleQuote => "dangling escape in double quote"
  | .escapeAtEnd => "dangling escape"

/-- Where the reading of a line stands. -/
inductive WordState where
  /-- Before a word. -/
  | gap
  /-- Inside a word, outside quotes. -/
  | word
  /-- Inside single quotes. -/
  | single
  /-- Inside double quotes. -/
  | double
  /-- After a backslash inside double quotes. -/
  | doubleEscape
  /-- After a backslash outside quotes. -/
  | escape
  deriving DecidableEq, Repr

/-- Puts a character in front of the first word. -/
def consFirst (c : Char) : List (List Char) → List (List Char)
  | [] => [[c]]
  | w :: ws => (c :: w) :: ws

/-- What a character that is not blank does outside quotes: the state after it, and the character
if it is part of the word itself. -/
def WordState.onPiece (c : Char) : WordState × Option Char :=
  if c = '\'' then (.single, none)
  else if c = '"' then (.double, none)
  else if c = '\\' then (.escape, none)
  else (.word, some c)

/-- The words of the rest of a line.  Unless the state is `gap`, the first of them is the rest of
the word that was begun. -/
def wordsFrom : WordState → List Char → Except WordFault (List (List Char))
  | .gap, [] => .ok []
  | .gap, c :: r =>
    if isBlank c then wordsFrom .gap r
    else if c = '#' then .ok []
    else
      match WordState.onPiece c with
      | (state, some d) => consFirst d <$> wordsFrom state r
      | (state, none) => wordsFrom state r
  | .word, [] => .ok [[]]
  | .word, c :: r =>
    if isBlank c then ([] :: ·) <$> wordsFrom .gap r
    else
      match WordState.onPiece c with
      | (state, some d) => consFirst d <$> wordsFrom state r
      | (state, none) => wordsFrom state r
  | .single, [] => .error .openSingleQuote
  | .single, c :: r => if c = '\'' then wordsFrom .word r else consFirst c <$> wordsFrom .single r
  | .double, [] => .error .openDoubleQuote
  | .double, c :: r =>
    if c = '"' then wordsFrom .word r
    else if c = '\\' then wordsFrom .doubleEscape r
    else consFirst c <$> wordsFrom .double r
  | .doubleEscape, [] => .error .escapeInDoubleQuote
  | .doubleEscape, c :: r => consFirst c <$> wordsFrom .double r
  | .escape, [] => .error .escapeAtEnd
  | .escape, c :: r => consFirst c <$> wordsFrom .word r

/-- The words of a line. -/
def words (line : List Char) : Except WordFault (List String) :=
  (·.map String.ofList) <$> wordsFrom .gap line

/-! ## Quoting -/

/-- A character of a quoted word as it is written: a single quote closes the quotes, stands escaped,
and opens them again. -/
def quoteChar (c : Char) : List Char :=
  if c = '\'' then ['\'', '\\', '\'', '\''] else [c]

/-- A word in single quotes, ready to stand in a line. -/
def quote (s : List Char) : List Char :=
  '\'' :: s.flatMap quoteChar ++ ['\'']

/-- A quoted text is read back in front of whatever follows its closing quote. -/
theorem wordsFrom_single (s r : List Char) :
    wordsFrom .single (s.flatMap quoteChar ++ '\'' :: r) =
      (s.foldr consFirst ·) <$> wordsFrom .word r := by
  induction s with
  | nil => cases h : wordsFrom .word r <;> simp [wordsFrom, h]
  | cons c s ih =>
    by_cases hc : c = '\''
    · subst hc
      have hescape : isBlank '\\' = false := by decide
      have hquote : isBlank '\'' = false := by decide
      simp [quoteChar, wordsFrom, WordState.onPiece, hescape, hquote, ih]
    · simp [quoteChar, hc, wordsFrom, ih]

theorem foldr_consFirst (s w : List Char) (ws : List (List Char)) :
    s.foldr consFirst (w :: ws) = (s ++ w) :: ws := by
  induction s with
  | nil => rfl
  | cons c s ih => simp [ih, consFirst]

/-- What can stand behind a word: a blank, or nothing more. -/
def EndsWord (r : List Char) : Prop :=
  ∀ c ∈ r.head?, isBlank c = true

theorem wordsFrom_word_of_endsWord {r : List Char} (h : EndsWord r) :
    wordsFrom .word r = ([] :: ·) <$> wordsFrom .gap r := by
  cases r with
  | nil => rfl
  | cons c r =>
    have hc : isBlank c = true := h c rfl
    rw [wordsFrom, wordsFrom, if_pos hc, if_pos hc]

/-- A text that is read into a word is that word, if it ends there. -/
theorem wordsFrom_gap_of_foldr {s written r : List Char} (hr : EndsWord r)
    (h : wordsFrom .gap (written ++ r) = (s.foldr consFirst ·) <$> wordsFrom .word r) :
    wordsFrom .gap (written ++ r) = (s :: ·) <$> wordsFrom .gap r := by
  rw [h, wordsFrom_word_of_endsWord hr]
  cases wordsFrom .gap r with
  | error fault => rfl
  | ok ws => exact congrArg Except.ok ((foldr_consFirst s [] ws).trans (by rw [List.append_nil]))

/-- A quoted text is one word in front of what ends it. -/
theorem wordsFrom_quote (s : List Char) {r : List Char} (hr : EndsWord r) :
    wordsFrom .gap (quote s ++ r) = (s :: ·) <$> wordsFrom .gap r := by
  refine wordsFrom_gap_of_foldr hr ?_
  have hgap : wordsFrom .gap (quote s ++ r) =
      wordsFrom .single (s.flatMap quoteChar ++ '\'' :: r) := by
    have hquote : isBlank '\'' = false := by decide
    simp [quote, wordsFrom, WordState.onPiece, hquote]
  rw [hgap, wordsFrom_single]

/-- Quoting is undone by reading: a quoted text is one word. -/
theorem words_quote (s : List Char) : words (quote s) = .ok [String.ofList s] := by
  have hend : EndsWord [] := fun _ h => nomatch h
  rw [words, ← List.append_nil (quote s), wordsFrom_quote s hend]
  rfl

end Gatehouse.Uci
