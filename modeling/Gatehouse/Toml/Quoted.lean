import Gatehouse.Toml.Scalar

/-!
# TOML strings

Basic strings know escapes, literal strings do not, and both may run over several lines if they are
quoted three times.  A newline right after the opening quotes is dropped, line ends are read as one
newline, and a closing run of quotes may have up to two more of them, which belong to the text.
-/

namespace Gatehouse.Toml

/-- A reader takes something from the front of a text, if it is there. -/
abbrev Reader (α : Type) := List Char → Option (α × List Char)

/-- Whether a character may stand in a string or comment: all but control characters. -/
def isText (c : Char) : Bool :=
  c == '\t' || (0x20 ≤ c.toNat && c.toNat != 0x7F)

/-- Whether a character is blank within a line. -/
def isGap (c : Char) : Bool :=
  c == ' ' || c == '\t'

/-- Reads a line end. -/
def newline? : List Char → Option (List Char)
  | '\n' :: r => some r
  | '\r' :: '\n' :: r => some r
  | _ => none

/-- The character with a code point, unless there is none. -/
def charOf? (n : Nat) : Option Char :=
  if n.isValidChar then some (Char.ofNat n) else none

/-- The character that hexadecimal digits stand for. -/
def hexEscape? (ds : List Char) : Option Char :=
  if ds.all isHexDigit then charOf? (valueIn 16 ds) else none

/-- Reads what follows a backslash. -/
def escape? (s : List Char) : Option (Char × { r : List Char // r.length < s.length }) :=
  match s with
  | 'u' :: a :: b :: c :: d :: r =>
    (hexEscape? [a, b, c, d]).map fun x => (x, ⟨r, by simp; omega⟩)
  | 'U' :: a :: b :: c :: d :: e :: f :: g :: h :: r =>
    (hexEscape? [a, b, c, d, e, f, g, h]).map fun x => (x, ⟨r, by simp; omega⟩)
  | c :: r =>
    let found :=
      if c = 'b' then some '\x08'
      else if c = 't' then some '\t'
      else if c = 'n' then some '\n'
      else if c = 'f' then some '\x0c'
      else if c = 'r' then some '\r'
      else if c = '"' ∨ c = '\\' then some c
      else none
    found.map fun x => (x, ⟨r, by simp⟩)
  | [] => none

/-- Puts a character in front of what a reader found. -/
def consTo (c : Char) : Option (List Char × List Char) → Option (List Char × List Char)
  | some (cs, r) => some (c :: cs, r)
  | none => none

/-- Reads the rest of a basic string of one line. -/
def basicBody (s : List Char) : Option (List Char × List Char) :=
  match s with
  | [] => none
  | c :: r =>
    if c = '"' then some ([], r)
    else if c = '\\' then
      match escape? r with
      | some (d, ⟨r', _⟩) => consTo d (basicBody r')
      | none => none
    else if isText c then consTo c (basicBody r)
    else none
termination_by s.length

/-- Reads the rest of a literal string of one line. -/
def literalBody : List Char → Option (List Char × List Char)
  | [] => none
  | c :: r =>
    if c = '\'' then some ([], r)
    else if isText c then consTo c (literalBody r)
    else none

/-- Closes a string in front of a run of three or more quotes: up to two of them are text. -/
def closeRun (quote : Char) (s : List Char) : Option (List Char × List Char) :=
  let run := s.takeWhile (· == quote)
  let extra := min (run.length - 3) 2
  if run.length < 3 then none else some (run.take extra, s.drop (extra + 3))

/-- Drops blanks and line ends. -/
def dropBlankLines : List Char → List Char
  | [] => []
  | '\r' :: '\n' :: r => dropBlankLines r
  | c :: r => if isGap c ∨ c = '\n' then dropBlankLines r else c :: r

/-- Drops blanks. -/
def dropGap (s : List Char) : List Char :=
  s.dropWhile isGap

theorem length_dropBlankLines (s : List Char) : (dropBlankLines s).length ≤ s.length := by
  fun_induction dropBlankLines s <;> simp_all <;> omega

theorem length_dropGap (s : List Char) : (dropGap s).length ≤ s.length :=
  (List.dropWhile_sublist _).length_le

theorem length_newline {s r : List Char} (h : newline? s = some r) : r.length < s.length := by
  unfold newline? at h
  split at h
  · cases h; simp
  · cases h; simp only [List.length_cons]; omega
  · cases h

/-- Reads the rest of a basic string of several lines.  A backslash at the end of a line swallows
the line end and all blanks and line ends after it. -/
def basicLines (s : List Char) : Option (List Char × List Char) :=
  match s with
  | [] => none
  | c :: r =>
    if c = '"' then
      if ['"', '"'].isPrefixOf r then closeRun '"' (c :: r) else consTo c (basicLines r)
    else if c = '\\' then
      match _hn : newline? (dropGap r) with
      | some r' => basicLines (dropBlankLines r')
      | none =>
        match escape? r with
        | some (d, ⟨r', _⟩) => consTo d (basicLines r')
        | none => none
    else
      match _hn : newline? (c :: r) with
      | some r' => consTo '\n' (basicLines r')
      | none => if isText c then consTo c (basicLines r) else none
termination_by s.length
decreasing_by
  all_goals simp only [List.length_cons]
  · omega
  · have h₁ := length_dropBlankLines r'
    have h₂ := length_newline _hn
    have h₃ := length_dropGap r
    omega
  · omega
  · have h₁ := length_newline _hn
    simp only [List.length_cons] at h₁
    omega
  · omega

/-- Reads the rest of a literal string of several lines. -/
def literalLines (s : List Char) : Option (List Char × List Char) :=
  match s with
  | [] => none
  | c :: r =>
    if c = '\'' then
      if ['\'', '\''].isPrefixOf r then closeRun '\'' (c :: r) else consTo c (literalLines r)
    else
      match _hn : newline? (c :: r) with
      | some r' => consTo '\n' (literalLines r')
      | none => if isText c then consTo c (literalLines r) else none
termination_by s.length
decreasing_by
  all_goals simp only [List.length_cons]
  · omega
  · have h₁ := length_newline _hn
    simp only [List.length_cons] at h₁
    omega
  · omega

/-- Drops a line end in front of the text of a string of several lines. -/
def dropFirstNewline (s : List Char) : List Char :=
  (newline? s).getD s

/-- Reads a string of one line. -/
def lineString? : Reader (List Char)
  | '"' :: r => basicBody r
  | '\'' :: r => literalBody r
  | _ => none

/-- Reads a string of any kind. -/
def string? : Reader (List Char)
  | '"' :: '"' :: '"' :: r => basicLines (dropFirstNewline r)
  | '\'' :: '\'' :: '\'' :: r => literalLines (dropFirstNewline r)
  | s => lineString? s

end Gatehouse.Toml
