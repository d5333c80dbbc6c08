import Gatehouse.Glob.Pattern

/-!
# Matching a text against a pattern

`row` works backwards over the tokens and tells, for every suffix of the text, whether the tokens
match the whole of it.  The cost is the product of the two lengths, whatever stars there are.
`accepts_star_cons` and `accepts_cons_cons` say what that comes to for the first token.
-/

namespace Gatehouse.Glob

/-- A character of the text to match. -/
structure Symbol where
  /-- The character. -/
  char : Char
  /-- A guarded character is matched by a literal only, never by a wildcard. -/
  guarded : Bool
  deriving DecidableEq, Repr

/-- The characters of a text, none of them guarded. -/
def plain (s : List Char) : List Symbol :=
  s.map fun c => ⟨c, false⟩

/-- The characters of a file name: a dot at its start is guarded. -/
def ofFileName : List Char → List Symbol
  | [] => []
  | c :: r => ⟨c, c == '.'⟩ :: plain r

/-- Whether a token that stands for one character takes this one. -/
def Token.takes (x : Symbol) : Token → Bool
  | .char c => c == x.char
  | .any => !x.guarded
  | .within ms => !x.guarded && ms.any (·.covers x.char)
  | .except ms => !x.guarded && !ms.any (·.covers x.char)
  | .star | .deep => false

/-- The row of one character token in front of tokens with the row `next`. -/
def stepRow (t : Token) : List Symbol → List Bool → List Bool
  | x :: s, _ :: bs => (t.takes x && bs.headD false) :: stepRow t s bs
  | _, _ => [false]

/-- The row of a star in front of tokens with the row `next`. -/
def starRow : List Symbol → List Bool → List Bool
  | x :: s, b :: bs =>
    let rest := starRow s bs
    (b || (!x.guarded && rest.headD false)) :: rest
  | _, bs => bs

/-- For each suffix of the text, the longest first, whether the tokens match the whole of it. -/
def row : List Token → List Symbol → List Bool
  | [], s => s.map (fun _ => false) ++ [true]
  | t :: ts, s =>
    match t with
    | .star | .deep => starRow s (row ts s)
    | t => stepRow t s (row ts s)

/-- Whether the tokens match the whole text. -/
def accepts (ts : List Token) (s : List Symbol) : Bool :=
  (row ts s).headD false

/-! ## One token at a time -/

theorem exists_row_cons (ts : List Token) (x : Symbol) (s : List Symbol) :
    ∃ b, row ts (x :: s) = b :: row ts s := by
  induction ts with
  | nil => exact ⟨false, rfl⟩
  | cons t ts ih =>
    obtain ⟨b, hb⟩ := ih
    cases t <;> simp only [row, hb] <;> exact ⟨_, rfl⟩

/-- The row of a text goes on with the row of the text without its first character. -/
theorem row_cons (ts : List Token) (x : Symbol) (s : List Symbol) :
    row ts (x :: s) = accepts ts (x :: s) :: row ts s := by
  obtain ⟨b, hb⟩ := exists_row_cons ts x s
  rw [accepts, hb]
  rfl

/-- The row of the empty text has one element. -/
theorem row_nil (ts : List Token) : row ts [] = [accepts ts []] := by
  have h : ∃ b, row ts [] = [b] := by
    induction ts with
    | nil => exact ⟨true, rfl⟩
    | cons t ts ih =>
      obtain ⟨b, hb⟩ := ih
      cases t <;> simp only [row, hb] <;> exact ⟨_, rfl⟩
  obtain ⟨b, hb⟩ := h
  rw [accepts, hb]
  rfl

theorem accepts_nil (s : List Symbol) : accepts [] s = s.isEmpty := by
  cases s <;> rfl

/-- A star takes nothing, or one character that is not guarded and goes on. -/
theorem accepts_star_cons (ts : List Token) (x : Symbol) (s : List Symbol) :
    accepts (.star :: ts) (x :: s) =
      (accepts ts (x :: s) || (!x.guarded && accepts (.star :: ts) s)) := by
  conv => lhs; rw [accepts, row, row_cons]
  rfl

theorem accepts_star_nil (ts : List Token) : accepts (.star :: ts) [] = accepts ts [] := by
  conv => lhs; rw [accepts, row, row_nil]
  rfl

theorem row_of_ne_star {t : Token} (hstar : t ≠ .star) (hdeep : t ≠ .deep) (ts : List Token)
    (s : List Symbol) : row (t :: ts) s = stepRow t s (row ts s) := by
  cases t
  case star => exact absurd rfl hstar
  case deep => exact absurd rfl hdeep
  all_goals rfl

/-- A token that is no star takes exactly one character. -/
theorem accepts_cons_cons {t : Token} (hstar : t ≠ .star) (hdeep : t ≠ .deep) (ts : List Token)
    (x : Symbol) (s : List Symbol) :
    accepts (t :: ts) (x :: s) = (t.takes x && accepts ts s) := by
  rw [accepts, row_of_ne_star hstar hdeep, row_cons]
  rfl

theorem accepts_cons_nil {t : Token} (hstar : t ≠ .star) (hdeep : t ≠ .deep) (ts : List Token) :
    accepts (t :: ts) [] = false := by
  rw [accepts, row_of_ne_star hstar hdeep]
  rfl

end Gatehouse.Glob
