/-!
# Shell glob patterns

A pattern is a list of tokens: literal characters, `?`, `*`, `**`, and bracket expressions.
`Token.parse` reads one and reports the first fault with its position, counted in characters.
-/

namespace Gatehouse.Glob

/-- A member of a bracket expression. -/
inductive Member where
  /-- One character. -/
  | single (c : Char)
  /-- All characters between two, both included; none if they stand the wrong way round. -/
  | range (lo hi : Char)
  deriving DecidableEq, Repr

/-- Whether the member covers a character. -/
def Member.covers (c : Char) : Member → Bool
  | .single d => c == d
  | .range lo hi => decide (lo ≤ c) && decide (c ≤ hi)

/-- The members of a bracket expression, left to right: three characters with a `-` in the middle
are a range, any other character is itself. -/
def Member.list : List Char → List Member
  | lo :: '-' :: hi :: r => .range lo hi :: Member.list r
  | c :: r => .single c :: Member.list r
  | [] => []

/-- A piece of a pattern. -/
inductive Token where
  /-- A literal character. -/
  | char (c : Char)
  /-- Any one character (`?`). -/
  | any
  /-- Any run of characters (`*`). -/
  | star
  /-- Any number of directories (`**`). -/
  | deep
  /-- One of the characters covered by the members. -/
  | within (members : List Member)
  /-- A character covered by none of the members. -/
  | except (members : List Member)
  deriving DecidableEq, Repr

/-- What is wrong with a pattern. -/
inductive Fault where
  /-- Three or more stars in a row. -/
  | manyStars
  /-- Two stars that are not a whole path component. -/
  | deepInside
  /-- A bracket that is not closed. -/
  | openBracket
  deriving DecidableEq, Repr

/-- A fault and the index of the character where it was noticed. -/
structure PatternError where
  /-- The index, in characters from the start of the pattern. -/
  position : Nat
  /-- What is wrong there. -/
  fault : Fault
  deriving DecidableEq, Repr

/-- The wording of a fault. -/
def Fault.message : Fault → String
  | .manyStars => "wildcards are either regular `*` or recursive `**`"
  | .deepInside => "recursive wildcards must form a single path component"
  | .openBracket => "invalid range pattern"

/-- The text that reports a pattern error. -/
def PatternError.message (e : PatternError) : String :=
  "Pattern syntax error near position " ++ toString e.position ++ ": " ++ e.fault.message

/-- The text before the first `]`, and the text after it. -/
def untilBracket : List Char → Option (List Char × List Char)
  | [] => none
  | c :: r => if c = ']' then some ([], r) else (untilBracket r).map fun (a, b) => (c :: a, b)

/-- The content of a bracket expression and the text after its `]`.  The first character of the
content is a member even if it is `]`. -/
def bracketBody : List Char → Option (List Char × List Char)
  | [] => none
  | c :: r => (untilBracket r).map fun (a, b) => (c :: a, b)

theorem length_of_untilBracket {s a b : List Char} (h : untilBracket s = some (a, b)) :
    a.length + b.length + 1 = s.length := by
  induction s generalizing a b with
  | nil => simp [untilBracket] at h
  | cons c r ih =>
    unfold untilBracket at h
    split at h
    · simp_all
    · obtain ⟨⟨a', b'⟩, hr, heq⟩ := Option.map_eq_some_iff.1 h
      cases heq
      have := ih hr
      simp
      omega

theorem length_of_bracketBody {s a b : List Char} (h : bracketBody s = some (a, b)) :
    a.length + b.length + 1 = s.length := by
  cases s with
  | nil => simp [bracketBody] at h
  | cons c r =>
    obtain ⟨⟨a', b'⟩, hr, heq⟩ := Option.map_eq_some_iff.1 h
    cases heq
    have := length_of_untilBracket hr
    simp
    omega

/-- The bracket expression after an opening bracket: its token and the text after it. -/
def bracket : List Char → Option (Token × List Char)
  | '!' :: r => (bracketBody r).map fun (body, rest) => (.except (Member.list body), rest)
  | r => (bracketBody r).map fun (body, rest) => (.within (Member.list body), rest)

theorem length_of_bracket {s r : List Char} {t : Token} (h : bracket s = some (t, r)) :
    r.length < s.length := by
  unfold bracket at h
  split at h <;>
  · obtain ⟨⟨a, b⟩, hb, heq⟩ := Option.map_eq_some_iff.1 h
    cases heq
    have := length_of_bracketBody hb
    simp
    omega

/-- Reads a pattern from the character with index `position`; `before` is the character that
precedes it. -/
def Token.parseFrom (position : Nat) (before : Option Char) (s : List Char) :
    Except PatternError (List Token) :=
  match s with
  | [] => .ok []
  | '?' :: r => (Token.any :: ·) <$> parseFrom (position + 1) (some '?') r
  | '*' :: '*' :: '*' :: _ => .error ⟨position + 2, .manyStars⟩
  | '*' :: '*' :: r =>
    if before = none ∨ before = some '/' then
      match r with
      | [] => .ok [.deep]
      | c :: r' =>
        if c = '/' then (Token.deep :: ·) <$> parseFrom (position + 3) (some '/') r'
        else .error ⟨position + 2, .deepInside⟩
    else .error ⟨position - 1, .deepInside⟩
  | '*' :: r => (Token.star :: ·) <$> parseFrom (position + 1) (some '*') r
  | '[' :: r =>
    match _h : bracket r with
    | none => .error ⟨position, .openBracket⟩
    | some (t, rest) =>
      (t :: ·) <$> parseFrom (position + (1 + r.length - rest.length)) (some ']') rest
  | c :: r => (Token.char c :: ·) <$> parseFrom (position + 1) (some c) r
termination_by s.length
decreasing_by
  all_goals simp only [List.length_cons]
  all_goals first
    | omega
    | exact Nat.lt_succ_of_lt (length_of_bracket _h)

/-- Reads a pattern. -/
def Token.parse (s : List Char) : Except PatternError (List Token) :=
  Token.parseFrom 0 none s

/-- The pattern that stands for a text itself: each metacharacter becomes a bracket expression. -/
def escape (s : List Char) : List Char :=
  s.flatMap fun c => if c ∈ ['?', '*', '[', ']'] then ['[', c, ']'] else [c]

end Gatehouse.Glob
