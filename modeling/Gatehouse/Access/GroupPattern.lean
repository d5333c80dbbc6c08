import Gatehouse.Glob.Matching

/-!
# Group patterns

A policy names groups by patterns in which a backslash makes the next character literal and a run
of stars counts as one.  `globOf` turns such a pattern into a plain glob pattern; a pattern that
has an unclosed bracket matches nothing.
-/

namespace Gatehouse.Access

open Gatehouse.Glob

/-- The glob text for a character that a backslash makes literal. -/
def literalGlob (c : Char) : List Char :=
  if c ∈ ['*', '?', '[', ']'] then ['[', c, ']'] else [c]

/-- Where the reading of a group pattern stands. -/
inductive PatternState where
  /-- Between the pieces of the pattern. -/
  | outside
  /-- Right after a star. -/
  | afterStar
  /-- Right after a backslash. -/
  | escaped
  /-- Right after an opening bracket. -/
  | bracketStart
  /-- Right after an opening bracket and its `!`. -/
  | bracketFirst
  /-- Inside a bracket, where `]` closes it. -/
  | inBracket
  deriving DecidableEq, Repr

/-- The glob pattern for the rest of a group pattern. -/
def globFrom : PatternState → List Char → List Char
  | .escaped, [] => ['\\']
  | _, [] => []
  | .outside, c :: r =>
    if c = '\\' then globFrom .escaped r
    else if c = '*' then '*' :: globFrom .afterStar r
    else if c = '[' then '[' :: globFrom .bracketStart r
    else c :: globFrom .outside r
  | .afterStar, c :: r =>
    if c = '*' then globFrom .afterStar r
    else if c = '\\' then globFrom .escaped r
    else if c = '[' then '[' :: globFrom .bracketStart r
    else c :: globFrom .outside r
  | .escaped, c :: r => literalGlob c ++ globFrom .outside r
  | .bracketStart, c :: r =>
    if c = '!' then '!' :: globFrom .bracketFirst r else c :: globFrom .inBracket r
  | .bracketFirst, c :: r => c :: globFrom .inBracket r
  | .inBracket, c :: r => if c = ']' then ']' :: globFrom .outside r else c :: globFrom .inBracket r

/-- The glob pattern that a group pattern stands for. -/
def globOf (s : List Char) : List Char :=
  globFrom .outside s

/-- A pattern for group names. -/
structure GroupPattern where
  /-- The pattern as it is written in the policy. -/
  text : String
  deriving DecidableEq, Repr

namespace GroupPattern

/-- The tokens of the pattern, unless it is malformed. -/
def tokens? (p : GroupPattern) : Option (List Token) :=
  (Token.parse (globOf p.text.toList)).toOption

/-- Whether the pattern is well formed. -/
def isValid (p : GroupPattern) : Bool :=
  p.tokens?.isSome

/-- Whether the pattern covers the whole of a name.  A malformed pattern covers none. -/
def covers (p : GroupPattern) (name : String) : Bool :=
  match p.tokens? with
  | some ts => accepts ts (plain name.toList)
  | none => false

end GroupPattern

end Gatehouse.Access
