import Gatehouse.Decimal

/-!
# TOML scalars

Numbers, truth values, dates and times are written as one unbroken token.  A token is classified by
its whole text; dates have to exist in the calendar, integers fit 64 bits with a sign, and floats
must not be rounded to positive infinity.
-/

namespace Gatehouse.Toml

open Gatehouse.Decimal

/-- A value that has no parts. -/
inductive Scalar where
  | string (text : String)
  | integer (value : Int)
  | float
  | boolean (value : Bool)
  | moment
  deriving DecidableEq, Repr

/-! ## Digits -/

/-- The characters of the rest of a number whose digits satisfy `p`, without the underscores, each
of which must have a digit after it. -/
def moreDigits (p : Char → Bool) : List Char → Option (List Char)
  | [] => some []
  | '_' :: c :: r => if p c then (c :: ·) <$> moreDigits p r else none
  | c :: r => if p c then (c :: ·) <$> moreDigits p r else none

/-- The digits of a number without the underscores, which stand between digits only. -/
def groupedDigits (p : Char → Bool) : List Char → Option (List Char)
  | [] => none
  | c :: r => if p c then (c :: ·) <$> moreDigits p r else none

/-- The digits of a decimal number that has no zero in front of others. -/
def plainDigits (s : List Char) : Option (List Char) :=
  match s with
  | ['0'] => some ['0']
  | '0' :: _ => none
  | s => groupedDigits Char.isDigit s

/-- Whether a number is negative, and its text without the sign. -/
def splitSign : List Char → Bool × List Char
  | '-' :: r => (true, r)
  | '+' :: r => (false, r)
  | s => (false, s)

/-! ## Integers -/

/-- The value of a hexadecimal digit. -/
def hexValue (c : Char) : Nat :=
  if c.isDigit then digitValue c
  else if 'a' ≤ c ∧ c ≤ 'f' then c.toNat - 'a'.toNat + 10
  else c.toNat - 'A'.toNat + 10

/-- Whether a character is a hexadecimal digit. -/
def isHexDigit (c : Char) : Bool :=
  c.isDigit || ('a' ≤ c && c ≤ 'f') || ('A' ≤ c && c ≤ 'F')

/-- The value of digits in a base. -/
def valueIn (base : Nat) (ds : List Char) : Nat :=
  ds.foldl (fun n c => n * base + hexValue c) 0

/-- The greatest integer. -/
def integerMax : Nat := Nat.pow 2 63 - 1

/-- The integer with these digits in a base, if it is not too large. -/
def integerIn (base : Nat) (ds : Option (List Char)) : Option Int :=
  match ds with
  | some ds => if valueIn base ds ≤ integerMax then some (valueIn base ds) else none
  | none => none

/-- Reads an integer. -/
def integer? (s : List Char) : Option Int :=
  match s with
  | '0' :: 'x' :: r => integerIn 16 (groupedDigits isHexDigit r)
  | '0' :: 'o' :: r => integerIn 8 (groupedDigits (fun c => '0' ≤ c && c ≤ '7') r)
  | '0' :: 'b' :: r => integerIn 2 (groupedDigits (fun c => c == '0' || c == '1') r)
  | s =>
    let (negative, r) := splitSign s
    match plainDigits r with
    | none => none
    | some ds =>
      let n := natOf ds
      if negative then (if n ≤ integerMax + 1 then some (-(n : Int)) else none)
      else (if n ≤ integerMax then some n else none)

/-! ## Floats -/

/-- Whether digits times a power of ten is rounded beyond the greatest double. -/
def beyondDouble (ds : List Char) (power : Int) : Bool :=
  let n := natOf ds
  if n = 0 then false
  else if 0 ≤ power then
    if power > 310 then true else decide (doubleLimit ≤ n * Nat.pow 10 power.toNat)
  else if (-power).toNat > ds.length then false
  else decide (doubleLimit * Nat.pow 10 (-power).toNat ≤ n)

/-- The value of an exponent without its letter. -/
def exponent? (s : List Char) : Option Int :=
  let (negative, r) := splitSign s
  (groupedDigits Char.isDigit r).map fun ds => if negative then -(natOf ds : Int) else natOf ds

/-- Whether a text is a float. -/
def isFloat (s : List Char) : Bool :=
  let (negative, r) := splitSign s
  if r = ['i', 'n', 'f'] ∨ r = ['n', 'a', 'n'] then true
  else
    let isE (c : Char) := c == 'e' || c == 'E'
    let mantissa := r.takeWhile (!isE ·)
    let power := (r.dropWhile (!isE ·)).drop 1
    let whole := mantissa.takeWhile (· != '.')
    let places := (mantissa.dropWhile (· != '.')).drop 1
    let hasPoint := mantissa.contains '.'
    let hasPower := r.any isE
    match plainDigits whole,
      (if hasPoint then groupedDigits Char.isDigit places else some []),
      (if hasPower then exponent? power else some 0) with
    | some w, some f, some e =>
      (hasPoint || hasPower) && (negative || !beyondDouble (w ++ f) (e - (f.length : Int)))
    | _, _, _ => false

/-! ## Dates and times -/

/-- Reads two digits whose value lies between two numbers. -/
def twoDigits? (least most : Nat) : List Char → Option (Nat × List Char)
  | a :: b :: r =>
    let n := digitValue a * 10 + digitValue b
    if a.isDigit && b.isDigit && decide (least ≤ n) && decide (n ≤ most) then some (n, r) else none
  | _ => none

/-- How many days a month has. -/
def daysIn (year month : Nat) : Nat :=
  if month = 2 then
    if year % 4 = 0 ∧ (year % 100 ≠ 0 ∨ year % 400 = 0) then 29 else 28
  else if month ∈ [4, 6, 9, 11] then 30
  else 31

/-- Reads a date. -/
def date? : List Char → Option (List Char)
  | a :: b :: c :: d :: '-' :: r => do
    guard ([a, b, c, d].all Char.isDigit)
    let (month, r) ← twoDigits? 1 12 r
    match r with
    | '-' :: r => do
      let (day, r) ← twoDigits? 1 31 r
      guard (decide (day ≤ daysIn (natOf [a, b, c, d]) month))
      pure r
    | _ => none
  | _ => none

/-- Reads a colon and two digits. -/
def colonDigits? (most : Nat) : List Char → Option (List Char)
  | ':' :: r => (twoDigits? 0 most r).map (·.2)
  | _ => none

/-- Reads a time of day. -/
def time? (s : List Char) : Option (List Char) := do
  let (_, r) ← twoDigits? 0 23 s
  let r ← colonDigits? 59 r
  let r ← colonDigits? 60 r
  match r with
  | '.' :: c :: r' => if c.isDigit then pure (r'.dropWhile Char.isDigit) else none
  | '.' :: [] => none
  | r => pure r

/-- Whether a text is empty or a distance from universal time. -/
def isOffset : List Char → Bool
  | [] => true
  | ['Z'] => true
  | ['z'] => true
  | c :: r =>
    (c == '+' || c == '-') &&
      match (twoDigits? 0 23 r).bind fun (_, r) => colonDigits? 59 r with
      | some [] => true
      | _ => false

/-- Whether a text is a date. -/
def isDate (s : List Char) : Bool :=
  date? s == some []

/-- Whether a text is a time, with a distance from universal time or not. -/
def isTimeWithOffset (s : List Char) : Bool :=
  match time? s with
  | some r => isOffset r
  | none => false

/-- Whether a text is a date, a time, or both of them with a `T` between them. -/
def isMoment (s : List Char) : Bool :=
  match date? s with
  | some [] => true
  | some (c :: r) => (c == 'T' || c == 't') && isTimeWithOffset r
  | none => time? s == some []

/-! ## Tokens -/

/-- Whether a character can be part of a token. -/
def isTokenChar (c : Char) : Bool :=
  c.isAlphanum || c == '_' || c == '+' || c == '-' || c == '.' || c == ':'

/-- The scalar that a token stands for. -/
def Scalar.ofToken? (s : List Char) : Option Scalar :=
  if s = ['t', 'r', 'u', 'e'] then some (.boolean true)
  else if s = ['f', 'a', 'l', 's', 'e'] then some (.boolean false)
  else if isMoment s then some .moment
  else if isFloat s then some .float
  else (integer? s).map .integer

end Gatehouse.Toml
