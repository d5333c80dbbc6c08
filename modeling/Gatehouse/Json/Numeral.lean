import Gatehouse.Decimal

/-!
# JSON numbers

The parts of a number, and whether it lies within the range of a double.  Only 64 bits of digits
are kept: the digits before the point that no longer fit count as powers of ten, those after it do
not count.  What is kept and the power of ten are rounded to doubles before they are multiplied, so
the range is decided on that product.
-/

namespace Gatehouse.Json

open Gatehouse.Decimal

/-- The parts of a number. -/
structure Numeral where
  /-- Whether a minus sign stands in front. -/
  negative : Bool
  /-- The digits before the point. -/
  whole : List Char
  /-- The point and the digits after it; empty without a point. -/
  fraction : List Char
  /-- The letter, the sign and the digits of the exponent; empty without an exponent. -/
  exponent : List Char
  deriving DecidableEq, Repr

namespace Numeral

/-- The number as it is written. -/
def text (n : Numeral) : List Char :=
  (if n.negative then ['-'] else []) ++ n.whole ++ n.fraction ++ n.exponent

/-- Appends digits to a number as long as 64 bits hold it; the digits that are left over come with
it. -/
def absorb (kept : Nat) : List Char → Nat × List Char
  | [] => (kept, [])
  | c :: r =>
    let next := kept * 10 + digitValue c
    if next ≤ wordMax then absorb next r else (kept, c :: r)

/-- The value of an exponent. -/
def exponentValue : List Char → Int
  | _ :: '-' :: ds => -(natOf ds : Int)
  | _ :: '+' :: ds => natOf ds
  | _ :: ds => natOf ds
  | [] => 0

/-- The digits that are kept and the power of ten that goes with them. -/
def scaled (n : Numeral) : Nat × Int :=
  let (kept, dropped) := absorb 0 n.whole
  let places := n.fraction.drop 1
  let (kept', ignored) := absorb kept places
  (kept', (dropped.length : Int) - ((places.length - ignored.length : Nat) : Int)
    + exponentValue n.exponent)

/-- The nearest number with 53 significant bits; of two equally near ones the even one. -/
def nearest53 (n : Nat) : Nat :=
  let bits := n.log2 + 1
  if bits ≤ 53 then n
  else
    let unit := Nat.pow 2 (bits - 53)
    let quotient := n / unit
    let rest := n % unit
    if 2 * rest > unit ∨ (2 * rest = unit ∧ quotient % 2 = 1) then (quotient + 1) * unit
    else quotient * unit

/-- The greatest power of ten that is a double. -/
def greatestPower : Nat := 308

/-- Whether the number lies beyond the greatest double. -/
def tooLarge (n : Numeral) : Bool :=
  let (kept, power) := n.scaled
  if kept = 0 ∨ power < 0 then false
  else if power > greatestPower then true
  else decide (doubleLimit ≤ nearest53 kept * nearest53 (Nat.pow 10 power.toNat))

end Numeral

end Gatehouse.Json
