/-!
# Decimal digits and their limits

The value of digits, the greatest number of 64 bits, and the size from which a number is no finite
double any more.
-/

namespace Gatehouse.Decimal

/-- The value of a digit. -/
def digitValue (c : Char) : Nat :=
  c.toNat - '0'.toNat

/-- The value of a sequence of digits. -/
def natOf (ds : List Char) : Nat :=
  ds.foldl (fun n c => n * 10 + digitValue c) 0

/-- The greatest number of 64 bits. -/
def wordMax : Nat := UInt64.size - 1

/-- The least number that is rounded beyond the greatest double. -/
def doubleLimit : Nat := Nat.pow 2 1024 - Nat.pow 2 970

/-- Reads a number of 64 bits: digits, after a plus sign or not. -/
def parseWord? (s : List Char) : Option UInt64 :=
  let ds := match s with
    | '+' :: r => r
    | r => r
  if ds ≠ [] ∧ ds.all Char.isDigit ∧ natOf ds ≤ wordMax then some (.ofNat (natOf ds)) else none

end Gatehouse.Decimal
