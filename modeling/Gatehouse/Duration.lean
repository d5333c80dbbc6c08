/-!
# Durations

A duration is a number of whole seconds that fits 64 bits and a rest in nanoseconds.
-/

namespace Gatehouse

/-- A length of time. -/
structure Duration where
  /-- The whole seconds. -/
  secs : UInt64
  /-- The nanoseconds of the second that is not full. -/
  nanos : Fin 1000000000
  deriving DecidableEq, Repr

namespace Duration

/-- No time. -/
def zero : Duration :=
  ⟨0, 0⟩

/-- So many seconds. -/
def ofSecs (n : UInt64) : Duration :=
  ⟨n, 0⟩

/-- So many thousandths of a second. -/
def ofMillis (n : UInt64) : Duration :=
  ⟨n / 1000, ⟨n.toNat % 1000 * 1000000, by omega⟩⟩

/-- The full thousandths of a second. -/
def millis (d : Duration) : Nat :=
  d.secs.toNat * 1000 + d.nanos.val / 1000000

end Duration

end Gatehouse
