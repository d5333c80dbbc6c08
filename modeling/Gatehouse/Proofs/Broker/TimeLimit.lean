import Gatehouse.Broker.Client
import Gatehouse.Config.Basic
import Mathlib.Order.Bounds.Basic

/-!
# The seconds of a time limit

The client program takes its time limit in whole seconds.  The number that is asked for covers the
limit, is at least one, and is the least such number; only where it does not fit a word, the
largest word stands for it (`IsAsked`).  What is granted instead, `limitSecs`, starts from the full
thousandths of a second, so a rest below one thousandth is cut off before anything is rounded up.
`limitSecs_asked` says exactly when that matters, and `isAsked_ofMillis` that it never does for
the limits that a configuration can hold.
-/

namespace Gatehouse

/-- The length of a duration in nanoseconds. -/
def Duration.inNanos (d : Duration) : Nat :=
  d.secs.toNat * 1000000000 + d.nanos.val

namespace Broker

/-- At least one whole second, and no shorter than the duration. -/
def Covers (d : Duration) (n : Nat) : Prop :=
  1 ≤ n ∧ d.inNanos ≤ n * 1000000000

/-- The number of seconds that a limit asks for: the least that covers it, or the largest word
where that one is no word. -/
def IsAsked (d : Duration) (n : Nat) : Prop :=
  ∃ m, IsLeast {k | Covers d k} m ∧ n = min m (UInt64.size - 1)

/-- Some full seconds, and behind them a rest that is not nothing but below one thousandth. -/
def RestLost (d : Duration) : Prop :=
  1 ≤ d.secs.toNat ∧ d.secs.toNat < UInt64.size - 1 ∧ 0 < d.nanos.val ∧ d.nanos.val < 1000000

instance (d : Duration) : Decidable (RestLost d) :=
  inferInstanceAs (Decidable (_ ∧ _))

/-- The least number of seconds that covers a duration. -/
def coveringSecs (d : Duration) : Nat :=
  max ((d.inNanos + (1000000000 - 1)) / 1000000000) 1

theorem isLeast_coveringSecs (d : Duration) : IsLeast {k | Covers d k} (coveringSecs d) := by
  constructor
  · show Covers d (coveringSecs d)
    unfold Covers coveringSecs
    omega
  · rintro k ⟨hone, hcovers⟩
    unfold coveringSecs
    omega

theorem isAsked_iff {d : Duration} {n : Nat} :
    IsAsked d n ↔ n = min (coveringSecs d) (UInt64.size - 1) := by
  constructor
  · rintro ⟨m, hm, rfl⟩
    rw [hm.unique (isLeast_coveringSecs d)]
  · rintro rfl
    exact ⟨_, isLeast_coveringSecs d, rfl⟩

/-- The rest of a duration is less than one second. -/
theorem coveringSecs_eq (d : Duration) :
    coveringSecs d = max (d.secs.toNat + if d.nanos.val = 0 then 0 else 1) 1 := by
  have hrest := d.nanos.isLt
  unfold coveringSecs Duration.inNanos
  split <;> omega

/-- Only the full thousandths of the rest are rounded up. -/
theorem limitSecs_eq (d : Duration) :
    limitSecs d =
      min (max (d.secs.toNat + if d.nanos.val < 1000000 then 0 else 1) 1) (UInt64.size - 1) := by
  have hrest := d.nanos.isLt
  unfold limitSecs Duration.millis
  split <;> congr 2 <;> omega

/-- Nothing overflows on the way: the largest number that is computed fits two words, and what is
granted fits one. -/
theorem limitSecs_fits (d : Duration) :
    d.millis + 999 < UInt64.size * UInt64.size ∧ limitSecs d < UInt64.size := by
  have hsecs := d.secs.toNat_lt
  have hrest := d.nanos.isLt
  have hword : UInt64.size = 18446744073709551616 := rfl
  constructor
  · rw [hword]
    unfold Duration.millis
    omega
  · unfold limitSecs
    omega

theorem isAsked_limitSecs_iff (d : Duration) : IsAsked d (limitSecs d) ↔ ¬ RestLost d := by
  have hsecs := d.secs.toNat_lt
  have hword : UInt64.size = 18446744073709551616 := rfl
  rw [isAsked_iff, limitSecs_eq, coveringSecs_eq]
  unfold RestLost
  split <;> split <;> omega

/-- A limit of whole thousandths of a second is given the seconds it asks for. -/
theorem isAsked_ofMillis (n : UInt64) : IsAsked (.ofMillis n) (limitSecs (.ofMillis n)) := by
  rw [isAsked_limitSecs_iff]
  rintro ⟨-, -, hrest, hbelow⟩
  simp only [Duration.ofMillis] at hrest hbelow
  omega

/-- The call limit of a configuration is given the seconds it asks for. -/
theorem isAsked_callTime (c : Config) : IsAsked c.callTime (limitSecs c.callTime) :=
  isAsked_ofMillis _

/-- The seconds that are granted for a limit are the seconds it asks for, except where a rest of
less than a thousandth stands behind full seconds: there one second is missing.  Nothing
overflows on the way. -/
theorem limitSecs_asked (d : Duration) :
    (IsAsked d (limitSecs d) ↔ ¬ RestLost d) ∧
      (RestLost d → limitSecs d = d.secs.toNat ∧ IsAsked d (d.secs.toNat + 1)) ∧
      d.millis + 999 < UInt64.size * UInt64.size ∧ limitSecs d < UInt64.size := by
  refine ⟨isAsked_limitSecs_iff d, ?_, limitSecs_fits d⟩
  rintro ⟨hsome, hfits, hrest, hbelow⟩
  rw [isAsked_iff, limitSecs_eq, coveringSecs_eq, if_pos hbelow, if_neg (by omega)]
  omega

/-- One nanosecond behind one second is lost: one second is granted, and two are asked for. -/
theorem limitSecs_asked_nanosecond :
    RestLost ⟨1, 1⟩ ∧ limitSecs ⟨1, 1⟩ = 1 ∧ IsAsked ⟨1, 1⟩ 2 :=
  have hlost : RestLost ⟨1, 1⟩ := by decide
  ⟨hlost, (limitSecs_asked ⟨1, 1⟩).2.1 hlost⟩

/-- It is not so that every limit is given the seconds it asks for. -/
theorem not_forall_isAsked : ¬ ∀ d : Duration, IsAsked d (limitSecs d) := by
  intro hall
  have hasked := isAsked_iff.mp (hall ⟨1, 1⟩)
  revert hasked
  decide

end Broker

end Gatehouse
