import Concord.Time.Duration
import Mathlib.Algebra.Group.Nat.Defs

/-! Numbers of attempts and the delays that come of them. Neither the counter of attempts nor the
factor by which the delay grows leaves thirty-two bits, and the factor does not tell a counter that
stopped at the largest number from one that went on.
-/

namespace Concord

-----------------------------------------------------------------------------------------
-- Counters
-----------------------------------------------------------------------------------------

@[simp] theorem toNat_saturated (n : Nat)
    : (saturated n).toNat = min n (UInt32.size - 1) := by
  rw [saturated, UInt32.toNat_ofNat_of_lt']
  exact Nat.lt_of_le_of_lt (Nat.min_le_right _ _) (by decide)

theorem toNat_saturatingAdd (a b : UInt32)
    : (saturatingAdd a b).toNat = min (a.toNat + b.toNat) (UInt32.size - 1) :=
  toNat_saturated _

theorem le_saturatingAdd (a b : UInt32) : a ≤ saturatingAdd a b := by
  have high := a.toNat_lt
  rw [UInt32.le_iff_toNat_le, toNat_saturatingAdd, UInt32.size]
  omega

/-- Counting on from a counter that has stopped leaves it where it is. -/
theorem saturatingAdd_saturated (n : Nat)
    : saturatingAdd (saturated n) 1 = saturated (n + 1) := by
  refine UInt32.toNat_inj.mp ?_
  rw [toNat_saturatingAdd, toNat_saturated, toNat_saturated, UInt32.toNat_one, UInt32.size]
  omega

-----------------------------------------------------------------------------------------
-- Factors and delays
-----------------------------------------------------------------------------------------

/-- A power of two fits thirty-two bits up to the thirty-first. -/
theorem pow_le_iff {n : Nat} : 2 ^ n ≤ UInt32.size - 1 ↔ n < 32 := by
  constructor
  · intro fits
    refine Nat.not_le.mp fun many => ?_
    have large : 2 ^ 32 ≤ 2 ^ n := Nat.pow_le_pow_right (by decide) many
    exact absurd (Nat.le_trans large fits) (by decide)
  · intro few
    have small : 2 ^ n ≤ 2 ^ 31 := Nat.pow_le_pow_right (by decide) (by omega)
    exact Nat.le_trans small (by decide)

theorem backoffFactor_of_le {n : Nat} (many : 32 ≤ n) : backoffFactor n = UInt32.size - 1 :=
  if_neg (Nat.not_lt.mpr many)

theorem backoffFactor_eq (n : Nat) : backoffFactor n = min (2 ^ n) (UInt32.size - 1) := by
  by_cases few : n < 32
  · rw [Nat.min_eq_left (pow_le_iff.mpr few)]
    exact if_pos few
  · have large : UInt32.size - 1 ≤ 2 ^ n := Nat.le_of_not_le fun fits => few (pow_le_iff.mp fits)
    rw [Nat.min_eq_right large, backoffFactor_of_le (Nat.not_lt.mp few)]

theorem backoffFactor_saturated (n : Nat)
    : backoffFactor (saturated n).toNat = backoffFactor n := by
  have least : 32 ≤ UInt32.size - 1 := by decide
  rw [toNat_saturated]
  rcases Nat.le_total n (UInt32.size - 1) with fits | large
  · rw [Nat.min_eq_left fits]
  · rw [Nat.min_eq_right large, backoffFactor_of_le least,
      backoffFactor_of_le (Nat.le_trans least large)]

theorem nanos_backoff (n : Nat) (base bound : Duration)
    : (backoff n base bound).nanos
      = min bound.nanos (min (base.nanos * backoffFactor n) Duration.longest.nanos) := by
  rw [backoff, Duration.shorter, Duration.times]
  split
  · rename_i below
    exact (Nat.min_eq_right below).symm
  · rename_i above
    exact (Nat.min_eq_left (Nat.le_of_not_le above)).symm

theorem backoff_le (n : Nat) (base bound : Duration)
    : (backoff n base bound).nanos ≤ bound.nanos := by
  rw [nanos_backoff]
  exact Nat.min_le_left _ _

end Concord
