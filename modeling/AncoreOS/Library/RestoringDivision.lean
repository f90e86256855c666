import Mathlib.Algebra.Order.Ring.Nat

/-!
# Restoring division

`quotient d m r` and `remainder d m r` are what a division by `d` finds that goes
through the bits `m - 1`, …, `0` of the quotient and subtracts `d * 2 ^ i` at the
bit `i` where that is not more than what is left of `r`.

The two always make up `r` again (`quotient_mul_add_remainder`).  They are the
quotient and the remainder exactly if the quotient has `m` bits (`quotient_eq_iff`,
`remainder_eq_iff`); when it has more, every bit is set (`quotient_of_le`).
-/

namespace RestoringDivision

def quotient (d : Nat) : Nat → Nat → Nat
  | 0, _ => 0
  | m + 1, r => if d * 2 ^ m ≤ r then 2 ^ m + quotient d m (r - d * 2 ^ m) else quotient d m r

def remainder (d : Nat) : Nat → Nat → Nat
  | 0, r => r
  | m + 1, r => if d * 2 ^ m ≤ r then remainder d m (r - d * 2 ^ m) else remainder d m r

theorem quotient_of_sub {d m r : Nat} (h : d * 2 ^ m ≤ r) :
    quotient d (m + 1) r = 2 ^ m + quotient d m (r - d * 2 ^ m) := if_pos h

theorem quotient_of_keep {d m r : Nat} (h : ¬ d * 2 ^ m ≤ r) :
    quotient d (m + 1) r = quotient d m r := if_neg h

theorem remainder_of_sub {d m r : Nat} (h : d * 2 ^ m ≤ r) :
    remainder d (m + 1) r = remainder d m (r - d * 2 ^ m) := if_pos h

theorem remainder_of_keep {d m r : Nat} (h : ¬ d * 2 ^ m ≤ r) :
    remainder d (m + 1) r = remainder d m r := if_neg h

theorem quotient_lt (d m r : Nat) : quotient d m r < 2 ^ m := by
  induction m generalizing r with
  | zero => exact Nat.one_pos
  | succ m ih =>
    rw [Nat.pow_succ]
    by_cases h : d * 2 ^ m ≤ r
    · have hlow := ih (r - d * 2 ^ m)
      rw [quotient_of_sub h]
      omega
    · have hlow := ih r
      rw [quotient_of_keep h]
      omega

/-- **Nothing is lost.** -/
theorem quotient_mul_add_remainder (d m r : Nat) :
    quotient d m r * d + remainder d m r = r := by
  induction m generalizing r with
  | zero => rw [quotient, remainder, Nat.zero_mul, Nat.zero_add]
  | succ m ih =>
    by_cases h : d * 2 ^ m ≤ r
    · have hlow := ih (r - d * 2 ^ m)
      rw [quotient_of_sub h, remainder_of_sub h, Nat.add_mul, Nat.mul_comm (2 ^ m)]
      omega
    · rw [quotient_of_keep h, remainder_of_keep h, ih]

theorem remainder_lt {d m r : Nat} (h : r < d * 2 ^ m) : remainder d m r < d := by
  induction m generalizing r with
  | zero => rwa [Nat.pow_zero, Nat.mul_one] at h
  | succ m ih =>
    rw [Nat.pow_succ, ← Nat.mul_assoc] at h
    by_cases hsub : d * 2 ^ m ≤ r
    · rw [remainder_of_sub hsub]
      exact ih (by omega)
    · rw [remainder_of_keep hsub]
      exact ih (not_le.mp hsub)

/-- A quotient of more than `m` bits is cut to all ones. -/
theorem quotient_of_le {d m r : Nat} (h : d * 2 ^ m ≤ r) : quotient d m r = 2 ^ m - 1 := by
  induction m generalizing r with
  | zero => rfl
  | succ m ih =>
    have hpos : 0 < 2 ^ m := Nat.two_pow_pos m
    rw [Nat.pow_succ, ← Nat.mul_assoc] at h
    rw [quotient_of_sub (by omega), ih (by omega), Nat.pow_succ]
    omega

variable {d : Nat} (hd : 0 < d) (m r : Nat)

include hd

theorem quotient_eq_iff : quotient d m r = r / d ↔ r < d * 2 ^ m := by
  constructor
  · intro h
    have hlt := quotient_lt d m r
    rwa [h, Nat.div_lt_iff_lt_mul hd, Nat.mul_comm] at hlt
  · intro h
    have hsum := quotient_mul_add_remainder d m r
    rw [Nat.add_comm, Nat.mul_comm] at hsum
    exact ((Nat.div_mod_unique hd).mpr ⟨hsum, remainder_lt h⟩).1.symm

theorem remainder_eq_iff : remainder d m r = r % d ↔ r < d * 2 ^ m := by
  rw [← quotient_eq_iff hd]
  have hsum := quotient_mul_add_remainder d m r
  have hdiv := Nat.div_add_mod' r d
  constructor
  · intro h
    have hmul : quotient d m r * d = r / d * d := by omega
    exact Nat.eq_of_mul_eq_mul_right hd hmul
  · intro h
    rw [h] at hsum
    omega

end RestoringDivision
