import Mathlib.Data.BitVec
import Mathlib.Tactic

/-!
# Signed arithmetic that does not overflow

An operation on signed numbers of `w` bits has a result only when the exact one is such a number
(`Fits`).  Where it has one, it is what the operation modulo `2 ^ w` gives (`eq_add_of_signedAdd`
and the two lemmas behind it).
-/

namespace SignedArith

variable {w : Nat} {a b c : BitVec w}

/-- `x` is a signed number of `w` bits. -/
def Fits (w : Nat) (x : Int) : Prop := -2 ^ w ≤ 2 * x ∧ 2 * x < 2 ^ w

instance decidableFits (w : Nat) (x : Int) : Decidable (Fits w x) :=
  inferInstanceAs (Decidable (_ ∧ _))

theorem fits_toInt (a : BitVec w) : Fits w a.toInt :=
  ⟨BitVec.le_two_mul_toInt, BitVec.two_mul_toInt_lt⟩

theorem toInt_ofInt_of_fits {x : Int} (h : Fits w x) : (BitVec.ofInt w x).toInt = x := by
  obtain ⟨h₁, h₂⟩ := h
  have hpow : ((2 ^ w : Nat) : Int) = 2 ^ w := by push_cast; rfl
  rw [BitVec.toInt_ofInt]
  exact Int.bmod_eq_of_le_mul_two (by omega) (by omega)

/-- The number `x`, if it fits. -/
def exact (w : Nat) (x : Int) : Option (BitVec w) :=
  if Fits w x then some (BitVec.ofInt w x) else none

theorem exact_eq_some_iff {x : Int} : exact w x = some c ↔ c.toInt = x := by
  unfold exact
  constructor
  · intro h
    split at h
    · rename_i hfits
      rw [← Option.some.inj h, toInt_ofInt_of_fits hfits]
    · cases h
  · rintro rfl
    rw [if_pos (fits_toInt c), BitVec.ofInt_toInt]

/-! ### Operations -/

def signedAdd (a b : BitVec w) : Option (BitVec w) := exact w (a.toInt + b.toInt)

def signedSub (a b : BitVec w) : Option (BitVec w) := exact w (a.toInt - b.toInt)

def signedMul (a b : BitVec w) : Option (BitVec w) := exact w (a.toInt * b.toInt)

/-- The quotient, rounded towards zero. -/
def signedDiv (a b : BitVec w) : Option (BitVec w) :=
  if b.toInt = 0 then none else exact w (a.toInt.tdiv b.toInt)

theorem signedAdd_eq_some_iff : signedAdd a b = some c ↔ c.toInt = a.toInt + b.toInt :=
  exact_eq_some_iff

theorem signedSub_eq_some_iff : signedSub a b = some c ↔ c.toInt = a.toInt - b.toInt :=
  exact_eq_some_iff

theorem signedMul_eq_some_iff : signedMul a b = some c ↔ c.toInt = a.toInt * b.toInt :=
  exact_eq_some_iff

theorem eq_add_of_signedAdd (h : signedAdd a b = some c) : c = a + b := by
  have hc := signedAdd_eq_some_iff.mp h
  rw [← BitVec.ofInt_toInt (x := c), hc, BitVec.ofInt_add, BitVec.ofInt_toInt, BitVec.ofInt_toInt]

theorem eq_mul_of_signedMul (h : signedMul a b = some c) : c = a * b := by
  have hc := signedMul_eq_some_iff.mp h
  rw [← BitVec.ofInt_toInt (x := c), hc, BitVec.ofInt_mul, BitVec.ofInt_toInt, BitVec.ofInt_toInt]

/-- A difference that fits. -/
theorem signedSub_of_fits (h : Fits w (a.toInt - b.toInt)) :
    ∃ c, signedSub a b = some c ∧ c.toInt = a.toInt - b.toInt :=
  ⟨_, if_pos h, toInt_ofInt_of_fits h⟩

theorem signedMul_of_fits (h : Fits w (a.toInt * b.toInt)) :
    ∃ c, signedMul a b = some c ∧ c.toInt = a.toInt * b.toInt :=
  ⟨_, if_pos h, toInt_ofInt_of_fits h⟩

theorem signedDiv_of_fits (hb : b.toInt ≠ 0) (h : Fits w (a.toInt.tdiv b.toInt)) :
    ∃ c, signedDiv a b = some c ∧ c.toInt = a.toInt.tdiv b.toInt := by
  refine ⟨BitVec.ofInt w (a.toInt.tdiv b.toInt), ?_, toInt_ofInt_of_fits h⟩
  rw [signedDiv, if_neg hb, exact, if_pos h]

/-! ### Products and quotients -/

section

variable {k x y : Int}

/-- A quotient is not larger than what is divided.  With another sign, it may still not fit. -/
theorem fits_tdiv (hx : Fits w x) (h : 0 ≤ x ∨ 0 < y) : Fits w (x.tdiv y) := by
  have habs := Int.natAbs_tdiv_le_natAbs x y
  obtain ⟨hlo, hhi⟩ := hx
  rcases h with hx | hy
  · constructor <;> omega
  · rcases le_or_gt 0 x with hx | hx
    · constructor <;> omega
    · have hneg : 0 ≤ (-x).tdiv y := Int.tdiv_nonneg (by omega) hy.le
      rw [Int.neg_tdiv] at hneg
      constructor <;> omega

theorem tdiv_lt_iff (hk : 0 ≤ k) (hy : 0 < y) : k.tdiv y < x ↔ k < x * y := by
  rw [Int.tdiv_eq_ediv_of_nonneg hk, Int.ediv_lt_iff_lt_mul hy]

/-- The limit of a negative product, rounded towards zero. -/
theorem lt_neg_tdiv_iff (hk : 0 ≤ k) (hy : 0 < y) : x < (-k).tdiv y ↔ x * y < -k := by
  have h := tdiv_lt_iff (x := -x) hk hy
  rw [neg_mul] at h
  rw [Int.neg_tdiv]
  constructor
  · intro hx
    have := h.mp (by omega)
    omega
  · intro hx
    have := h.mpr (by omega)
    omega

/-- The limit of the product of two negative numbers. -/
theorem lt_tdiv_iff (hk : 0 ≤ k) (hy : y < 0) : x < k.tdiv y ↔ k < x * y := by
  have h := lt_neg_tdiv_iff (x := x) hk (Int.neg_pos_of_neg hy)
  rw [Int.neg_tdiv_neg, mul_neg] at h
  rw [h]
  omega

end

end SignedArith
