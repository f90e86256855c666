import AncoreOS.Klibc.Strtol

/-!
# `atoi`, `atol` and `atoll`

The three functions are copies of `strtol` for base 10 without an end pointer, `atoi` with an `int`
for the result.  The digits are accumulated modulo the width, and `atoi` returns the low half of
what `strtol` does, whatever the digits are (`atoi_atol_atoll`).
-/

namespace AncoreOS.Klibc

open ByteMemory

/-! ### The code -/

def decimalLoop {w : Nat} (result : BitVec w) : List Char → BitVec w
  | [] => result
  | c :: str =>
    if '0' ≤ c ∧ c ≤ '9' then decimalLoop (result * 10 + BitVec.ofNat w (c.toNat - 48)) str
    else result

/-- The three functions, for the width of the result. -/
def decimal (w : Nat) (str : List Char) : BitVec w :=
  let (negative, str) := strtolSign (str.dropWhile strtolSpace)
  let result := decimalLoop (0 : BitVec w) str
  if negative then -result else result

def atoi (str : List Char) : BitVec 32 := decimal 32 str

def atol (str : List Char) : Word := decimal 64 str

def atoll (str : List Char) : Word := decimal 64 str

def strtoul (str : List Char) (base : Int) : Word × List Char := strtol str base

def strtoll (str : List Char) (base : Int) : Word × List Char := strtol str base

def strtoull (str : List Char) (base : Int) : Word × List Char := strtol str base

/-! ### Agreement -/

/-- A decimal digit is what the loop of `strtol` accepts in base 10. -/
theorem strtolDigit_lt_ten {c : Char} (h : '0' ≤ c ∧ c ≤ '9') :
    strtolDigit c = some (c.toNat - 48) ∧ c.toNat - 48 < 10 := by
  have hle : c.toNat ≤ 57 := h.2
  exact ⟨if_pos h, by omega⟩

theorem ten_le_of_strtolDigit {c : Char} (h : ¬ ('0' ≤ c ∧ c ≤ '9')) {d : Nat}
    (hd : strtolDigit c = some d) : 10 ≤ d := by
  rw [strtolDigit, if_neg h] at hd
  split_ifs at hd with h₁ h₂
  · have := Option.some.inj hd
    omega
  · have := Option.some.inj hd
    omega

/-- The accumulators of the two loops agree modulo the smaller width. -/
theorem decimalLoop_setWidth {w : Nat} (hw : w ≤ 64) (result : Word) (str : List Char) :
    decimalLoop (result.setWidth w) str = (strtolLoop 10 result str).1.setWidth w := by
  induction str generalizing result with
  | nil => rfl
  | cons c str ih =>
    rw [decimalLoop, strtolLoop]
    by_cases hc : '0' ≤ c ∧ c ≤ '9'
    · obtain ⟨hdigit, hlt⟩ := strtolDigit_lt_ten hc
      have hstep : (result * BitVec.ofInt 64 10 + BitVec.ofNat 64 (c.toNat - 48)).setWidth w =
          result.setWidth w * 10 + BitVec.ofNat w (c.toNat - 48) := by
        rw [BitVec.setWidth_add _ _ hw, BitVec.setWidth_mul _ _ hw,
          BitVec.setWidth_ofNat_of_le hw]
        congr 2
        exact BitVec.setWidth_ofNat_of_le hw 10
      rw [if_pos hc, hdigit, ← hstep, ih]
      simp only
      rw [if_neg (by omega)]
    · rw [if_neg hc]
      cases hdigit : strtolDigit c with
      | none => rfl
      | some d =>
        have hle := ten_le_of_strtolDigit hc hdigit
        simp only
        rw [if_pos (by omega)]

theorem decimal_setWidth {w : Nat} (hw : w ≤ 64) (str : List Char) :
    decimal w str = (strtol str 10).1.setWidth w := by
  have hzero : (0 : BitVec w) = (0 : Word).setWidth w := by simp
  have hbase : ∀ str, strtolBase 10 str = (10, str) := strtolBase_other (by decide) (by decide)
  simp only [decimal, strtol, hbase, hzero, decimalLoop_setWidth hw]
  split
  · rw [BitVec.setWidth_neg_of_le hw]
  · rfl

/-- **The copies of the parser agree with `strtol`.** -/
theorem atoi_atol_atoll (str : List Char) :
    atol str = (strtol str 10).1 ∧ atoll str = (strtol str 10).1 ∧
      atoi str = (strtol str 10).1.setWidth 32 := by
  have h64 := decimal_setWidth (le_refl 64) str
  rw [BitVec.setWidth_eq] at h64
  exact ⟨h64, h64, decimal_setWidth (by decide) str⟩

/-- A number above `2 ^ 32`. -/
example : atol "4294967297".toList = 4294967297 ∧ atoi "4294967297".toList = 1 := by decide

end AncoreOS.Klibc
