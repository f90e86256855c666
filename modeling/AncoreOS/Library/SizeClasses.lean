import Mathlib.Data.Nat.Log
import Mathlib.Tactic

/-!
# Size classes on a logarithmic scale

The numbers that have at most `k + 1` significant bits are counted: `value k n` is the `n`-th of
them, and a class is what lies between two of them that follow each other.  `code k q` is the class
of `q`, with the exponent in its high part and the bits behind the leading one in its low part.

`code` and `codeUp` are the two adjoints of `value`.  The first rounds a number down to its class
(`le_code_iff`) and the second up to the least class in which everything is large enough
(`codeUp_le_iff`), which costs at most one part in `2 ^ k` (`value_codeUp_le`).
-/

namespace SizeClasses

variable {k n q : Nat}

/-- The number of low bits that a class does not see. -/
def expo (k q : Nat) : Nat := q.log2 - k

def code (k q : Nat) : Nat := 2 ^ k * expo k q + q / 2 ^ expo k q

/-- The least number of a class. -/
def value (k n : Nat) : Nat := (n - 2 ^ k * (n / 2 ^ k - 1)) * 2 ^ (n / 2 ^ k - 1)

def codeUp (k q : Nat) : Nat := code k (q + (2 ^ expo k q - 1))

/-! ### The scale -/

theorem value_succ (k n : Nat) : value k (n + 1) = value k n + 2 ^ (n / 2 ^ k - 1) := by
  have hpos : 0 < 2 ^ k := Nat.two_pow_pos k
  have hdiv := Nat.div_add_mod n (2 ^ k)
  have hmod := Nat.mod_lt n hpos
  unfold value
  by_cases hlast : n % 2 ^ k + 1 = 2 ^ k
  · -- the last class of an exponent
    have hnext : (n + 1) / 2 ^ k = n / 2 ^ k + 1 := by
      have h : n + 1 = 2 ^ k * (n / 2 ^ k + 1) := by
        rw [Nat.mul_add, Nat.mul_one]
        omega
      rw [h, Nat.mul_div_cancel_left _ hpos]
    rw [hnext]
    cases hexp : n / 2 ^ k with
    | zero =>
      rw [hexp] at hdiv
      simp
    | succ e =>
      rw [hexp, Nat.mul_add, Nat.mul_one] at hdiv
      have hhigh : n - 2 ^ k * e + 1 = 2 * 2 ^ k := by omega
      have hlow : n + 1 - 2 ^ k * (e + 1) = 2 ^ k := by
        rw [Nat.mul_add, Nat.mul_one]
        omega
      simp only [Nat.add_sub_cancel]
      rw [hlow, Nat.pow_succ, ← Nat.add_one_mul, hhigh]
      ring
  · have hsame : (n + 1) / 2 ^ k = n / 2 ^ k := by
      have h : n + 1 = n % 2 ^ k + 1 + 2 ^ k * (n / 2 ^ k) := by omega
      rw [h, Nat.add_mul_div_left _ _ hpos, Nat.div_eq_of_lt (by omega), Nat.zero_add]
    have hle : 2 ^ k * (n / 2 ^ k - 1) ≤ n := by
      have h := Nat.mul_le_mul_left (2 ^ k) (Nat.sub_le (n / 2 ^ k) 1)
      omega
    rw [hsame, Nat.sub_add_comm hle, Nat.add_one_mul]

theorem value_strictMono (k : Nat) : StrictMono (value k) := by
  refine strictMono_nat_of_lt_succ fun n => ?_
  rw [value_succ]
  exact Nat.lt_add_of_pos_right (Nat.two_pow_pos _)

/-! ### The class of a number -/

theorem lt_of_expo_eq_zero (h : expo k q = 0) : q < 2 ^ (k + 1) := by
  unfold expo at h
  by_cases hq : q = 0
  · subst hq
    exact Nat.two_pow_pos _
  · exact (Nat.log2_lt hq).mp (by omega)

theorem bounds_of_expo (h : 0 < expo k q) : 2 ^ (k + expo k q) ≤ q ∧ q < 2 ^ (k + expo k q + 1) := by
  unfold expo at *
  have hq : q ≠ 0 := by
    rintro rfl
    simp at h
  have hlog : k + (q.log2 - k) = q.log2 := by omega
  rw [hlog]
  exact ⟨Nat.log2_self_le hq, Nat.lt_log2_self⟩

/-- The significant bits. -/
theorem significand_lt (k q : Nat) : q / 2 ^ expo k q < 2 ^ (k + 1) := by
  apply Nat.div_lt_of_lt_mul
  rw [← Nat.pow_add]
  by_cases h : expo k q = 0
  · rw [h, Nat.zero_add]
    exact lt_of_expo_eq_zero h
  · have := (bounds_of_expo (Nat.pos_of_ne_zero h)).2
    rwa [Nat.add_comm k, Nat.add_assoc] at this

theorem le_significand (h : 0 < expo k q) : 2 ^ k ≤ q / 2 ^ expo k q := by
  rw [Nat.le_div_iff_mul_le (Nat.two_pow_pos _), ← Nat.pow_add]
  exact (bounds_of_expo h).1

theorem code_div (k q : Nat) : code k q / 2 ^ k - 1 = expo k q := by
  have hpos : 0 < 2 ^ k := Nat.two_pow_pos k
  have hlt := significand_lt k q
  rw [Nat.pow_succ, Nat.mul_comm] at hlt
  unfold code
  rw [Nat.mul_add_div hpos]
  by_cases h : expo k q = 0
  · have : q / 2 ^ expo k q / 2 ^ k < 2 := Nat.div_lt_of_lt_mul (by omega)
    omega
  · have hle := le_significand (Nat.pos_of_ne_zero h)
    rw [Nat.div_eq_of_lt_le (m := q / 2 ^ expo k q) (n := 2 ^ k) (k := 1) (by omega) (by omega)]
    omega

theorem value_code (k q : Nat) : value k (code k q) = q / 2 ^ expo k q * 2 ^ expo k q := by
  rw [value, code_div, code, Nat.add_sub_cancel_left]

/-- **A number lies between the bounds of its class.** -/
theorem value_code_le (k q : Nat) : value k (code k q) ≤ q := by
  rw [value_code]
  exact Nat.div_mul_le_self q _

theorem lt_value_code_succ (k q : Nat) : q < value k (code k q + 1) := by
  rw [value_succ, code_div, value_code]
  exact Nat.lt_div_mul_add (Nat.two_pow_pos _)

theorem le_code_iff : n ≤ code k q ↔ value k n ≤ q := by
  constructor
  · intro h
    exact le_trans ((value_strictMono k).monotone h) (value_code_le k q)
  · intro h
    have hlt := lt_of_le_of_lt h (lt_value_code_succ k q)
    exact Nat.lt_succ_iff.mp ((value_strictMono k).lt_iff_lt.mp hlt)

@[simp] theorem code_value (k n : Nat) : code k (value k n) = n := by
  refine le_antisymm ?_ (le_code_iff.mpr le_rfl)
  exact (value_strictMono k).le_iff_le.mp (value_code_le k _)

/-! ### Rounding up -/

theorem value_ge (hn : 0 < n / 2 ^ k - 1) : 2 ^ (k + (n / 2 ^ k - 1)) ≤ value k n := by
  have hpos : 0 < 2 ^ k := Nat.two_pow_pos k
  have hle : 2 ^ k * (n / 2 ^ k) ≤ n := Nat.mul_div_le n (2 ^ k)
  have hpart : 2 ^ k ≤ n - 2 ^ k * (n / 2 ^ k - 1) := by
    have h : 2 ^ k * (n / 2 ^ k) = 2 ^ k * (n / 2 ^ k - 1) + 2 ^ k := by
      rw [← Nat.mul_succ]
      congr 1
      omega
    omega
  rw [value, Nat.pow_add]
  exact Nat.mul_le_mul_right _ hpart

theorem value_lt (k n : Nat) : value k n < 2 ^ (k + 1 + (n / 2 ^ k - 1)) := by
  have hpos : 0 < 2 ^ k := Nat.two_pow_pos k
  have hlt : n < 2 ^ k * (n / 2 ^ k) + 2 ^ k := Nat.lt_mul_div_succ n hpos
  have hpart : n - 2 ^ k * (n / 2 ^ k - 1) < 2 ^ (k + 1) := by
    have h : 2 ^ k * (n / 2 ^ k) ≤ 2 ^ k * (n / 2 ^ k - 1) + 2 ^ k := by
      rw [← Nat.mul_succ]
      exact Nat.mul_le_mul_left _ (by omega)
    rw [Nat.pow_succ]
    omega
  rw [value, Nat.pow_add 2 (k + 1)]
  exact Nat.mul_lt_mul_of_pos_right hpart (Nat.two_pow_pos _)

/-- **Rounding up ends in the least class of which every member is large enough.** -/
theorem codeUp_le_iff : codeUp k q ≤ n ↔ q ≤ value k n := by
  have hpos : 0 < 2 ^ expo k q := Nat.two_pow_pos _
  have hlt : codeUp k q ≤ n ↔ q + (2 ^ expo k q - 1) < value k (n + 1) := by
    rw [← not_le, ← le_code_iff, not_le, codeUp, Nat.lt_succ_iff]
  rw [hlt, value_succ]
  rcases lt_trichotomy (expo k q) (n / 2 ^ k - 1) with h | h | h
  · -- a class of a larger exponent is above `q` altogether
    have hq : q < 2 ^ (k + 1 + expo k q) := by
      by_cases hzero : expo k q = 0
      · rw [hzero]
        exact lt_of_expo_eq_zero hzero
      · have := (bounds_of_expo (Nat.pos_of_ne_zero hzero)).2
        rwa [Nat.add_right_comm] at this
    have hv : 2 ^ (k + 1 + expo k q) ≤ value k n := by
      refine le_trans (Nat.pow_le_pow_right (by decide) ?_) (value_ge (by omega))
      omega
    have hexp : 2 ^ expo k q ≤ 2 ^ (n / 2 ^ k - 1) := Nat.pow_le_pow_right (by decide) h.le
    omega
  · rw [← h]
    omega
  · -- a class of a smaller exponent is below it
    have hq := (bounds_of_expo (by omega : 0 < expo k q)).1
    have hv : value k n < 2 ^ (k + expo k q) := by
      refine lt_of_lt_of_le (value_lt k n) (Nat.pow_le_pow_right (by decide) ?_)
      omega
    have hexp : 2 ^ (n / 2 ^ k - 1) ≤ 2 ^ expo k q := Nat.pow_le_pow_right (by decide) h.le
    omega

theorem le_value_codeUp (k q : Nat) : q ≤ value k (codeUp k q) := codeUp_le_iff.mp le_rfl

/-- **Rounding up costs at most one part in `2 ^ k`.** -/
theorem value_codeUp_le (k q : Nat) : value k (codeUp k q) ≤ q + q / 2 ^ k := by
  have hle : value k (codeUp k q) ≤ q + (2 ^ expo k q - 1) := value_code_le k _
  refine le_trans hle (Nat.add_le_add_left ?_ q)
  by_cases h : expo k q = 0
  · simp [h]
  · refine le_trans (Nat.sub_le _ 1) ?_
    rw [Nat.le_div_iff_mul_le (Nat.two_pow_pos _), ← Nat.pow_add, Nat.add_comm]
    exact (bounds_of_expo (Nat.pos_of_ne_zero h)).1

end SizeClasses
