import AncoreOS.Library.ByteStore
import AncoreOS.Library.SignedArith

/-!
# `limits.c`

`safe_add` and `safe_multiply` look whether the result is an `int` before they compute it.  Every
operation on signed numbers has no result here when it overflows or divides by zero, so a result
means that none of them did (`safe_add_multiply`).

`validate_path` and `validate_filename` count bytes up to `PATH_MAX` and `NAME_MAX`, where these are
defined.  `limits.h` defines them under `_POSIX_SOURCE`, which is not defined when `limits.c` is
compiled (`validate_iff`).
-/

namespace AncoreOS.Klibc

open ByteMemory ByteStore SignedArith

/-! ### Sums and products -/

def intMin : BitVec 32 := 0x80000000

def intMax : BitVec 32 := 0x7FFFFFFF

/-- What is returned, and what `*result` is then. -/
abbrev Checked := Int × BitVec 32

/-- `b > INT_MAX - a`, which is looked at only for a positive `a`. -/
def sumTooLarge (a b : BitVec 32) : Option Bool :=
  if 0 < a.toInt then
    (signedSub intMax a).map fun limit => decide (limit.toInt < b.toInt)
  else some false

/-- `b < INT_MIN - a`, which is looked at only for a negative `a`. -/
def sumTooSmall (a b : BitVec 32) : Option Bool :=
  if a.toInt < 0 then
    (signedSub intMin a).map fun limit => decide (b.toInt < limit.toInt)
  else some false

def safeAdd (a b result : BitVec 32) : Option Checked :=
  (sumTooLarge a b).bind fun large =>
    if large then some (-1, result)
    else (sumTooSmall a b).bind fun small =>
      if small then some (-1, result)
      else (signedAdd a b).map fun sum => (0, sum)

def productOutOfRange (a b : BitVec 32) : Option Bool :=
  if 0 < a.toInt then
    if 0 < b.toInt then (signedDiv intMax b).map fun limit => decide (limit.toInt < a.toInt)
    else (signedDiv intMin a).map fun limit => decide (b.toInt < limit.toInt)
  else
    if 0 < b.toInt then (signedDiv intMin b).map fun limit => decide (a.toInt < limit.toInt)
    else if a.toInt ≠ 0 then
      (signedDiv intMax a).map fun limit => decide (b.toInt < limit.toInt)
    else some false

def safeMultiply (a b result : BitVec 32) : Option Checked :=
  (productOutOfRange a b).bind fun out =>
    if out then some (-1, result) else (signedMul a b).map fun product => (0, product)

theorem fits_int {x : Int} : Fits 32 x ↔ -2147483648 ≤ x ∧ x ≤ 2147483647 := by
  unfold Fits
  omega

theorem intMin_toInt : intMin.toInt = -2147483648 := rfl

theorem intMax_toInt : intMax.toInt = 2147483647 := rfl

variable {a b : BitVec 32}

theorem int_bounds (a : BitVec 32) : -2147483648 ≤ a.toInt ∧ a.toInt ≤ 2147483647 :=
  fits_int.mp (fits_toInt a)

theorem sumTooLarge_eq (a b : BitVec 32) :
    sumTooLarge a b = some (decide (0 < a.toInt ∧ 2147483647 < a.toInt + b.toInt)) := by
  obtain ⟨halo, hahi⟩ := int_bounds a
  unfold sumTooLarge
  split
  · rename_i ha
    obtain ⟨limit, hlimit, hval⟩ := signedSub_of_fits (a := intMax) (b := a)
      (by rw [fits_int, intMax_toInt]; omega)
    rw [intMax_toInt] at hval
    rw [hlimit, Option.map_some, hval]
    congr 2
    exact propext ⟨fun h => ⟨ha, by omega⟩, fun h => by omega⟩
  · rename_i ha
    rw [decide_eq_false fun h => ha h.1]

theorem sumTooSmall_eq (a b : BitVec 32) :
    sumTooSmall a b = some (decide (a.toInt < 0 ∧ a.toInt + b.toInt < -2147483648)) := by
  obtain ⟨halo, hahi⟩ := int_bounds a
  unfold sumTooSmall
  split
  · rename_i ha
    obtain ⟨limit, hlimit, hval⟩ := signedSub_of_fits (a := intMin) (b := a)
      (by rw [fits_int, intMin_toInt]; omega)
    rw [intMin_toInt] at hval
    rw [hlimit, Option.map_some, hval]
    congr 2
    exact propext ⟨fun h => ⟨ha, by omega⟩, fun h => by omega⟩
  · rename_i ha
    rw [decide_eq_false fun h => ha h.1]

/-- The result of a checked operation whose exact result is `x`. -/
def checkedResult (x : Int) (result : BitVec 32) : Checked :=
  if Fits 32 x then (0, BitVec.ofInt 32 x) else (-1, result)

theorem map_exact {x : Int} (h : Fits 32 x) (result : BitVec 32) :
    ((exact 32 x).map fun y => ((0 : Int), y)) = some (checkedResult x result) := by
  rw [exact, if_pos h, checkedResult, if_pos h]
  rfl

theorem safeAdd_eq (a b result : BitVec 32) :
    safeAdd a b result = some (checkedResult (a.toInt + b.toInt) result) := by
  obtain ⟨halo, hahi⟩ := int_bounds a
  obtain ⟨hblo, hbhi⟩ := int_bounds b
  rw [safeAdd, sumTooLarge_eq, Option.bind_some, sumTooSmall_eq, Option.bind_some]
  by_cases hfits : Fits 32 (a.toInt + b.toInt)
  · have hsum := fits_int.mp hfits
    rw [if_neg (by simp; omega), if_neg (by simp; omega)]
    exact map_exact hfits result
  · rw [checkedResult, if_neg hfits]
    rw [fits_int] at hfits
    by_cases hlarge : 0 < a.toInt ∧ 2147483647 < a.toInt + b.toInt
    · rw [if_pos (decide_eq_true hlarge)]
    · rw [if_neg (by simpa using hlarge), if_pos (by simp; omega)]

/-- A limit is a quotient that does not overflow. -/
theorem map_signedDiv {k d : BitVec 32} (hd : d.toInt ≠ 0) (h : 0 ≤ k.toInt ∨ 0 < d.toInt)
    (p : Int → Bool) :
    ((signedDiv k d).map fun limit => p limit.toInt) = some (p (k.toInt.tdiv d.toInt)) := by
  obtain ⟨limit, hlimit, hval⟩ := signedDiv_of_fits hd (fits_tdiv (fits_toInt k) h)
  rw [hlimit, Option.map_some, hval]

/-- The four cases of the signs. -/
theorem productOutOfRange_eq (a b : BitVec 32) :
    productOutOfRange a b = some (decide (¬ Fits 32 (a.toInt * b.toInt))) := by
  have hmax : 0 ≤ intMax.toInt := by decide
  have hk : (0 : Int) ≤ 2147483648 := by decide
  have hlimit : ∀ {p : Prop} [Decidable p], (p ↔ ¬ Fits 32 (a.toInt * b.toInt)) →
      some (decide p) = some (decide (¬ Fits 32 (a.toInt * b.toInt))) :=
    fun h => congrArg some (decide_eq_decide.mpr h)
  unfold productOutOfRange
  by_cases ha : 0 < a.toInt
  · rw [if_pos ha]
    by_cases hb : 0 < b.toInt
    · have hpos : 0 < a.toInt * b.toInt := Int.mul_pos ha hb
      rw [if_pos hb, map_signedDiv hb.ne' (Or.inl hmax) fun limit => decide (limit < a.toInt)]
      refine hlimit ?_
      rw [tdiv_lt_iff hmax hb, intMax_toInt, fits_int]
      omega
    · have hneg : a.toInt * b.toInt ≤ 0 := Int.mul_nonpos_of_nonneg_of_nonpos ha.le (by omega)
      rw [if_neg hb, map_signedDiv ha.ne' (Or.inr ha) fun limit => decide (b.toInt < limit)]
      refine hlimit ?_
      rw [intMin_toInt, lt_neg_tdiv_iff hk ha, mul_comm, fits_int]
      omega
  · rw [if_neg ha]
    by_cases hb : 0 < b.toInt
    · have hneg : a.toInt * b.toInt ≤ 0 := Int.mul_nonpos_of_nonpos_of_nonneg (by omega) hb.le
      rw [if_pos hb, map_signedDiv hb.ne' (Or.inr hb) fun limit => decide (a.toInt < limit)]
      refine hlimit ?_
      rw [intMin_toInt, lt_neg_tdiv_iff hk hb, fits_int]
      omega
    · rw [if_neg hb]
      by_cases hzero : a.toInt = 0
      · rw [if_neg (not_not_intro hzero), hzero, zero_mul]
        rfl
      · have hnonneg : 0 ≤ a.toInt * b.toInt :=
          Int.mul_nonneg_of_nonpos_of_nonpos (by omega) (by omega)
        rw [if_pos hzero, map_signedDiv hzero (Or.inl hmax) fun limit => decide (b.toInt < limit)]
        refine hlimit ?_
        rw [lt_tdiv_iff hmax (by omega), intMax_toInt, mul_comm, fits_int]
        omega

theorem safeMultiply_eq (a b result : BitVec 32) :
    safeMultiply a b result = some (checkedResult (a.toInt * b.toInt) result) := by
  rw [safeMultiply, productOutOfRange_eq, Option.bind_some]
  by_cases hfits : Fits 32 (a.toInt * b.toInt)
  · rw [if_neg (by simpa using hfits)]
    exact map_exact hfits result
  · rw [if_pos (decide_eq_true hfits), checkedResult, if_neg hfits]

theorem checkedResult_eq (x : Int) (result : BitVec 32) : checkedResult x result =
    if -2 ^ 31 ≤ x ∧ x < 2 ^ 31 then (0, BitVec.ofInt 32 x) else (-1, result) := by
  have hiff : Fits 32 x ↔ -2 ^ 31 ≤ x ∧ x < 2 ^ 31 := by
    unfold Fits
    omega
  rw [checkedResult]
  exact if_congr hiff rfl rfl

/-- **The result is stored when it is an `int`, and no check overflows or divides by zero.** -/
theorem safe_add_multiply (a b result : BitVec 32) :
    safeAdd a b result = some (if -2 ^ 31 ≤ a.toInt + b.toInt ∧ a.toInt + b.toInt < 2 ^ 31 then
        (0, BitVec.ofInt 32 (a.toInt + b.toInt)) else (-1, result)) ∧
      safeMultiply a b result = some (if -2 ^ 31 ≤ a.toInt * b.toInt ∧ a.toInt * b.toInt < 2 ^ 31
        then (0, BitVec.ofInt 32 (a.toInt * b.toInt)) else (-1, result)) := by
  rw [safeAdd_eq, safeMultiply_eq, checkedResult_eq, checkedResult_eq]
  exact ⟨rfl, rfl⟩

/-! ### Lengths -/

/-- Macros that `limits.h` looks at. -/
inductive Macro
  | kernel
  | posixSource
  | allocSkipDefine
  deriving DecidableEq

/-- What the Makefile defines, and what `limits.c` defines in front of its includes. -/
def limitsMacros : List Macro := [.allocSkipDefine, .kernel]

def pathMax (macros : List Macro) : Option Nat :=
  if .posixSource ∈ macros then some 4096 else none

def nameMax (macros : List Macro) : Option Nat :=
  if .posixSource ∈ macros then some 255 else none

/-- The loop of both functions, where the length is compared behind `len++`. -/
def lengthLoop (m : Mem) (path : Word) (tooLong : Nat → Bool) : Nat → Nat → Option Int
  | 0, _ => none
  | fuel + 1, len =>
    if m (path + BitVec.ofNat 64 len) = 0 then some 0
    else if tooLong (len + 1) then some (-1)
    else lengthLoop m path tooLong fuel (len + 1)

def validatePath (macros : List Macro) (m : Mem) (path : Word) : Option Int :=
  match pathMax macros with
  | some limit => lengthLoop m path (fun len => decide (limit ≤ len)) (2 ^ 64) 0
  | none => some 0

def validateFilename (macros : List Macro) (m : Mem) (name : Word) : Option Int :=
  match nameMax macros with
  | some limit => lengthLoop m name (fun len => decide (limit < len)) (2 ^ 64) 0
  | none => some 0

variable {m : Mem} {p : Word} {str : List (BitVec 8)}

/-- The loop, from a length that is not too long. -/
theorem lengthLoop_eq (h : StrAt m p str) (limit : Nat) {fuel len : Nat} (hlen : len ≤ str.length)
    (hfuel : str.length - len < fuel) (hshort : len < limit) :
    lengthLoop m p (fun len => decide (limit ≤ len)) fuel len =
      some (if str.length < limit then 0 else -1) := by
  induction fuel generalizing len with
  | zero => exact absurd hfuel (Nat.not_lt_zero _)
  | succ fuel ih =>
    rw [lengthLoop]
    by_cases hend : len = str.length
    · subst hend
      rw [if_pos h.terminated, if_pos hshort]
    · have hlt : len < str.length := by omega
      rw [if_neg (h.get_ne_zero hlt)]
      by_cases hlong : limit ≤ len + 1
      · rw [if_pos (decide_eq_true hlong), if_neg (by omega)]
      · rw [if_neg (by simpa using hlong)]
        exact ih hlt (by omega) (by omega)

/-- With the limits, the functions do what they are for; otherwise they accept every string. -/
theorem validate_macros_iff (h : StrAt m p str) (macros : List Macro) :
    (validatePath macros m p = some (if str.length < 4096 then 0 else -1) ↔
        .posixSource ∈ macros ∨ str.length < 4096) ∧
      (validateFilename macros m p = some (if str.length ≤ 255 then 0 else -1) ↔
        .posixSource ∈ macros ∨ str.length ≤ 255) := by
  have hlt := h.length_lt
  by_cases hposix : .posixSource ∈ macros
  · rw [validatePath, pathMax, if_pos hposix, validateFilename, nameMax, if_pos hposix]
    refine ⟨iff_of_true ?_ (Or.inl hposix), iff_of_true ?_ (Or.inl hposix)⟩
    · exact lengthLoop_eq h 4096 (Nat.zero_le _) (by omega) (by decide)
    · have hname := lengthLoop_eq h 256 (Nat.zero_le _) (by omega : _ < 2 ^ 64)
        (by decide)
      refine hname.trans (congrArg some (if_congr Nat.lt_succ_iff rfl rfl))
  · rw [validatePath, pathMax, if_neg hposix, validateFilename, nameMax, if_neg hposix]
    simp only [hposix, false_or]
    constructor
    · split <;> simp_all
    · split <;> simp_all

/-- **As `limits.c` is compiled, there are no limits, so the result is right for strings that are
short enough.** -/
theorem validate_iff (m : Mem) (p : Word) (str : List (BitVec 8)) (h : StrAt m p str) :
    (validatePath limitsMacros m p = some (if str.length < 4096 then 0 else -1) ↔
        str.length < 4096) ∧
      (validateFilename limitsMacros m p = some (if str.length ≤ 255 then 0 else -1) ↔
        str.length ≤ 255) := by
  have hposix : Macro.posixSource ∉ limitsMacros := by decide
  have h := validate_macros_iff h limitsMacros
  simpa only [hposix, false_or] using h

/-- 5000 letters. -/
def exampleLong : Mem := fun x => if x.toNat < 5000 then 0x61 else 0

theorem exampleLong_strAt : StrAt exampleLong 0 (List.replicate 5000 0x61) where
  bytes := by
    intro i hi
    rw [List.length_replicate] at hi
    have haddr : (0 + BitVec.ofNat 64 i : Word).toNat = i := by
      have hzero : (0 : Word).toNat = 0 := rfl
      rw [BitVec.toNat_add, BitVec.toNat_ofNat, hzero]
      omega
    rw [exampleLong, haddr, if_pos hi, List.getElem_replicate]
  ne_zero := by
    intro c hc
    rw [(List.mem_replicate.mp hc).2]
    decide
  terminated := by
    rw [List.length_replicate]
    rfl

theorem validate_iff_exampleLong : StrAt exampleLong 0 (List.replicate 5000 0x61) ∧
    (validatePath limitsMacros exampleLong 0 =
        some (if (List.replicate 5000 0x61#8).length < 4096 then 0 else -1) ↔
      (List.replicate 5000 0x61#8).length < 4096) ∧
    (validateFilename limitsMacros exampleLong 0 =
        some (if (List.replicate 5000 0x61#8).length ≤ 255 then 0 else -1) ↔
      (List.replicate 5000 0x61#8).length ≤ 255) :=
  ⟨exampleLong_strAt, validate_iff exampleLong 0 _ exampleLong_strAt⟩

/-- A path of 5000 bytes is accepted, and so is the file name. -/
theorem exampleLong_accepted : ¬ ∀ (m : Mem) (p : Word) (str : List (BitVec 8)), StrAt m p str →
    validatePath limitsMacros m p = some (if str.length < 4096 then 0 else -1) ∧
      validateFilename limitsMacros m p = some (if str.length ≤ 255 then 0 else -1) := by
  intro h
  have hpath := (h exampleLong 0 _ exampleLong_strAt).1
  have hzero : validatePath limitsMacros exampleLong 0 = some 0 := rfl
  rw [hzero, List.length_replicate] at hpath
  exact absurd hpath (by decide)

end AncoreOS.Klibc
