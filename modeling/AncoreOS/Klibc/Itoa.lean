import AncoreOS.Klibc.Strtol
import AncoreOS.Library.Buffer

/-!
# `itoa` and `strtol`

`itoa` writes the digits of a number into a buffer, last digit first, then a minus sign and the
null character, and turns the text round in place.  `itoaInto` is this, and the text is `itoa`
(`itoaInto_eq`).

`strtol` reads a numeral back (`strtol_numeral`).  So a number that `itoa` has written is read as
the same number, the most negative one among them: its digits are computed without a sign.
-/

namespace AncoreOS.Klibc

open ByteMemory Buffer

/-! ### Numerals -/

/-- The digits of a numeral, first digit first. -/
def numeralDigits (base n : Nat) : List Nat := if n = 0 then [0] else (Nat.digits base n).reverse

theorem numeral_eq_map (base n : Nat) : numeral base n = (numeralDigits base n).map digitOf := by
  unfold numeral numeralDigits
  split
  · rfl
  · rw [List.map_reverse]

theorem numeralDigits_ne_nil {base n : Nat} : numeralDigits base n ≠ [] := by
  unfold numeralDigits
  split
  · simp
  · rename_i hn
    simpa [Nat.digits_eq_nil_iff_eq_zero] using hn

theorem numeralDigits_lt {base n : Nat} (hbase : 1 < base) : ∀ d ∈ numeralDigits base n, d < base := by
  unfold numeralDigits
  split
  · simp; omega
  · intro d hd
    exact Nat.digits_lt_base hbase (List.mem_reverse.mp hd)

theorem valueOf_numeralDigits (base n : Nat) : valueOf base (numeralDigits base n) = n := by
  unfold valueOf numeralDigits
  split
  · rename_i hn
    simp [hn]
  · rw [List.reverse_reverse, Nat.ofDigits_digits]

theorem spells_digitOf (ds : List Nat) : List.Forall₂ Spells ds (ds.map digitOf) := by
  induction ds with
  | nil => exact .nil
  | cons d ds ih => exact .cons (Or.inl rfl) ih

/-- A numeral has no leading zeros. -/
theorem eq_zero_of_numeral {base n : Nat} (h₁ : 2 ≤ base) (h₂ : base ≤ 36) {s : List Char}
    (h : numeral base n = '0' :: s) : n = 0 := by
  by_contra hn
  rw [numeral_eq_map, numeralDigits, if_neg hn] at h
  cases hds : (Nat.digits base n).reverse with
  | nil => simp [hds] at h
  | cons d ds =>
    have hdigits : Nat.digits base n = ds.reverse ++ [d] := by
      rw [← List.reverse_reverse (Nat.digits base n), hds, List.reverse_cons]
    have hlast := Nat.getLast_digit_ne_zero base hn
    have hlt : d < base := Nat.digits_lt_base h₁ (show d ∈ Nat.digits base n by simp [hdigits])
    have hzero : ∀ d < 36, digitOf d = '0' → d = 0 := by decide
    simp only [hdigits, List.getLast_append_singleton] at hlast
    rw [hds, List.map_cons] at h
    injection h with hd
    exact hlast (hzero d (by omega) hd)

/-- A numeral as a number in front of nothing. -/
def numeralText {base : Nat} (h₁ : 2 ≤ base) (h₂ : base ≤ 36) (sign : Sign) (n : Nat) :
    NumberText base (sign.chars ++ numeral base n) where
  spaces := []
  sign := sign
  pre := .none
  digits := numeral base n
  rest := []
  resolved := base
  values := numeralDigits base n
  str_eq := by simp [HexPrefix.chars]
  isSpace := isSpace_nil
  resolves := .given h₁ h₂
  nonempty := numeralDigits_ne_nil
  lt_base := numeralDigits_lt h₁
  spelled := numeral_eq_map base n ▸ spells_digitOf _
  maximal := by simp [NoDigit]
  taken := by
    rintro _ _ s (h | h)
    · rw [List.append_nil] at h
      obtain rfl := eq_zero_of_numeral h₁ h₂ h
      simp [numeral] at h
    · rw [List.append_nil] at h
      obtain rfl := eq_zero_of_numeral h₁ h₂ h
      simp [numeral] at h

theorem numeralText_not_lone {base : Nat} (h₁ : 2 ≤ base) (h₂ : base ≤ 36) (sign : Sign) (n : Nat) :
    ¬ (numeralText h₁ h₂ sign n).LonePrefix := by
  rintro ⟨_, _, s, h | h⟩
  · obtain rfl := eq_zero_of_numeral h₁ h₂ ((List.append_nil _).symm.trans h)
    simp [numeralText, numeral] at h
  · obtain rfl := eq_zero_of_numeral h₁ h₂ ((List.append_nil _).symm.trans h)
    simp [numeralText, numeral] at h

/-- A numeral is read as its number, to the end. -/
theorem strtol_numeral {base : Nat} (h₁ : 2 ≤ base) (h₂ : base ≤ 36) (sign : Sign) (n : Nat) :
    strtol (sign.chars ++ numeral base n) base =
      (if sign = .minus then -BitVec.ofNat 64 n else BitVec.ofNat 64 n, []) := by
  have h := (numeralText h₁ h₂ sign n).strtol_eq (numeralText_not_lone h₁ h₂ sign n)
  rw [h]
  show (if sign = .minus then -BitVec.ofNat 64 (valueOf base (numeralDigits base n))
    else BitVec.ofNat 64 (valueOf base (numeralDigits base n)), []) = _
  rw [valueOf_numeralDigits]

/-- Different numbers have different numerals. -/
theorem numeral_injective {base : Nat} (h₁ : 2 ≤ base) (h₂ : base ≤ 36) {m n : Nat}
    (h : numeral base m = numeral base n) : m = n := by
  have hdecode : ∀ n, (numeral base n).map (fun c => (strtolDigit c).getD 0) =
      numeralDigits base n := by
    intro n
    rw [numeral_eq_map, List.map_map]
    conv_rhs => rw [← List.map_id (numeralDigits base n)]
    refine List.map_congr_left fun d hd => ?_
    have hlt := numeralDigits_lt h₁ d hd
    rw [Function.comp_apply, strtolDigit_of_spells (by omega) (Or.inl rfl)]
    rfl
  rw [← valueOf_numeralDigits base m, ← hdecode m, h, hdecode n, valueOf_numeralDigits]

theorem itoa_eq {base : Nat} (hbase : 1 < base) (value : BitVec 32) :
    itoa value base = if value.toInt < 0 ∧ base = 10 then '-' :: numeral 10 (-value).toNat
      else numeral base value.toNat := by
  by_cases h10 : base = 10
  · subst h10
    simp [itoa_dec]
  · rw [if_neg fun h => h10 h.2]
    unfold itoa numeral
    by_cases hzero : value = 0
    · simp [hzero]
    · have hne : value.toNat ≠ 0 := fun h => hzero (BitVec.eq_of_toNat_eq h)
      rw [if_neg hzero, if_neg hne]
      simp [itoaLoop_toNat hbase, h10]

/-! ### The buffer -/

/-- The loop of `itoa`: the buffer, and the offset behind the last digit. -/
def itoaDigits (base : Nat) : Nat → Nat → Nat → (Nat → Char) → (Nat → Char) × Nat
  | 0, _, i, str => (str, i)
  | fuel + 1, value, i, str =>
    if value = 0 then (str, i)
    else itoaDigits base fuel (value / base) (i + 1)
      (Function.update str i (digitOf (value % base)))

/-- The loop that swaps from both ends. -/
def itoaReverse : Nat → Nat → Nat → (Nat → Char) → Nat → Char
  | 0, _, _, str => str
  | fuel + 1, start, stop, str =>
    if start < stop then
      let temp := str start
      itoaReverse fuel (start + 1) (stop - 1)
        (Function.update (Function.update str start (str stop)) stop temp)
    else str

/-- `itoa` with its buffer. -/
def itoaInto (value : BitVec 32) (str : Nat → Char) (base : Nat) : Nat → Char :=
  if value = 0 then Function.update (Function.update str 0 '0') 1 '\x00'
  else
    let isNegative := decide (value.toInt < 0) && base == 10
    let value := if isNegative then -value else value
    let (str, i) := itoaDigits base 32 value.toNat 0 str
    let (str, i) := if isNegative then (Function.update str i '-', i + 1) else (str, i)
    itoaReverse i 0 (i - 1) (Function.update str i '\x00')

theorem itoaDigits_eq (base fuel value : Nat) (str : Nat → Char) (l : List Char) :
    itoaDigits base fuel value l.length (writeAt str 0 l) =
      (writeAt str 0 (l ++ itoaLoop base fuel value),
        (l ++ itoaLoop base fuel value).length) := by
  induction fuel generalizing value l with
  | zero => simp [itoaDigits, itoaLoop]
  | succ fuel ih =>
    rw [itoaDigits, itoaLoop]
    split
    · simp
    · have hupdate := update_writeAt str 0 l (digitOf (value % base))
      rw [Nat.zero_add] at hupdate
      have hnext := ih (value / base) (l ++ [digitOf (value % base)])
      rw [List.length_append, List.length_singleton] at hnext
      rw [hupdate, hnext, List.append_assoc]
      rfl

theorem itoaReverse_apply {fuel start stop : Nat} (h : stop ≤ start + 2 * fuel) (str : Nat → Char)
    (k : Nat) :
    itoaReverse fuel start stop str k =
      if start ≤ k ∧ k ≤ stop then str (start + stop - k) else str k := by
  induction fuel generalizing start stop str with
  | zero =>
    rw [itoaReverse]
    split
    · congr 1
      omega
    · rfl
  | succ fuel ih =>
    rw [itoaReverse]
    split
    · rename_i hlt
      rw [ih (by omega)]
      rcases eq_or_ne k start with rfl | hstart
      · rw [if_neg (by omega), if_pos (by omega), Function.update_of_ne (by omega),
          Function.update_self]
        congr 1
        omega
      · rcases eq_or_ne k stop with rfl | hstop
        · rw [if_neg (by omega), if_pos (by omega), Function.update_self]
          congr 1
          omega
        · by_cases hin : start ≤ k ∧ k ≤ stop
          · rw [if_pos (by omega), if_pos hin, Function.update_of_ne (by omega),
              Function.update_of_ne (by omega)]
            congr 1
            omega
          · rw [if_neg (by omega), if_neg hin, Function.update_of_ne hstop,
              Function.update_of_ne hstart]
    · split
      · congr 1
        omega
      · rfl

/-- The text is turned round, and the null character stays behind it. -/
theorem itoaReverse_eq (str : Nat → Char) (l : List Char) :
    itoaReverse l.length 0 (l.length - 1) (Function.update (writeAt str 0 l) l.length '\x00') =
      writeAt str 0 (l.reverse ++ ['\x00']) := by
  have hupdate := update_writeAt str 0 l '\x00'
  rw [Nat.zero_add] at hupdate
  rw [hupdate]
  apply writeAt_reverse
  · intro k hk
    rw [itoaReverse_apply (by omega), if_pos (by omega), Nat.zero_add]
  · intro k hk
    rw [itoaReverse_apply (by omega)]
    split
    · rename_i hle
      obtain ⟨rfl, hlen⟩ : k = 0 ∧ l.length = 0 := by omega
      simp [hlen]
    · rfl

/-- **What `itoa` writes is the text `itoa` and a null character, and nothing else.** -/
theorem itoaInto_eq (value : BitVec 32) (str : Nat → Char) (base : Nat) :
    itoaInto value str base = writeAt str 0 (itoa value base ++ ['\x00']) := by
  unfold itoaInto itoa
  split
  · have h₁ := update_writeAt str 0 [] '0'
    have h₂ := update_writeAt str 0 ['0'] '\x00'
    simp only [writeAt_nil, List.length_nil, List.length_singleton, List.nil_append, Nat.zero_add,
      Nat.add_zero] at h₁ h₂
    rw [h₁, h₂]
  · simp only
    generalize (decide (value.toInt < 0) && base == 10) = isNegative
    generalize (if isNegative = true then -value else value).toNat = n
    have hdigits := itoaDigits_eq base 32 n str []
    rw [writeAt_nil, List.length_nil, List.nil_append] at hdigits
    rw [hdigits]
    generalize itoaLoop base 32 n = l
    cases isNegative with
    | false =>
      simp only [Bool.false_eq_true, if_false, List.append_nil]
      exact itoaReverse_eq str l
    | true =>
      have hupdate := update_writeAt str 0 l '-'
      rw [Nat.zero_add] at hupdate
      have hreverse := itoaReverse_eq str (l ++ ['-'])
      rw [List.length_append, List.length_singleton] at hreverse
      simp only [if_true, hupdate]
      exact hreverse

/-! ### Length and characters -/

theorem numeral_length_le {base n : Nat} (hbase : 1 < base) {k : Nat} (hk : 0 < k)
    (h : n < base ^ k) : (numeral base n).length ≤ k := by
  unfold numeral
  split
  · exact hk
  · rw [List.length_reverse, List.length_map]
    exact (Nat.digits_length_le_iff hbase n).mpr h

theorem itoa_length_le {base : Nat} (hbase : 1 < base) (value : BitVec 32) :
    (itoa value base).length ≤ 32 := by
  rw [itoa_eq hbase]
  split
  · have hlt : (-value).toNat < 10 ^ 10 := by
      have := (-value).isLt
      omega
    have hle := numeral_length_le (by decide) (by decide) hlt
    rw [List.length_cons]
    omega
  · apply numeral_length_le hbase (by decide)
    calc value.toNat < 2 ^ 32 := value.isLt
      _ ≤ base ^ 32 := Nat.pow_le_pow_left hbase 32

theorem exists_digit_of_mem {base n : Nat} (hbase : 1 < base) {c : Char} (h : c ∈ numeral base n) :
    ∃ d < base, digitOf d = c := by
  rw [numeral_eq_map] at h
  obtain ⟨d, hd, heq⟩ := List.mem_map.mp h
  exact ⟨d, numeralDigits_lt hbase d hd, heq⟩

/-- A character that is no digit. -/
theorem not_mem_numeral_of_digits {base n : Nat} (h₁ : 2 ≤ base) (h₂ : base ≤ 36) {c : Char}
    (hc : ∀ d < 36, digitOf d ≠ c) : c ∉ numeral base n := by
  intro hmem
  obtain ⟨d, hd, heq⟩ := exists_digit_of_mem h₁ hmem
  exact hc d (by omega) heq

/-! ### Signed numbers -/

def signedNumeral (v : Int) : List Char :=
  if v < 0 then '-' :: numeral 10 v.natAbs else numeral 10 v.natAbs

theorem signedNumeral_natCast (n : Nat) : signedNumeral n = numeral 10 n := by
  rw [signedNumeral, if_neg (by omega), Int.natAbs_natCast]

theorem signedNumeral_injective {v w : Int} (h : signedNumeral v = signedNumeral w) : v = w := by
  have hminus : ∀ n, '-' ∉ numeral 10 n := fun n =>
    not_mem_numeral_of_digits (by decide) (by decide) (by decide)
  unfold signedNumeral at h
  split at h <;> split at h
  · injection h with _ hdigits
    have := numeral_injective (by decide) (by decide) hdigits
    omega
  · exact absurd (h ▸ List.mem_cons_self) (hminus w.natAbs)
  · exact absurd (h.symm ▸ List.mem_cons_self) (hminus v.natAbs)
  · have := numeral_injective (by decide) (by decide) h
    omega

theorem toNat_of_neg {w : Nat} {v : BitVec w} (h : v.toInt < 0) : (-v).toNat = v.toInt.natAbs := by
  have hv := BitVec.toInt_eq_toNat_cond v
  have hlt := v.isLt
  rw [BitVec.toNat_neg]
  split at hv
  · omega
  · rw [Nat.mod_eq_of_lt (by omega)]
    omega

theorem toNat_of_nonneg {w : Nat} {v : BitVec w} (h : ¬ v.toInt < 0) : v.toNat = v.toInt.natAbs := by
  have hv := BitVec.toInt_eq_toNat_cond v
  have hlt := v.isLt
  split at hv <;> omega

theorem itoa_signed (v : BitVec 32) : itoa v 10 = signedNumeral v.toInt := by
  rw [itoa_dec, signedNumeral]
  split
  · rename_i hneg
    rw [toNat_of_neg hneg]
  · rename_i hnonneg
    rw [toNat_of_nonneg hnonneg]

/-! ### There and back -/

theorem ofNat_toNat_eq (value : BitVec 32) : BitVec.ofNat 64 value.toNat = value.setWidth 64 := by
  apply BitVec.eq_of_toNat_eq
  rw [BitVec.toNat_ofNat, BitVec.toNat_setWidth]

/-- A negative number from its digits. -/
theorem neg_ofNat_toNat_eq {value : BitVec 32} (h : value.toInt < 0) :
    -BitVec.ofNat 64 (-value).toNat = value.signExtend 64 := by
  apply BitVec.eq_of_toInt_eq
  have hv := BitVec.toInt_eq_toNat_cond value
  have hlt := value.isLt
  rw [BitVec.toInt_signExtend_of_le (by decide), BitVec.toInt_neg,
    BitVec.toInt_eq_toNat_of_lt (by rw [BitVec.toNat_ofNat, BitVec.toNat_neg]; omega),
    BitVec.toNat_ofNat, BitVec.toNat_neg]
  split at hv
  · omega
  · rw [Int.bmod_eq_of_le (by omega) (by omega)]
    omega

theorem signExtend_of_nonneg {value : BitVec 32} (h : ¬ value.toInt < 0) :
    value.signExtend 64 = value.setWidth 64 := by
  apply BitVec.signExtend_eq_setWidth_of_msb_false
  rw [BitVec.msb_eq_toInt]
  exact decide_eq_false h

theorem null_not_mem_itoa {base : Nat} (h₁ : 2 ≤ base) (h₂ : base ≤ 36) (value : BitVec 32) :
    '\x00' ∉ itoa value base := by
  rw [itoa_eq h₁]
  split
  · rw [List.mem_cons, not_or]
    exact ⟨by decide, not_mem_numeral_of_digits (by decide) (by decide) (by decide)⟩
  · exact not_mem_numeral_of_digits h₁ h₂ (by decide)

theorem itoa_no_leading_zero {base : Nat} (h₁ : 2 ≤ base) (h₂ : base ≤ 36) (value : BitVec 32)
    (s : List Char) : (itoa value base = '0' :: s → s = []) ∧ itoa value base ≠ '-' :: '0' :: s := by
  rw [itoa_eq h₁]
  split
  · rename_i hneg
    refine ⟨fun h => ?_, fun h => ?_⟩
    · injection h with hminus
      exact absurd hminus (by decide)
    · injection h with _ hdigits
      have hzero := eq_zero_of_numeral (by decide) (by decide) hdigits
      have hneg0 : -value = 0 := BitVec.eq_of_toNat_eq hzero
      rw [show value = 0 by simpa using hneg0] at hneg
      exact absurd hneg.1 (by decide)
  · refine ⟨fun h => ?_, fun h => ?_⟩
    · rw [eq_zero_of_numeral h₁ h₂ h] at h
      injection h with _ hs
      exact hs.symm
    · exact not_mem_numeral_of_digits h₁ h₂ (by decide) (h ▸ List.mem_cons_self)

theorem strtol_itoa_eq {base : Nat} (h₁ : 2 ≤ base) (h₂ : base ≤ 36) (value : BitVec 32) :
    strtol (itoa value base) base =
      (if base = 10 then value.signExtend 64 else value.setWidth 64, []) := by
  rw [itoa_eq h₁]
  split
  · rename_i hneg
    have h : strtol ('-' :: numeral 10 (-value).toNat) 10 = _ :=
      strtol_numeral (by decide) (by decide) .minus (-value).toNat
    rw [if_pos rfl, neg_ofNat_toNat_eq hneg.1] at h
    rw [hneg.2, if_pos rfl]
    exact h
  · rename_i hpos
    have hvalue : (if base = 10 then value.signExtend 64 else value.setWidth 64) =
        value.setWidth 64 := by
      split
      · rename_i h10
        exact signExtend_of_nonneg fun h => hpos ⟨h, h10⟩
      · rfl
    have h := strtol_numeral h₁ h₂ .none value.toNat
    rw [if_neg (by decide), ofNat_toNat_eq] at h
    rw [hvalue]
    exact h

/-- **A number that `itoa` has written is read back by `strtol`**, in every base: as the number
itself in base 10, and as its unsigned value in the others.  The text takes at most 33 bytes
with its null character, and has no leading zeros. -/
theorem strtol_itoa (value : BitVec 32) (base : Nat) (h₁ : 2 ≤ base) (h₂ : base ≤ 36)
    (str : Nat → Char) :
    itoaInto value str base = writeAt str 0 (itoa value base ++ ['\x00']) ∧
      '\x00' ∉ itoa value base ∧ (itoa value base ++ ['\x00']).length ≤ 33 ∧
      (∀ s, (itoa value base = '0' :: s → s = []) ∧ itoa value base ≠ '-' :: '0' :: s) ∧
      strtol (itoa value base) base =
        (if base = 10 then value.signExtend 64 else value.setWidth 64, []) := by
  have hlen := itoa_length_le h₁ value
  refine ⟨itoaInto_eq value str base, null_not_mem_itoa h₁ h₂ value, ?_,
    itoa_no_leading_zero h₁ h₂ value, strtol_itoa_eq h₁ h₂ value⟩
  rw [List.length_append, List.length_singleton]
  omega

/-- The most negative number. -/
theorem strtol_itoa_intMin :
    itoaInto 0x80000000 (fun _ => 'a') 10 =
        writeAt (fun _ => 'a') 0 (itoa 0x80000000 10 ++ ['\x00']) ∧
      '\x00' ∉ itoa 0x80000000 10 ∧ (itoa 0x80000000 10 ++ ['\x00']).length ≤ 33 ∧
      (∀ s, (itoa 0x80000000 10 = '0' :: s → s = []) ∧ itoa 0x80000000 10 ≠ '-' :: '0' :: s) ∧
      strtol (itoa 0x80000000 10) (10 : Nat) =
        (if 10 = 10 then (0x80000000 : BitVec 32).signExtend 64
          else (0x80000000 : BitVec 32).setWidth 64, []) :=
  strtol_itoa 0x80000000 10 (by decide) (by decide) fun _ => 'a'

end AncoreOS.Klibc
