import AncoreOS.Heap.Tlsf
import AncoreOS.Library.SizeClasses
import AncoreOS.Library.WordCells

/-!
# Sizes, classes and tags

The two indices of `mapping_insert` are one class of `SizeClasses` with five bits behind the
leading one, counted in units of eight bytes (`mappingInsert_eq`), and `mapping_search` rounds up to
the least class that is large enough as a whole (`mappingSearch_eq`).

The size word of a block has the two flags in its low bits.  `tag` puts one together, and the
functions on the word become functions on its three parts.
-/

namespace AncoreOS.Heap

open ByteMemory WordCells SizeClasses

/-! ### Bits -/

theorem builtinFfs_eq {word : BitVec 32} (h : word ≠ 0) :
    ∃ i : Nat, i < 32 ∧ builtinFfs word = i + 1 ∧ word.getLsbD i = true ∧ ∀ j < i, word.getLsbD j = false := by
  unfold builtinFfs
  cases hfind : (List.range 32).find? fun i => word.getLsbD i with
  | none =>
    rw [List.find?_eq_none] at hfind
    refine absurd (BitVec.eq_of_getLsbD_eq fun i hi => ?_) h
    simpa using hfind i (List.mem_range.mpr hi)
  | some i =>
    have hmem := List.mem_range.mp (List.mem_of_find?_eq_some hfind)
    refine ⟨i, hmem, rfl, by simpa using List.find?_some hfind, fun j hj => ?_⟩
    obtain ⟨-, k, hk, hki, hbefore⟩ := List.find?_eq_some_iff_getElem.mp hfind
    simp only [List.getElem_range] at hki hbefore
    subst hki
    simpa using hbefore j hj

/-- The least index of a bit that is set. -/
theorem tlsfFfs_eq {word : BitVec 32} (h : word ≠ 0) :
    ∃ i : Nat, i < 32 ∧ (tlsfFfs word).toNat = i ∧ word.getLsbD i = true ∧ ∀ j < i, word.getLsbD j = false := by
  obtain ⟨i, hi, heq, hbit, hbefore⟩ := builtinFfs_eq h
  refine ⟨i, hi, ?_, hbit, hbefore⟩
  rw [tlsfFfs, heq]
  omega

theorem tlsfFls_eq {word : BitVec 32} (h : word ≠ 0) : tlsfFls word = word.toNat.log2 := by
  rw [tlsfFls, if_pos h, builtinClz]
  omega

theorem log2_high {s : Nat} (h : s / 2 ^ 32 ≠ 0) : s.log2 = 32 + (s / 2 ^ 32).log2 := by
  obtain ⟨hlow, hhigh⟩ := (Nat.log2_eq_iff h).mp rfl
  rw [Nat.log2_eq_iff (by omega), Nat.add_assoc, Nat.pow_add, Nat.pow_add]
  omega

theorem ofNat_ne_zero {w n : Nat} (hn : n < 2 ^ w) (h : n ≠ 0) : BitVec.ofNat w n ≠ 0#w := by
  intro he
  have hnat := congrArg BitVec.toNat he
  rw [BitVec.toNat_ofNat, Nat.mod_eq_of_lt hn] at hnat
  exact h (by simpa using hnat)

theorem tlsfFlsSizet_eq {s : Nat} (hs : s ≠ 0) (hlt : s < 2 ^ 64) :
    tlsfFlsSizet (BitVec.ofNat 64 s) = s.log2 := by
  have hhigh : (BitVec.ofNat 64 s >>> 32).setWidth 32 = BitVec.ofNat 32 (s / 2 ^ 32) := by
    apply BitVec.eq_of_toNat_eq
    rw [BitVec.toNat_setWidth, BitVec.toNat_ushiftRight, BitVec.toNat_ofNat, BitVec.toNat_ofNat,
      Nat.mod_eq_of_lt hlt, Nat.shiftRight_eq_div_pow]
  unfold tlsfFlsSizet
  simp only [hhigh]
  by_cases hsmall : s < 2 ^ 32
  · have hlow : (BitVec.ofNat 64 s).setWidth 32 = BitVec.ofNat 32 s := by
      apply BitVec.eq_of_toNat_eq
      simp
    rw [Nat.div_eq_of_lt hsmall, hlow]
    rw [if_neg (by simp), tlsfFls_eq (ofNat_ne_zero hsmall hs), BitVec.toNat_ofNat,
      Nat.mod_eq_of_lt hsmall]
  · have hq : s / 2 ^ 32 ≠ 0 := by omega
    have hqlt : s / 2 ^ 32 < 2 ^ 32 := by omega
    rw [if_pos (by exact ofNat_ne_zero hqlt hq), tlsfFls_eq (ofNat_ne_zero hqlt hq), BitVec.toNat_ofNat,
      Nat.mod_eq_of_lt hqlt, log2_high hq]
    rfl

/-! ### Classes -/

/-- The class of a size. -/
def sizeClass (s : Nat) : Nat := code 5 (s / 8)

/-- The class at which the search for a size begins. -/
def searchClass (s : Nat) : Nat := codeUp 5 (s / 8)

/-- The two indices of a class. -/
def indices (n : Nat) : Nat × Nat := (n / 32, n % 32)

theorem expo_eq {s : Nat} (hs : 256 ≤ s) : expo 5 (s / 8) + 8 = s.log2 := by
  have hlog : 8 ≤ s.log2 := (Nat.le_log2 (by omega)).mpr (by omega)
  have hdiv : (s / 8).log2 = s.log2 - 3 := by
    rw [Nat.log2_eq_iff (by omega)]
    have hlow := Nat.log2_self_le (n := s) (by omega)
    have hhigh := Nat.lt_log2_self (n := s)
    have hexp : s.log2 = s.log2 - 3 + 3 := by omega
    rw [hexp, Nat.pow_add] at hlow
    rw [hexp, Nat.add_right_comm, Nat.pow_add] at hhigh
    omega
  unfold expo
  omega

theorem xor_leading : ∀ x < 64, 32 ≤ x → x ^^^ 32 = x - 32 := by decide

/-- **The indices of a size are those of its class.** -/
theorem mappingInsert_eq {s : Nat} (hlt : s < 2 ^ 64) :
    mappingInsert (BitVec.ofNat 64 s) = indices (sizeClass s) := by
  have hcmp : BitVec.ofNat 64 s < BitVec.ofNat 64 smallBlockSize ↔ s < 256 := by
    rw [BitVec.lt_def, BitVec.toNat_ofNat, Nat.mod_eq_of_lt hlt]
    rfl
  unfold mappingInsert
  by_cases hs : s < 256
  · have hexp : expo 5 (s / 8) = 0 := by
      by_cases hzero : s / 8 = 0
      · simp [expo, hzero]
      · have := (Nat.log2_lt hzero).mpr (by omega : s / 8 < 2 ^ 5)
        unfold expo
        omega
    rw [if_pos (hcmp.mpr hs), BitVec.toNat_setWidth, BitVec.toNat_ofNat, Nat.mod_eq_of_lt hlt,
      Nat.mod_eq_of_lt (by omega)]
    simp only [indices, sizeClass, code, hexp]
    refine Prod.ext ?_ ?_
    · show 0 = (2 ^ 5 * 0 + s / 8 / 2 ^ 0) / 32
      omega
    · show s / 8 = (2 ^ 5 * 0 + s / 8 / 2 ^ 0) % 32
      omega
  · rw [if_neg (fun h => hs (hcmp.mp h)), tlsfFlsSizet_eq (by omega) hlt]
    have hexp := expo_eq (s := s) (by omega)
    have hsig : s / 2 ^ (s.log2 - 5) = s / 8 / 2 ^ expo 5 (s / 8) := by
      rw [Nat.div_div_eq_div_mul]
      congr 1
      rw [show s.log2 - 5 = expo 5 (s / 8) + 3 by omega, Nat.pow_add, Nat.mul_comm]
    have hsmall : s / 8 / 2 ^ expo 5 (s / 8) < 64 := significand_lt 5 (s / 8)
    have hbig : 32 ≤ s / 8 / 2 ^ expo 5 (s / 8) := by
      by_cases hzero : expo 5 (s / 8) = 0
      · rw [hzero]
        omega
      · exact le_significand (Nat.pos_of_ne_zero hzero)
    have hsl : ((BitVec.ofNat 64 s >>> (s.log2 - 5)).setWidth 32 ^^^ 1#32 <<< 5).toNat =
        s / 8 / 2 ^ expo 5 (s / 8) - 32 := by
      rw [BitVec.toNat_xor, BitVec.toNat_setWidth, BitVec.toNat_ushiftRight, BitVec.toNat_ofNat,
        Nat.mod_eq_of_lt hlt, Nat.shiftRight_eq_div_pow, hsig, Nat.mod_eq_of_lt (by omega)]
      exact xor_leading _ hsmall hbig
    simp only [indices, sizeClass, code]
    refine Prod.ext ?_ ?_
    · show s.log2 - 7 = _
      omega
    · refine Eq.trans (b := s / 8 / 2 ^ expo 5 (s / 8) - 32) hsl ?_
      show _ = (2 ^ 5 * expo 5 (s / 8) + s / 8 / 2 ^ expo 5 (s / 8)) % 32
      omega

/-- **The search begins at the least class that is large enough as a whole.** -/
theorem mappingSearch_eq {s : Nat} (hlt : s < 2 ^ 32) (h8 : s % 8 = 0) :
    mappingSearch (BitVec.ofNat 64 s) = indices (searchClass s) := by
  have hlt' : s < 2 ^ 64 := by omega
  have hcmp : BitVec.ofNat 64 smallBlockSize ≤ BitVec.ofNat 64 s ↔ 256 ≤ s := by
    rw [BitVec.le_def, BitVec.toNat_ofNat s, Nat.mod_eq_of_lt hlt']
    rfl
  unfold mappingSearch
  by_cases hs : 256 ≤ s
  · rw [if_pos (hcmp.mpr hs), tlsfFlsSizet_eq (by omega) hlt']
    have hexp := expo_eq hs
    have hlog : s.log2 < 32 := (Nat.log2_lt (by omega)).mpr hlt
    have hpow : 2 ^ (s.log2 - 5) = 8 * 2 ^ expo 5 (s / 8) := by
      rw [show s.log2 - 5 = 3 + expo 5 (s / 8) by omega, Nat.pow_add]
    have hle : 2 ^ (s.log2 - 5) < 2 ^ 32 := Nat.pow_lt_pow_right (by decide) (by omega)
    have hpos : 0 < 2 ^ expo 5 (s / 8) := Nat.two_pow_pos _
    have hone : (1#64 <<< (s.log2 - 5)).toNat = 2 ^ (s.log2 - 5) := by
      rw [BitVec.toNat_shiftLeft, Nat.shiftLeft_eq]
      simp only [BitVec.toNat_ofNat]
      omega
    have hround : 1#64 <<< (s.log2 - 5) - 1 = BitVec.ofNat 64 (2 ^ (s.log2 - 5) - 1) := by
      apply BitVec.eq_of_toNat_eq
      rw [BitVec.toNat_sub, hone, BitVec.toNat_ofNat]
      show (2 ^ 64 - 1 + 2 ^ (s.log2 - 5)) % 2 ^ 64 = _
      omega
    show mappingInsert (BitVec.ofNat 64 s + (1#64 <<< (s.log2 - 5) - 1)) = _
    rw [hround, ← BitVec.ofNat_add, mappingInsert_eq (by omega), sizeClass, searchClass, codeUp]
    congr 2
    omega
  · rw [if_neg (fun h => hs (hcmp.mp h)), mappingInsert_eq hlt', sizeClass, searchClass, codeUp]
    have hexp : expo 5 (s / 8) = 0 := by
      by_cases hzero : s / 8 = 0
      · simp [expo, hzero]
      · have := (Nat.log2_lt hzero).mpr (by omega : s / 8 < 2 ^ 5)
        unfold expo
        omega
    rw [hexp]
    rfl

theorem sizeClass_lt {s : Nat} (hlt : s < 2 ^ 32) : sizeClass s < 800 := by
  rw [sizeClass, ← not_le, le_code_iff, not_le]
  have hval : value 5 800 = 2 ^ 29 := by decide
  omega

/-- A size that is searched for is met by every block from the class on. -/
theorem searchClass_le_iff {s t : Nat} (ht : t % 8 = 0) :
    searchClass s ≤ sizeClass t ↔ 8 * value 5 (searchClass s) ≤ t := by
  rw [sizeClass, le_code_iff]
  omega

theorem le_of_searchClass_le {s t : Nat} (hs : s % 8 = 0) (h : searchClass s ≤ sizeClass t) :
    s ≤ t := by
  have hup : s / 8 ≤ value 5 (searchClass s) := le_value_codeUp 5 (s / 8)
  rw [sizeClass, le_code_iff] at h
  omega

/-! ### Requests -/

/-- What a request is adjusted to.  It is zero when the request is refused. -/
def adjusted (n : Nat) : Nat :=
  if n = 0 then 0
  else
    let aligned := (n + 7) % 2 ^ 64 / 8 * 8
    if aligned < 2 ^ 32 then max aligned 24 else 0

theorem alignUp_eq (x : Word) :
    alignUp x (BitVec.ofNat 64 alignSize) =
      some (BitVec.ofNat 64 ((x.toNat + 7) % 2 ^ 64 / 8 * 8)) := by
  have hmask : ~~~(BitVec.ofNat 64 alignSize - 1) = ~~~BitVec.ofNat 64 (2 ^ 3 - 1) := by decide
  have hadd : (x + (BitVec.ofNat 64 alignSize - 1)).toNat = (x.toNat + 7) % 2 ^ 64 := by
    rw [BitVec.toNat_add]
    rfl
  show (do tlsfAssert _; some _) = _
  rw [tlsfAssert, if_pos (by decide)]
  refine congrArg some (BitVec.eq_of_toNat_eq ?_)
  rw [hmask, and_not_low_toNat, hadd, BitVec.toNat_ofNat]
  omega

theorem adjustRequestSize_eq (size : Word) :
    adjustRequestSize size (BitVec.ofNat 64 alignSize) =
      some (BitVec.ofNat 64 (adjusted size.toNat)) := by
  unfold adjustRequestSize adjusted
  by_cases hzero : size = 0
  · subst hzero
    rfl
  · have hne : size.toNat ≠ 0 := fun h => hzero (BitVec.eq_of_toNat_eq h)
    rw [if_pos hzero, if_neg hne, alignUp_eq]
    simp only [Option.bind_eq_bind, Option.bind_some]
    generalize ha : (size.toNat + 7) % 2 ^ 64 / 8 * 8 = aligned
    have hlt : aligned < 2 ^ 64 := by omega
    have hmax : BitVec.ofNat 64 aligned < blockSizeMax ↔ aligned < 2 ^ 32 := by
      rw [BitVec.lt_def, BitVec.toNat_ofNat, Nat.mod_eq_of_lt hlt]
      rfl
    have hmin : blockSizeMin < BitVec.ofNat 64 aligned ↔ 24 < aligned := by
      rw [BitVec.lt_def, BitVec.toNat_ofNat aligned, Nat.mod_eq_of_lt hlt]
      rfl
    by_cases hsmall : aligned < 2 ^ 32
    · rw [if_pos (hmax.mpr hsmall), if_pos hsmall]
      by_cases hlarge : 24 < aligned
      · rw [if_pos (hmin.mpr hlarge), Nat.max_eq_left hlarge.le]
        rfl
      · rw [if_neg (fun h => hlarge (hmin.mp h)), Nat.max_eq_right (by omega)]
        rfl
    · rw [if_neg (fun h => hsmall (hmax.mp h)), if_neg hsmall]
      rfl

theorem adjusted_mod (n : Nat) : adjusted n % 8 = 0 := by
  unfold adjusted
  split
  · rfl
  · dsimp only
    split <;> omega

theorem adjusted_lt (n : Nat) : adjusted n < 2 ^ 32 := by
  unfold adjusted
  split
  · decide
  · dsimp only
    split <;> omega

/-- The request of a size that is not refused. -/
theorem adjusted_eq {n : Nat} (h : adjusted n ≠ 0) :
    (n + 7) % 2 ^ 64 / 8 * 8 < 2 ^ 32 ∧ adjusted n = max ((n + 7) % 2 ^ 64 / 8 * 8) 24 := by
  unfold adjusted at h
  split at h
  · exact absurd rfl h
  · rename_i hn
    dsimp only at h
    split at h
    · rename_i hlt
      refine ⟨hlt, ?_⟩
      unfold adjusted
      rw [if_neg hn]
      exact if_pos hlt
    · exact absurd rfl h

theorem adjusted_ge {n : Nat} (h : adjusted n ≠ 0) : 24 ≤ adjusted n := by
  rw [(adjusted_eq h).2]
  exact le_max_right _ 24

/-- **A request is not made smaller**, unless it is one of the seven that wrap. -/
theorem le_adjusted {n : Nat} (h : adjusted n ≠ 0) (hn : n ≤ 2 ^ 64 - 8) : n ≤ adjusted n := by
  rw [(adjusted_eq h).2]
  omega

/-- A block that is smaller than the adjusted request is smaller than the request. -/
theorem lt_of_lt_adjusted {n t : Nat} (ht : t % 8 = 0) (h24 : 24 ≤ t) (h : t < adjusted n) : t < n := by
  rw [(adjusted_eq (by omega)).2] at h
  omega

theorem adjusted_eq_zero_iff {n : Nat} (hn : n < 2 ^ 64) :
    adjusted n = 0 ↔ n = 0 ∨ 2 ^ 32 - 8 < n ∧ n ≤ 2 ^ 64 - 8 := by
  unfold adjusted
  split
  · simp [*]
  · dsimp only
    split <;> omega

/-! ### Tags -/

/-- The size word of a block. -/
def tag (size : Nat) (free prevFree : Bool) : Word :=
  BitVec.ofNat 64 size ||| (if free then blockHeaderFreeBit else 0) |||
    (if prevFree then blockHeaderPrevFreeBit else 0)

section Tag

variable {size : Nat} {free prevFree : Bool}

theorem freeBit_getLsbD (i : Nat) : blockHeaderFreeBit.getLsbD i = decide (i = 0) := by
  have hone : blockHeaderFreeBit = BitVec.twoPow 64 0 := by decide
  rw [hone, BitVec.getLsbD_twoPow]
  simp [eq_comm]

theorem prevFreeBit_getLsbD (i : Nat) : blockHeaderPrevFreeBit.getLsbD i = decide (i = 1) := by
  have htwo : blockHeaderPrevFreeBit = BitVec.twoPow 64 1 := by decide
  rw [htwo, BitVec.getLsbD_twoPow]
  simp [eq_comm]

theorem flag_getLsbD (b : Bool) (x : Word) (i : Nat) :
    (if b then x else 0).getLsbD i = (b && x.getLsbD i) := by
  cases b <;> simp

theorem tag_getLsbD (h8 : size % 8 = 0) (i : Nat) :
    (tag size free prevFree).getLsbD i =
      if i = 0 then free else if i = 1 then prevFree else decide (i < 64) && size.testBit i := by
  have h0 : size.testBit 0 = false := by
    rw [Nat.testBit_zero]
    exact decide_eq_false (by omega)
  have h1 : size.testBit 1 = false := by
    rw [Nat.testBit_succ, Nat.testBit_zero]
    exact decide_eq_false (by omega)
  unfold tag
  rw [BitVec.getLsbD_or, BitVec.getLsbD_or, BitVec.getLsbD_ofNat, flag_getLsbD, flag_getLsbD,
    freeBit_getLsbD, prevFreeBit_getLsbD]
  by_cases hi0 : i = 0
  · simp [hi0, h0]
  · by_cases hi1 : i = 1
    · simp [hi1, h1]
    · simp [hi0, hi1]

theorem tag_plain (size : Nat) : tag size false false = BitVec.ofNat 64 size := by
  simp [tag]

theorem tag_size (h8 : size % 8 = 0) :
    tag size free prevFree &&& ~~~(blockHeaderFreeBit ||| blockHeaderPrevFreeBit) =
      BitVec.ofNat 64 size := by
  rw [← tag_plain]
  refine BitVec.eq_of_getLsbD_eq fun i hi => ?_
  simp only [BitVec.getLsbD_and, BitVec.getLsbD_not, BitVec.getLsbD_or, tag_getLsbD h8,
    freeBit_getLsbD, prevFreeBit_getLsbD]
  grind

/-- The flags of a word that is not a size yet. -/
theorem exists_flags (w : Word) : ∃ free prevFree,
    w &&& (blockHeaderFreeBit ||| blockHeaderPrevFreeBit) = tag 0 free prevFree := by
  refine ⟨w.getLsbD 0, w.getLsbD 1, BitVec.eq_of_getLsbD_eq fun i hi => ?_⟩
  simp only [BitVec.getLsbD_and, BitVec.getLsbD_or, tag_getLsbD (Nat.zero_mod 8),
    freeBit_getLsbD, prevFreeBit_getLsbD, Nat.zero_testBit]
  grind

theorem tag_flags (h8 : size % 8 = 0) :
    tag size free prevFree &&& (blockHeaderFreeBit ||| blockHeaderPrevFreeBit) =
      tag 0 free prevFree := by
  refine BitVec.eq_of_getLsbD_eq fun i hi => ?_
  simp only [BitVec.getLsbD_and, BitVec.getLsbD_or, tag_getLsbD h8, tag_getLsbD (Nat.zero_mod 8),
    freeBit_getLsbD, prevFreeBit_getLsbD, Nat.zero_testBit]
  grind

theorem or_flags (size : Nat) (free prevFree : Bool) :
    BitVec.ofNat 64 size ||| tag 0 free prevFree = tag size free prevFree := by
  simp [tag, BitVec.or_assoc]

theorem tag_free (h8 : size % 8 = 0) :
    tag size free prevFree &&& blockHeaderFreeBit ≠ 0 ↔ free = true := by
  have hflag : tag size free prevFree &&& blockHeaderFreeBit = tag 0 free false := by
    refine BitVec.eq_of_getLsbD_eq fun i hi => ?_
    simp only [BitVec.getLsbD_and, tag_getLsbD h8, tag_getLsbD (Nat.zero_mod 8), freeBit_getLsbD,
      Nat.zero_testBit]
    grind
  rw [hflag]
  cases free <;> decide

theorem tag_prevFree (h8 : size % 8 = 0) :
    tag size free prevFree &&& blockHeaderPrevFreeBit ≠ 0 ↔ prevFree = true := by
  have hflag : tag size free prevFree &&& blockHeaderPrevFreeBit = tag 0 false prevFree := by
    refine BitVec.eq_of_getLsbD_eq fun i hi => ?_
    simp only [BitVec.getLsbD_and, tag_getLsbD h8, tag_getLsbD (Nat.zero_mod 8),
      prevFreeBit_getLsbD, Nat.zero_testBit]
    grind
  rw [hflag]
  cases prevFree <;> decide

theorem tag_setFree (h8 : size % 8 = 0) :
    tag size free prevFree ||| blockHeaderFreeBit = tag size true prevFree := by
  refine BitVec.eq_of_getLsbD_eq fun i hi => ?_
  simp only [BitVec.getLsbD_or, tag_getLsbD h8, freeBit_getLsbD]
  grind

theorem tag_setUsed (h8 : size % 8 = 0) :
    tag size free prevFree &&& ~~~blockHeaderFreeBit = tag size false prevFree := by
  refine BitVec.eq_of_getLsbD_eq fun i hi => ?_
  simp only [BitVec.getLsbD_and, BitVec.getLsbD_not, tag_getLsbD h8, freeBit_getLsbD]
  grind

theorem tag_setPrevFree (h8 : size % 8 = 0) :
    tag size free prevFree ||| blockHeaderPrevFreeBit = tag size free true := by
  refine BitVec.eq_of_getLsbD_eq fun i hi => ?_
  simp only [BitVec.getLsbD_or, tag_getLsbD h8, prevFreeBit_getLsbD]
  grind

theorem tag_setPrevUsed (h8 : size % 8 = 0) :
    tag size free prevFree &&& ~~~blockHeaderPrevFreeBit = tag size free false := by
  refine BitVec.eq_of_getLsbD_eq fun i hi => ?_
  simp only [BitVec.getLsbD_and, BitVec.getLsbD_not, tag_getLsbD h8, prevFreeBit_getLsbD]
  grind

/-- A size grows without touching the flags. -/
theorem tag_add (h8 : size % 8 = 0) {d : Nat} (hd : d % 8 = 0) :
    tag size free prevFree + BitVec.ofNat 64 d = tag (size + d) free prevFree := by
  have hsum (n : Nat) (hn : n % 8 = 0) :
      tag n free prevFree = BitVec.ofNat 64 n + tag 0 free prevFree := by
    rw [← or_flags n, BitVec.add_eq_or_of_and_eq_zero]
    rw [← tag_plain]
    refine BitVec.eq_of_getLsbD_eq fun i hi => ?_
    simp only [BitVec.getLsbD_and, tag_getLsbD hn, tag_getLsbD (Nat.zero_mod 8), Nat.zero_testBit]
    grind
  rw [hsum size h8, hsum (size + d) (by omega), BitVec.ofNat_add, BitVec.add_assoc,
    BitVec.add_comm (tag 0 free prevFree), ← BitVec.add_assoc]

end Tag

end AncoreOS.Heap
