import AncoreOS.Heap.TlsfCalls

/-!
# A new heap

`control_construct` makes every list empty, and `tlsf_add_pool` makes the pool one free block with a
block of no size behind it.  Both write over whatever was there: the flags of the two size words
come from the memory, and are put right one after the other.
-/

namespace AncoreOS.Heap

open ByteMemory WordCells BlockTiling

variable {m m' : Mem} {a c s e x y : Nat}

/-! ### The control structure -/

theorem setBlocks_row (m : Mem) (a i j : Nat) (v : Word) :
    setBlocks m (BitVec.ofNat 64 a) i j v = setWord m (a + (136 + 8 * (32 * i + j))) v := by
  rw [setBlocks, setWord, BitVec.ofNat_add a]
  rfl

/-- One row of heads. -/
theorem row_constructed (ha : a % 8 = 0) (hfit : a + 6536 ≤ 2 ^ 64) {i k : Nat} (hi : i < 25)
    (hk : k ≤ 32) (m : Mem) {y : Nat} (hy : Cell y) :
    word ((List.range k).foldl
        (fun m j => setBlocks m (BitVec.ofNat 64 a) i j (blockNull (BitVec.ofNat 64 a))) m) y =
      if a + 136 + 256 * i ≤ y ∧ y < a + 136 + 256 * i + 8 * k then BitVec.ofNat 64 a else word m y := by
  induction k with
  | zero =>
    rw [if_neg (by omega)]
    rfl
  | succ k ih =>
    rw [List.range_succ, List.foldl_append, List.foldl_cons, List.foldl_nil, setBlocks_row,
      word_setWord (by omega) hy, ih (by omega), blockNull]
    by_cases hyk : y = a + (136 + 8 * (32 * i + k))
    · rw [if_pos hyk, if_pos (by omega)]
    · rw [if_neg hyk]
      exact if_congr (by omega) rfl rfl

/-- The rows of heads and the words of bits up to the row `k`. -/
structure Constructed (m m' : Mem) (a k : Nat) : Prop where
  heads : ∀ y, Cell y → a + 136 ≤ y → y < a + 136 + 256 * k → word m' y = BitVec.ofNat 64 a
  rest : ∀ y, Cell y → y < a + 32 ∨ a + 136 + 256 * k ≤ y → word m' y = word m y
  second : ∀ i < k, half m' (a + (36 + 4 * i)) = 0
  first : half m' (a + 32) = half m (a + 32)

theorem rows_constructed (ha : a % 8 = 0) (hfit : a + 6536 ≤ 2 ^ 64) {k : Nat} (hk : k ≤ 25) (m : Mem) :
    Constructed m ((List.range k).foldl (fun m i =>
      (List.range slIndexCount).foldl
        (fun m j => setBlocks m (BitVec.ofNat 64 a) i j (blockNull (BitVec.ofNat 64 a)))
        (setSlBitmap m (BitVec.ofNat 64 a) i 0)) m) a k := by
  induction k with
  | zero => exact ⟨fun y hy h1 h2 => by omega, fun y hy _ => rfl, by simp, rfl⟩
  | succ k ih =>
    obtain ⟨hheads, hrest, hsecond, hfirst⟩ := ih (by omega)
    rw [List.range_succ, List.foldl_append, List.foldl_cons, List.foldl_nil, setSlBitmap_ofNat]
    generalize (List.range k).foldl (fun m i =>
      (List.range slIndexCount).foldl
        (fun m j => setBlocks m (BitVec.ofNat 64 a) i j (blockNull (BitVec.ofNat 64 a)))
        (setSlBitmap m (BitVec.ofNat 64 a) i 0)) m = m₁ at *
    have hrow := fun (y : Nat) (hy : Cell y) =>
      row_constructed ha hfit (by omega : k < 25) (le_refl 32) (setHalf m₁ (a + (36 + 4 * k)) 0) hy
    have hhalf : ∀ z, HalfCell z → a + 32 ≤ z → z < a + 136 →
        half ((List.range slIndexCount).foldl
          (fun m j => setBlocks m (BitVec.ofNat 64 a) k j (blockNull (BitVec.ofNat 64 a)))
          (setHalf m₁ (a + (36 + 4 * k)) 0)) z = half (setHalf m₁ (a + (36 + 4 * k)) 0) z := by
      intro z hz hlow hhigh
      refine half_congr hz ((hrow _ (by omega)).trans (if_neg (by omega)))
    refine ⟨fun y hy hlow hhigh => ?_, fun y hy hout => ?_, fun i hi => ?_, ?_⟩
    · refine (hrow y hy).trans ?_
      split
      · rfl
      · rw [word_setHalf_of_ne (by omega) hy (by omega), hheads y hy hlow (by omega)]
    · refine (hrow y hy).trans ?_
      rw [if_neg (by omega), word_setHalf_of_ne (by omega) hy (by omega), hrest y hy (by omega)]
    · rw [hhalf _ (by omega) (by omega) (by omega)]
      by_cases hik : i = k
      · subst hik
        rw [half_setHalf_self]
      · rw [half_setHalf_of_ne (by omega) (by omega) (by omega), hsecond i (by omega)]
    · rw [hhalf _ (by omega) (by omega) (by omega),
        half_setHalf_of_ne (by omega) (by omega) (by omega), hfirst]

/-- **A new control structure has empty lists.** -/
theorem controlConstruct_empty (ha : a % 8 = 0) (hfit : a + 6536 ≤ 2 ^ 64) (m : Mem) :
    FreeLists (controlConstruct m (BitVec.ofNat 64 a)) a (fun _ => []) ∧
      ∀ y, Cell y → y < a ∨ a + 6536 ≤ y →
        word (controlConstruct m (BitVec.ofNat 64 a)) y = word m y := by
  unfold controlConstruct
  simp only [blockNull, setNextFree_ofNat, setPrevFree_ofNat, setFlBitmap_ofNat]
  obtain ⟨hheads, hrest, hsecond, hfirst⟩ := rows_constructed ha hfit (le_refl 25)
    (setHalf (setWord (setWord m (a + 16) (BitVec.ofNat 64 a)) (a + 24) (BitVec.ofNat 64 a)) (a + 32) 0)
  refine ⟨⟨⟨by simp, by simp, fun n hn => ?_, fun n hn => trivial⟩, ⟨fun i hi j hj => ?_, fun i hi => ?_⟩⟩,
    fun y hy hout => ?_⟩
  · exact hheads _ (by omega) (by omega) (by omega)
  · refine (congrArg (BitVec.getLsbD · j) (hsecond i hi)).trans ?_
    simp
  · refine (congrArg (BitVec.getLsbD · i) (hfirst.trans (half_setHalf_self _ _ _))).trans ?_
    have hzero : ¬(i < 25 ∧ half _ (a + (36 + 4 * i)) ≠ 0) := fun h => h.2 (hsecond i h.1)
    exact (BitVec.getLsbD_zero (w := 32) (i := i)).trans (decide_eq_false hzero).symm
  · refine (hrest y hy (by omega)).trans ?_
    simp (disch := omega) only [word_setHalf_of_ne, word_setWord_of_ne]

/-! ### The pool -/

theorem srem_eight (x : Word) : x.srem (BitVec.ofNat 64 alignSize) = 0 ↔ x.toNat % 8 = 0 := by
  have height : (BitVec.ofNat 64 alignSize).msb = false := by decide
  have hzero : ∀ z : Word, z.umod (BitVec.ofNat 64 alignSize) = 0#64 ↔ z.toNat % 8 = 0 := by
    intro z
    rw [← BitVec.toNat_inj]
    show (z % BitVec.ofNat 64 alignSize).toNat = 0 ↔ _
    rw [BitVec.toNat_umod]
    exact Iff.rfl
  rw [BitVec.srem, height]
  cases x.msb with
  | false => exact hzero x
  | true =>
    show -((-x).umod (BitVec.ofNat 64 alignSize)) = 0#64 ↔ _
    rw [BitVec.neg_eq_zero_iff, hzero, BitVec.toNat_neg]
    have := x.isLt
    omega

theorem alignDown_eq {x : Nat} (hx : x < 2 ^ 64) :
    alignDown (BitVec.ofNat 64 x) (BitVec.ofNat 64 alignSize) = some (BitVec.ofNat 64 (x / 8 * 8)) := by
  have hpow : BitVec.ofNat 64 alignSize &&& (BitVec.ofNat 64 alignSize - 1) = 0 := by decide
  have hlow : (BitVec.ofNat 64 x &&& (BitVec.ofNat 64 alignSize - 1)).toNat = x % 8 := by
    rw [show BitVec.ofNat 64 alignSize - 1 = BitVec.ofNat 64 (2 ^ 3 - 1) by decide, BitVec.toNat_and,
      toNat_ofNat_of_lt hx, toNat_ofNat_of_lt (by decide), Nat.and_two_pow_sub_one_eq_mod]
  simp only [alignDown, tlsfAssert, if_pos hpow, Option.pure_def, Option.bind_eq_bind, Option.bind_some]
  congr 1
  apply BitVec.eq_of_toNat_eq
  rw [BitVec.toNat_sub_of_le, hlow, toNat_ofNat_of_lt hx, toNat_ofNat_of_lt (by omega)]
  · omega
  · rw [BitVec.le_def, hlow, toNat_ofNat_of_lt hx]
    exact Nat.mod_le x 8

/-- The size of the block that a pool of `bytes` becomes. -/
def poolBytes (bytes : Nat) : Nat := (bytes - 16) / 8 * 8

/-- The pool of a new heap. -/
def poolBlock (s bytes : Nat) : Block := { addr := s, size := poolBytes bytes, free := true }

theorem sized_poolBytes {bytes : Nat} (hmin : 40 ≤ bytes) (hmax : poolBytes bytes < 2 ^ 32) :
    Sized (poolBytes bytes) := by
  unfold poolBytes at *
  omega

/-- A size word of its own, whatever was there. -/
theorem exists_header (m : Mem) (hs : s % 8 = 0) {n : Nat} (hn : n % 8 = 0) (hlt : s + 8 < 2 ^ 64) :
    ∃ m', blockSetPrevUsed (blockSetFree (blockSetSize m (BitVec.ofNat 64 s) (BitVec.ofNat 64 n))
        (BitVec.ofNat 64 s)) (BitVec.ofNat 64 s) = m' ∧ word m' (s + 8) = tag n true false ∧
      ∀ y, Cell y → y ≠ s + 8 → word m' y = word m y := by
  obtain ⟨f, g, hset⟩ := exists_blockSetSize m s n
  have h1 := blockSetFree_of_tag (word_setWord_self m (s + 8) (tag n f g)) hn
  have h2 := blockSetPrevUsed_of_tag
    (word_setWord_self (setWord m (s + 8) (tag n f g)) (s + 8) (tag n true g)) hn
  rw [hset, h1, h2]
  refine ⟨_, rfl, word_setWord_self _ _ _, fun y hy hne => ?_⟩
  simp (disch := omega) only [word_setWord_of_ne]

theorem exists_sentinel (m : Mem) (he : e % 8 = 0) (hlt : e + 8 < 2 ^ 64) :
    ∃ m', blockSetPrevFree (blockSetUsed (blockSetSize m (BitVec.ofNat 64 e) (BitVec.ofNat 64 0))
        (BitVec.ofNat 64 e)) (BitVec.ofNat 64 e) = m' ∧ word m' (e + 8) = tag 0 false true ∧
      ∀ y, Cell y → y ≠ e + 8 → word m' y = word m y := by
  obtain ⟨f, g, hset⟩ := exists_blockSetSize m e 0
  have h1 := blockSetUsed_of_tag (word_setWord_self m (e + 8) (tag 0 f g)) rfl
  have h2 := blockSetPrevFree_of_tag
    (word_setWord_self (setWord m (e + 8) (tag 0 f g)) (e + 8) (tag 0 false g)) rfl
  rw [hset, h1, h2]
  refine ⟨_, rfl, word_setWord_self _ _ _, fun y hy hne => ?_⟩
  simp (disch := omega) only [word_setWord_of_ne]

/-- **A pool that is added to an empty heap is one free block.** -/
theorem addPool_sound {bytes : Nat} (hlists : FreeLists m c fun _ => []) (hc8 : c % 8 = 0) (hpos : 0 < c)
    (hs8 : s % 8 = 0) (hcs : c + 6536 ≤ s + 8) (hmin : 40 ≤ bytes) (hmax : poolBytes bytes < 2 ^ 32)
    (hfit : s + 8 + bytes ≤ 2 ^ 64) :
    ∃ m', tlsfAddPool m (BitVec.ofNat 64 c) (BitVec.ofNat 64 (s + 8)) (BitVec.ofNat 64 bytes) =
        some (BitVec.ofNat 64 (s + 8), m') ∧
      Sound m' c s (s + 8 + poolBytes bytes) [poolBlock s bytes] ∧
      ∀ y, Cell y → y < c ∨ s + 8 + bytes ≤ y → word m' y = word m y := by
  have hsized := sized_poolBytes hmin hmax
  obtain ⟨hP8, hP24, -⟩ := hsized
  have hPle : poolBytes bytes + 16 ≤ bytes := by
    unfold poolBytes
    omega
  have hdown : alignDown (BitVec.ofNat 64 bytes - 2 * blockHeaderOverhead) (BitVec.ofNat 64 alignSize) =
      some (BitVec.ofNat 64 (poolBytes bytes)) := by
    rw [show 2 * blockHeaderOverhead = BitVec.ofNat 64 16 by decide, ofNat_sub (by omega),
      alignDown_eq (by omega), poolBytes]
  have hmem : ¬(BitVec.ofNat 64 (s + 8)).srem (BitVec.ofNat 64 alignSize) ≠ 0 := by
    rw [not_not, srem_eight, toNat_ofNat_of_lt (by omega)]
    omega
  have hrange : ¬(BitVec.ofNat 64 (poolBytes bytes) < blockSizeMin ∨
      blockSizeMax < BitVec.ofNat 64 (poolBytes bytes)) := by
    rw [show blockSizeMin = BitVec.ofNat 64 24 by decide, show blockSizeMax = BitVec.ofNat 64 (2 ^ 32) by decide,
      ofNat_lt_iff (by omega) (by omega), ofNat_lt_iff (by omega) (by omega)]
    omega
  have hblock : offsetToBlock (BitVec.ofNat 64 (s + 8)) (-blockHeaderOverhead) = BitVec.ofNat 64 s := by
    rw [offsetToBlock, BitVec.ofNat_add, BitVec.add_assoc]
    exact BitVec.add_zero _
  obtain ⟨m₁, heq₁, htag₁, hkeep₁⟩ := exists_header m hs8 hP8 (by omega)
  have hsp : Spaced c fun x => x = s ∨ Filed (fun _ => []) x := by
    refine ⟨hc8, hpos, by omega, ?_, ?_, ?_, ?_⟩
    all_goals simp only [Filed, List.not_mem_nil, and_false, exists_false, or_false]
    · rintro x rfl
      exact hs8
    · rintro x rfl
      exact hcs
    · rintro x rfl
      omega
    · rintro x y rfl rfl
      exact Or.inl rfl
  have hnot : ¬Filed (fun _ => []) s := by simp [Filed]
  have hlists₁ : FreeLists m₁ c fun _ => [] := by
    refine ⟨hlists.threads.congr (hsp.mono fun x hx => Or.inr hx) (by omega) ?_,
      hlists.marks.congr hc8 (by omega) fun y hy _ _ => hkeep₁ y hy (by omega)⟩
    rintro y hy hlow (hhigh | ⟨x, ⟨n, -, hx⟩, -⟩)
    · exact hkeep₁ y hy (by omega)
    · simp at hx
  have hcls := sizeClass_lt hmax
  obtain ⟨m₂, hinsert, hlists₂, hframe₂⟩ := hlists₁.insert hcls hsp hnot
  have hkeep₂ : ∀ y, Cell y → y < c ∨ c + 6536 ≤ y → y ≠ s + 16 → y ≠ s + 24 → word m₂ y = word m₁ y := by
    intro y hy hout h16 h24
    refine hframe₂ y hy hout fun x hx => ?_
    simp only [Filed, List.not_mem_nil, and_false, exists_false, or_false] at hx
    subst hx
    exact ⟨h16, h24⟩
  have htag₂ : word m₂ (s + 8) = tag (poolBytes bytes) true false := by
    rw [hkeep₂ _ (by omega) (by omega) (by omega) (by omega), htag₁]
  have hput : blockInsert m₁ (BitVec.ofNat 64 c) (BitVec.ofNat 64 s) = some m₂ := by
    unfold blockInsert
    rw [blockSize_of_tag htag₁ hP8, mappingInsert_eq (by omega)]
    exact hinsert
  have hlink := blockLinkNext_of_tag htag₂ ⟨hP8, hP24, hmax⟩
  obtain ⟨m₃, heq₃, htag₃, hkeep₃⟩ := exists_sentinel
    (setWord m₂ (s + 8 + poolBytes bytes) (BitVec.ofNat 64 s)) (e := s + 8 + poolBytes bytes) (by omega) (by omega)
  have hword₃ : ∀ y, Cell y → y ≠ s + 8 + poolBytes bytes → y ≠ s + 8 + poolBytes bytes + 8 →
      word m₃ y = word m₂ y := by
    intro y hy h1 h2
    rw [hkeep₃ y hy h2, word_setWord_of_ne (by omega) hy h1]
  have hrow : Row m₃ s [poolBlock s bytes] (s + 8 + poolBytes bytes) := by
    refine ⟨hs8, by omega, by omega, true, ⟨⟨rfl, ⟨hP8, hP24, hmax⟩, ?_, fun _ => ?_⟩, rfl, rfl⟩, htag₃⟩
    · rw [hword₃ _ (by omega) (by omega) (by omega), htag₂]
      rfl
    · show word m₃ (s + 8 + poolBytes bytes) = _
      rw [hkeep₃ _ (by omega) (by omega), word_setWord_self]
  have hlist : ∀ n x, x ∈ Function.update (fun _ : Nat => ([] : List Nat)) (sizeClass (poolBytes bytes)) [s] n ↔
      n = sizeClass (poolBytes bytes) ∧ x = s := by
    intro n x
    rw [Function.update_apply]
    by_cases hn : n = sizeClass (poolBytes bytes) <;> simp [hn]
  have hfiled : ∀ x, Filed (Function.update (fun _ => []) (sizeClass (poolBytes bytes)) [s]) x → x = s := by
    rintro x ⟨n, -, hx⟩
    exact ((hlist n x).mp hx).2
  refine ⟨m₃, ?_, ⟨⟨hc8, hpos, hcs, hrow, _, ⟨hlists₂.threads.congr ?_ (by omega) ?_,
    hlists₂.marks.congr hc8 (by omega) fun y hy _ _ => hword₃ y hy (by omega) (by omega)⟩, ?_⟩, ?_⟩, ?_⟩
  · unfold tlsfAddPool
    simp only [hdown, if_neg hmem, if_neg hrange, hblock, heq₁, hput, hlink, Option.bind_eq_bind,
      Option.bind_some]
    exact congrArg (fun m => some (BitVec.ofNat 64 (s + 8), m)) heq₃
  · exact hsp.mono fun x hx => Or.inl (hfiled x hx)
  · rintro y hy hlow (hhigh | ⟨x, hx, hlink⟩)
    · exact hword₃ y hy (by omega) (by omega)
    · have := hfiled x hx
      exact hword₃ y hy (by omega) (by omega)
  · intro n hn x
    rw [hlist n x]
    constructor
    · rintro ⟨rfl, rfl⟩
      exact ⟨poolBlock x bytes, by simp, rfl, rfl, rfl, by simp⟩
    · rintro ⟨b, hb, -, rfl, rfl, -⟩
      rw [List.mem_singleton] at hb
      subst hb
      exact ⟨rfl, rfl⟩
  · exact List.isChain_singleton _
  · intro y hy hout
    rw [hword₃ y hy (by omega) (by omega), hkeep₂ y hy (by omega) (by omega) (by omega),
      hkeep₁ y hy (by omega)]

/-- **`tlsf_create_with_pool` makes a sound heap of whatever memory it gets**, and leaves the rest
alone. -/
theorem create_sound {bytes : Nat} (ha8 : a % 8 = 0) (hpos : 0 < a) (hmin : 6576 ≤ bytes)
    (hmax : poolBytes (bytes - 6536) < 2 ^ 32) (hfit : a + bytes ≤ 2 ^ 64) (m : Mem) :
    ∃ m', tlsfCreateWithPool m (BitVec.ofNat 64 a) (BitVec.ofNat 64 bytes) =
        some (BitVec.ofNat 64 a, m') ∧
      Sound m' a (a + 6528) (a + 6536 + poolBytes (bytes - 6536)) [poolBlock (a + 6528) (bytes - 6536)] ∧
      ∀ y, Cell y → y < a ∨ a + bytes ≤ y → word m' y = word m y := by
  have hmem : ¬(BitVec.ofNat 64 a).srem (BitVec.ofNat 64 alignSize) ≠ 0 := by
    rw [not_not, srem_eight, toNat_ofNat_of_lt (by omega)]
    exact ha8
  have hcreate : tlsfCreate m (BitVec.ofNat 64 a) =
      (BitVec.ofNat 64 a, controlConstruct m (BitVec.ofNat 64 a)) := if_neg hmem
  obtain ⟨hlists, hkeep⟩ := controlConstruct_empty ha8 (by omega) m
  obtain ⟨m', hpool, hsound, hkeep'⟩ := addPool_sound (s := a + 6528) hlists ha8 hpos
    (by omega) (by omega) (by omega) hmax (by omega)
  have hstart : BitVec.ofNat 64 a + sizeofControl = BitVec.ofNat 64 (a + 6528 + 8) := by
    rw [show a + 6528 + 8 = a + 6536 by omega, BitVec.ofNat_add]
    rfl
  have hrest : BitVec.ofNat 64 bytes - sizeofControl = BitVec.ofNat 64 (bytes - 6536) := by
    rw [show sizeofControl = BitVec.ofNat 64 6536 by decide, ofNat_sub (by omega)]
  refine ⟨m', ?_, hsound, fun y hy hout => ?_⟩
  · simp only [tlsfCreateWithPool, hcreate, hstart, hrest, hpool, Option.bind_eq_bind, Option.bind_some]
    rfl
  · rw [hkeep' y hy (by omega), hkeep y hy (by omega)]

end AncoreOS.Heap
