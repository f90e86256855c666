import AncoreOS.Heap.TlsfBlocks
import AncoreOS.Library.LinkedLists

/-!
# The free lists

The control structure at `c` keeps a list of free blocks for each of the 800 classes.  The links are
in the blocks, and the address of the control structure ends every list at both ends.  A bit of the
second level tells whether a list is empty, and a bit of the first level whether 32 bits of the
second are zero.

`FreeLists` says this of a memory.  A block goes into a list (`FreeLists.insert`) and out of it
(`FreeLists.remove`), and the search finds the first list that is not empty from a class on
(`FreeLists.search`).
-/

namespace AncoreOS.Heap

open ByteMemory WordCells LinkedLists

/-! ### Fields -/

section Fields

variable (m : Mem) (c n : Nat)

theorem flBitmap_ofNat : flBitmap m (BitVec.ofNat 64 c) = half m (c + 32) := by
  rw [flBitmap, half, BitVec.ofNat_add]
  rfl

theorem setFlBitmap_ofNat (w : BitVec 32) :
    setFlBitmap m (BitVec.ofNat 64 c) w = setHalf m (c + 32) w := by
  rw [setFlBitmap, setHalf, BitVec.ofNat_add]
  rfl

theorem slBitmap_ofNat : slBitmap m (BitVec.ofNat 64 c) n = half m (c + (36 + 4 * n)) := by
  rw [slBitmap, half, BitVec.ofNat_add c]

theorem setSlBitmap_ofNat (w : BitVec 32) :
    setSlBitmap m (BitVec.ofNat 64 c) n w = setHalf m (c + (36 + 4 * n)) w := by
  rw [setSlBitmap, setHalf, BitVec.ofNat_add c]

theorem class_index : slIndexCount * (n / 32) + n % 32 = n := Nat.div_add_mod n 32

theorem blocks_ofNat : blocks m (BitVec.ofNat 64 c) (n / 32) (n % 32) = word m (c + (136 + 8 * n)) := by
  rw [blocks, word, class_index, BitVec.ofNat_add c]

theorem setBlocks_ofNat (v : Word) :
    setBlocks m (BitVec.ofNat 64 c) (n / 32) (n % 32) v = setWord m (c + (136 + 8 * n)) v := by
  rw [setBlocks, setWord, class_index, BitVec.ofNat_add c]

end Fields

/-- The node that a link leads to. -/
def nextOf (m : Mem) (x : Nat) : Nat := (word m (x + 16)).toNat

def prevOf (m : Mem) (x : Nat) : Nat := (word m (x + 24)).toNat

/-- The heads and the links of the lists. -/
structure Threaded (m : Mem) (c : Nat) (lists : Nat → List Nat) : Prop where
  nodup : ∀ n < 800, (lists n).Nodup
  once : ∀ n < 800, ∀ k < 800, ∀ x, x ∈ lists n → x ∈ lists k → n = k
  head : ∀ n < 800, word m (c + (136 + 8 * n)) = BitVec.ofNat 64 ((lists n).headD c)
  links : ∀ n < 800, Linked (nextOf m) (prevOf m) c c (lists n)

/-- The two levels of bits. -/
structure Marked (m : Mem) (c : Nat) (lists : Nat → List Nat) : Prop where
  second : ∀ i < 25, ∀ j < 32,
    (half m (c + (36 + 4 * i))).getLsbD j = decide (lists (32 * i + j) ≠ [])
  first : ∀ i < 32, (half m (c + 32)).getLsbD i = decide (i < 25 ∧ half m (c + (36 + 4 * i)) ≠ 0)

structure FreeLists (m : Mem) (c : Nat) (lists : Nat → List Nat) : Prop where
  threads : Threaded m c lists
  marks : Marked m c lists

/-- A block is in one of the lists. -/
def Filed (lists : Nat → List Nat) (x : Nat) : Prop := ∃ n < 800, x ∈ lists n

/-- The control structure, and nodes that lie behind it and keep a distance. -/
structure Spaced (c : Nat) (node : Nat → Prop) : Prop where
  mod : c % 8 = 0
  pos : 0 < c
  fits : c + 6536 ≤ 2 ^ 64
  node_mod : ∀ x, node x → x % 8 = 0
  above : ∀ x, node x → c + 6536 ≤ x + 8
  below : ∀ x, node x → x + 32 ≤ 2 ^ 64
  apart : ∀ x y, node x → node y → x = y ∨ x + 32 ≤ y ∨ y + 32 ≤ x

theorem Spaced.mono {c : Nat} {node node' : Nat → Prop} (h : Spaced c node)
    (hsub : ∀ x, node' x → node x) : Spaced c node' where
  mod := h.mod
  pos := h.pos
  fits := h.fits
  node_mod x hx := h.node_mod x (hsub x hx)
  above x hx := h.above x (hsub x hx)
  below x hx := h.below x (hsub x hx)
  apart x y hx hy := h.apart x y (hsub x hx) (hsub y hy)

/-- One more node. -/
theorem Spaced.insert {c a : Nat} {node node' : Nat → Prop} (h : Spaced c node) (ha8 : a % 8 = 0)
    (habove : c + 6536 ≤ a + 8) (hbelow : a + 32 ≤ 2 ^ 64)
    (hapart : ∀ x, node x → x + 32 ≤ a ∨ a + 32 ≤ x) (hsub : ∀ x, node' x → node x) :
    Spaced c fun x => x = a ∨ node' x where
  mod := h.mod
  pos := h.pos
  fits := h.fits
  node_mod := by
    rintro x (rfl | hx)
    · exact ha8
    · exact h.node_mod x (hsub x hx)
  above := by
    rintro x (rfl | hx)
    · exact habove
    · exact h.above x (hsub x hx)
  below := by
    rintro x (rfl | hx)
    · exact hbelow
    · exact h.below x (hsub x hx)
  apart := by
    rintro x y (rfl | hx) (rfl | hy)
    · exact Or.inl rfl
    · exact Or.inr (hapart y (hsub y hy)).symm
    · exact Or.inr (hapart x (hsub x hx))
    · exact h.apart x y (hsub x hx) (hsub y hy)

/-- A node, or the end of a list, is apart from every node. -/
theorem Spaced.near {c x : Nat} {node : Nat → Prop} (h : Spaced c node) (hx : x = c ∨ node x) :
    x % 8 = 0 ∧ x + 32 ≤ 2 ^ 64 ∧ (x = c ∨ c + 6536 ≤ x + 8) ∧ 0 < x ∧
      ∀ y, node y → y = x ∨ y + 32 ≤ x ∨ x + 32 ≤ y := by
  have hfits := h.fits
  rcases hx with rfl | hx
  · refine ⟨h.mod, by omega, Or.inl rfl, h.pos, fun y hy => ?_⟩
    have := h.above y hy
    omega
  · have := h.above x hx
    exact ⟨h.node_mod x hx, h.below x hx, Or.inr this, by omega, fun y hy => h.apart y x hy hx⟩

/-! ### Two levels of bits -/

theorem one_shiftLeft_getLsbD {n : Nat} (hn : n < 32) (i : Nat) :
    (1#32 <<< n).getLsbD i = decide (i = n) := by
  rw [← BitVec.twoPow_eq, BitVec.getLsbD_twoPow]
  simp [hn, eq_comm]

theorem allOnes_shiftLeft_getLsbD (n i : Nat) :
    (BitVec.allOnes 32 <<< n).getLsbD i = decide (n ≤ i ∧ i < 32) := by
  rw [BitVec.getLsbD_shiftLeft, BitVec.getLsbD_allOnes]
  by_cases hi : i < 32 <;> by_cases hn : i < n <;> simp [hi, hn]
  omega

theorem ne_zero_of_getLsbD {w : BitVec 32} {i : Nat} (h : w.getLsbD i = true) : w ≠ 0 := by
  rintro rfl
  simp at h

/-- The least bit from `n` on. -/
theorem ffs_and_mask {w : BitVec 32} {n : Nat} (h : w &&& (BitVec.allOnes 32 <<< n) ≠ 0) :
    ∃ i : Nat, i < 32 ∧ n ≤ i ∧ (tlsfFfs (w &&& (BitVec.allOnes 32 <<< n))).toNat = i ∧
      w.getLsbD i = true ∧ ∀ j, n ≤ j → j < i → w.getLsbD j = false := by
  obtain ⟨i, hi, heq, hbit, hbefore⟩ := tlsfFfs_eq h
  simp only [BitVec.getLsbD_and, allOnes_shiftLeft_getLsbD, Bool.and_eq_true, decide_eq_true_eq] at hbit
  refine ⟨i, hi, hbit.2.1, heq, hbit.1, fun j hj hji => ?_⟩
  have := hbefore j hji
  simp only [BitVec.getLsbD_and, allOnes_shiftLeft_getLsbD] at this
  have hmask : decide (n ≤ j ∧ j < 32) = true := decide_eq_true ⟨hj, by omega⟩
  rwa [hmask, Bool.and_true] at this

theorem and_mask_eq_zero {w : BitVec 32} {n : Nat} (h : w &&& (BitVec.allOnes 32 <<< n) = 0) (j : Nat)
    (hj : n ≤ j) : w.getLsbD j = false := by
  have := congrArg (BitVec.getLsbD · j) h
  simp only [BitVec.getLsbD_and, allOnes_shiftLeft_getLsbD] at this
  by_cases hlt : j < 32
  · have hmask : decide (n ≤ j ∧ j < 32) = true := decide_eq_true ⟨hj, hlt⟩
    rw [hmask, Bool.and_true] at this
    simpa using this
  · exact BitVec.getLsbD_of_ge _ _ (by omega)

variable {m m' : Mem} {c n a : Nat} {lists : Nat → List Nat} {l s t : List Nat}

/-- **The search finds the first list from a class on that is not empty.** -/
theorem FreeLists.search (h : FreeLists m c lists) (hn : n < 800) :
    (∃ i j, searchSuitableBlock m (BitVec.ofNat 64 c) (n / 32) (n % 32) = some (0, i, j) ∧
      ∀ k, n ≤ k → k < 800 → lists k = []) ∨
    ∃ k, n ≤ k ∧ k < 800 ∧ lists k ≠ [] ∧ (∀ j, n ≤ j → j < k → lists j = []) ∧
      searchSuitableBlock m (BitVec.ofNat 64 c) (n / 32) (n % 32) =
        some (BitVec.ofNat 64 ((lists k).headD c), k / 32, k % 32) := by
  have hempty : ∀ i < 25, ∀ j < 32, (half m (c + (36 + 4 * i))).getLsbD j = false →
      lists (32 * i + j) = [] := by
    intro i hi j hj hbit
    rw [h.marks.second i hi j hj] at hbit
    simpa using hbit
  have hsame : ∀ k, n / 32 = k / 32 → lists (32 * (n / 32) + k % 32) = lists k := by
    intro k hk
    rw [hk, Nat.div_add_mod]
  unfold searchSuitableBlock
  simp only [slBitmap_ofNat, flBitmap_ofNat]
  by_cases hlow : half m (c + (36 + 4 * (n / 32))) &&& (BitVec.allOnes 32 <<< (n % 32)) = 0
  · have hrow : ∀ k, n ≤ k → n / 32 = k / 32 → lists k = [] := by
      intro k hk hdiv
      rw [← hsame k hdiv]
      exact hempty _ (by omega) _ (by omega) (and_mask_eq_zero hlow _ (by omega))
    rw [if_pos hlow]
    by_cases hhigh : half m (c + 32) &&& (BitVec.allOnes 32 <<< (n / 32 + 1)) = 0
    · left
      rw [if_pos hhigh]
      refine ⟨_, _, rfl, fun k hk hk' => ?_⟩
      by_cases hdiv : n / 32 = k / 32
      · exact hrow k hk hdiv
      · have hbit := and_mask_eq_zero hhigh (k / 32) (by omega)
        rw [h.marks.first _ (by omega)] at hbit
        have hzero : half m (c + (36 + 4 * (k / 32))) = 0 := by
          have := of_decide_eq_false hbit
          simp only [not_and, not_not] at this
          exact this (by omega)
        rw [← Nat.div_add_mod k 32]
        exact hempty _ (by omega) _ (by omega) (by rw [hzero]; simp)
    · right
      rw [if_neg hhigh]
      obtain ⟨i, hi, hni, heq, hbit, hbefore⟩ := ffs_and_mask hhigh
      rw [h.marks.first i hi] at hbit
      obtain ⟨hi25, hne⟩ := of_decide_eq_true hbit
      obtain ⟨j, hj, hjeq, hjbit, hjbefore⟩ := tlsfFfs_eq hne
      rw [h.marks.second i hi25 j hj] at hjbit
      refine ⟨32 * i + j, by omega, by omega, of_decide_eq_true hjbit, fun k hk hki => ?_, ?_⟩
      · by_cases hdiv : n / 32 = k / 32
        · exact hrow k hk hdiv
        · rw [← Nat.div_add_mod k 32]
          by_cases hki' : k / 32 = i
          · rw [hki']
            exact hempty i hi25 _ (by omega) (hjbefore _ (by omega))
          · have hkbit := hbefore (k / 32) (by omega) (by omega)
            rw [h.marks.first _ (by omega)] at hkbit
            have hzero : half m (c + (36 + 4 * (k / 32))) = 0 := by
              have := of_decide_eq_false hkbit
              simp only [not_and, not_not] at this
              exact this (by omega)
            exact hempty _ (by omega) _ (by omega) (by rw [hzero]; simp)
      · have hdiv : (32 * i + j) / 32 = i := by omega
        have hmod : (32 * i + j) % 32 = j := by omega
        rw [hdiv, hmod]
        simp only [heq, tlsfAssert, if_pos hne, Option.bind_eq_bind, Option.bind_some, hjeq]
        rw [← h.threads.head (32 * i + j) (by omega), ← blocks_ofNat, hdiv, hmod]
        rfl
  · right
    rw [if_neg hlow]
    obtain ⟨j, hj, hnj, heq, hbit, hbefore⟩ := ffs_and_mask hlow
    rw [h.marks.second _ (by omega) j hj] at hbit
    refine ⟨32 * (n / 32) + j, by omega, by omega, of_decide_eq_true hbit, fun k hk hki => ?_, ?_⟩
    · have hdiv : n / 32 = k / 32 := by omega
      rw [← hsame k hdiv]
      exact hempty _ (by omega) _ (by omega) (hbefore _ (by omega) (by omega))
    · have hdiv : (32 * (n / 32) + j) / 32 = n / 32 := by omega
      have hmod : (32 * (n / 32) + j) % 32 = j := by omega
      rw [hdiv, hmod]
      simp only [heq, tlsfAssert, if_pos hlow, Option.bind_eq_bind, Option.bind_some]
      rw [← h.threads.head (32 * (n / 32) + j) (by omega), ← blocks_ofNat, hdiv, hmod]
      rfl

/-! ### What the lists depend on -/

theorem Threaded.congr (h : Threaded m c lists) (hc : Spaced c (Filed lists)) (hlt : c + 6536 ≤ 2 ^ 64)
    (hkeep : ∀ y, Cell y → c + 136 ≤ y → y < c + 6536 ∨ (∃ x, Filed lists x ∧ (y = x + 16 ∨ y = x + 24)) →
      word m' y = word m y) : Threaded m' c lists := by
  have hc8 := hc.mod
  refine ⟨h.nodup, h.once, fun n hn => ?_, fun n hn => ?_⟩
  · rw [hkeep _ (by omega) (by omega) (Or.inl (by omega)), h.head n hn]
  · refine (h.links n hn).congr (fun x hx => ?_) fun x hx => ?_
    · have h8 := hc.node_mod x ⟨n, hn, hx⟩
      have habove := hc.above x ⟨n, hn, hx⟩
      have hbelow := hc.below x ⟨n, hn, hx⟩
      rw [nextOf, nextOf, hkeep _ (by omega) (by omega) (Or.inr ⟨x, ⟨n, hn, hx⟩, Or.inl rfl⟩)]
    · have h8 := hc.node_mod x ⟨n, hn, hx⟩
      have habove := hc.above x ⟨n, hn, hx⟩
      have hbelow := hc.below x ⟨n, hn, hx⟩
      rw [prevOf, prevOf, hkeep _ (by omega) (by omega) (Or.inr ⟨x, ⟨n, hn, hx⟩, Or.inr rfl⟩)]

theorem Marked.congr (h : Marked m c lists) (hc : c % 8 = 0) (hlt : c + 6536 ≤ 2 ^ 64)
    (hkeep : ∀ y, Cell y → c + 32 ≤ y → y < c + 136 → word m' y = word m y) : Marked m' c lists := by
  have hhalf : ∀ z, HalfCell z → c + 32 ≤ z → z < c + 136 → half m' z = half m z :=
    fun z hz hlow hhigh => half_congr hz (hkeep _ (by omega) (by omega) (by omega))
  refine ⟨fun i hi j hj => ?_, fun i hi => ?_⟩
  · rw [hhalf _ (by omega) (by omega) (by omega), h.second i hi j hj]
  · rw [hhalf _ (by omega) (by omega) (by omega), h.first i hi]
    by_cases hi25 : i < 25
    · rw [hhalf _ (by omega) (by omega) (by omega)]
    · simp [hi25]

theorem FreeLists.congr (h : FreeLists m c lists) (hsp : Spaced c (Filed lists))
    (hlow : ∀ y, Cell y → y < c + 6536 → word m' y = word m y)
    (hlinks : ∀ x, Filed lists x → ∀ y, Cell y → y = x + 16 ∨ y = x + 24 → word m' y = word m y) :
    FreeLists m' c lists := by
  have hfits := hsp.fits
  refine ⟨h.threads.congr hsp hfits ?_, h.marks.congr hsp.mod hfits ?_⟩
  · rintro y hy - (hlt | ⟨x, hx, hxy⟩)
    · exact hlow y hy hlt
    · exact hlinks x hx y hy hxy
  · exact fun y hy _ hlt => hlow y hy (by omega)

/-! ### Into a list -/

/-- What lies outside of the control structure is kept, except for the links of nodes. -/
def ListFrame (c : Nat) (node : Nat → Prop) (m m' : Mem) : Prop :=
  ∀ y, Cell y → y < c ∨ c + 6536 ≤ y → (∀ x, node x → y ≠ x + 16 ∧ y ≠ x + 24) → word m' y = word m y

theorem headD_cases (l : List Nat) (c : Nat) : l.headD c = c ∧ l = [] ∨ l.headD c ∈ l := by
  cases l <;> simp

theorem ofNat_eq_iff {i j : Nat} (hi : i < 2 ^ 64) (hj : j < 2 ^ 64) :
    BitVec.ofNat 64 i = BitVec.ofNat 64 j ↔ i = j := by
  constructor
  · intro h
    have := congrArg BitVec.toNat h
    rwa [toNat_ofNat_of_lt hi, toNat_ofNat_of_lt hj] at this
  · rintro rfl
    rfl

/-- The two bits that say that a list is not empty. -/
def fileBits (m : Mem) (c n : Nat) : Mem :=
  let m := setHalf m (c + 32) (half m (c + 32) ||| 1#32 <<< (n / 32))
  setHalf m (c + (36 + 4 * (n / 32))) (half m (c + (36 + 4 * (n / 32))) ||| 1#32 <<< (n % 32))

theorem word_fileBits (hc : c % 8 = 0) (hlt : c + 6536 ≤ 2 ^ 64) (hn : n < 800) {y : Nat} (hy : Cell y)
    (hout : y < c + 32 ∨ c + 136 ≤ y) : word (fileBits m c n) y = word m y := by
  unfold fileBits
  simp (disch := omega) only [word_setHalf_of_ne]

theorem half_fileBits_first (hc : c % 8 = 0) (hlt : c + 6536 ≤ 2 ^ 64) (hn : n < 800) :
    half (fileBits m c n) (c + 32) = half m (c + 32) ||| 1#32 <<< (n / 32) := by
  unfold fileBits
  simp (disch := omega) only [half_setHalf_of_ne, half_setHalf_self]

theorem half_fileBits_second (hc : c % 8 = 0) (hlt : c + 6536 ≤ 2 ^ 64) (hn : n < 800) {i : Nat}
    (hi : i < 25) : half (fileBits m c n) (c + (36 + 4 * i)) =
      if i = n / 32 then half m (c + (36 + 4 * i)) ||| 1#32 <<< (n % 32)
      else half m (c + (36 + 4 * i)) := by
  unfold fileBits
  by_cases hin : i = n / 32
  · subst hin
    rw [if_pos rfl]
    simp (disch := omega) only [half_setHalf_of_ne, half_setHalf_self]
  · rw [if_neg hin]
    simp (disch := omega) only [half_setHalf_of_ne]

theorem Marked.file (h : Marked m c lists) (hc : c % 8 = 0) (hlt : c + 6536 ≤ 2 ^ 64) (hn : n < 800) :
    Marked (fileBits m c n) c (Function.update lists n (a :: lists n)) := by
  refine ⟨fun i hi j hj => ?_, fun i hi => ?_⟩
  · rw [half_fileBits_second hc hlt hn hi]
    by_cases hin : i = n / 32
    · subst hin
      rw [if_pos rfl, BitVec.getLsbD_or, h.second _ hi j hj, one_shiftLeft_getLsbD (by omega)]
      by_cases hjn : j = n % 32
      · subst hjn
        rw [Nat.div_add_mod, Function.update_self]
        simp
      · rw [Function.update_of_ne (by omega)]
        simp [hjn]
    · rw [if_neg hin, h.second i hi j hj, Function.update_of_ne (by omega)]
  · rw [half_fileBits_first hc hlt hn, BitVec.getLsbD_or, h.first i hi,
      one_shiftLeft_getLsbD (by omega)]
    by_cases hin : i = n / 32
    · subst hin
      have hne : half (fileBits m c n) (c + (36 + 4 * (n / 32))) ≠ 0 := by
        rw [half_fileBits_second hc hlt hn (by omega), if_pos rfl]
        refine ne_zero_of_getLsbD (i := n % 32) ?_
        rw [BitVec.getLsbD_or, one_shiftLeft_getLsbD (by omega)]
        simp
      simpa [show n / 32 < 25 by omega] using hne
    · by_cases hi25 : i < 25
      · rw [half_fileBits_second hc hlt hn hi25, if_neg hin]
        simp [hin]
      · simp [hin, hi25]

/-- The heads and the links after a node was put in front of a list. -/
theorem Threaded.link (h : Threaded m c lists) (hn : n < 800)
    (hsp : Spaced c fun x => x = a ∨ Filed lists x) (ha : ¬Filed lists a)
    (hword : ∀ y, Cell y → y < c + 32 ∨ c + 136 ≤ y → word m' y =
      if y = c + (136 + 8 * n) then BitVec.ofNat 64 a
      else if y = (lists n).headD c + 24 then BitVec.ofNat 64 a
      else if y = a + 24 then BitVec.ofNat 64 c
      else if y = a + 16 then BitVec.ofNat 64 ((lists n).headD c) else word m y) :
    Threaded m' c (Function.update lists n (a :: lists n)) := by
  have hc8 := hsp.mod
  have hfits := hsp.fits
  have hheadD : (lists n).headD c = c ∨ (lists n).headD c ∈ lists n := by
    rcases headD_cases (lists n) c with ⟨hnull, -⟩ | hmem
    · exact Or.inl hnull
    · exact Or.inr hmem
  generalize hh : (lists n).headD c = h0 at hword hheadD
  obtain ⟨ha8, halt, hac, -, hapart⟩ := hsp.near (Or.inr (Or.inl rfl))
  obtain ⟨hh8, hhlt, hhc, -, hhapart⟩ := hsp.near (x := h0) (by
    rcases hheadD with rfl | hmem
    · exact Or.inl rfl
    · exact Or.inr (Or.inr ⟨n, hn, hmem⟩))
  have hac' := hsp.above a (Or.inl rfl)
  have hne : ∀ k < 800, ∀ x ∈ lists k, x ≠ a := by
    rintro k hk x hx rfl
    exact ha ⟨k, hk, hx⟩
  have hnode : ∀ x, Filed lists x → x % 8 = 0 ∧ c + 6536 ≤ x + 8 ∧ x + 32 ≤ 2 ^ 64 ∧
      (x + 32 ≤ a ∨ a + 32 ≤ x) ∧ (x = h0 ∨ x + 32 ≤ h0 ∨ h0 + 32 ≤ x) := by
    rintro x ⟨k, hk, hx⟩
    have hxf : x = a ∨ Filed lists x := Or.inr ⟨k, hk, hx⟩
    refine ⟨hsp.node_mod x hxf, hsp.above x hxf, hsp.below x hxf, ?_, hhapart x hxf⟩
    exact (hapart x hxf).resolve_left (hne k hk x hx)
  have hah : h0 + 32 ≤ a ∨ a + 32 ≤ h0 := by
    rcases hheadD with rfl | hmem
    · omega
    · exact (hnode h0 ⟨n, hn, hmem⟩).2.2.2.1
  have hnext : ∀ x, Filed lists x → nextOf m' x = nextOf m x := by
    intro x hx
    obtain ⟨hx8, hxc, hxlt, hxa, hxh⟩ := hnode x hx
    simp only [nextOf]
    rw [hword _ (by omega) (by omega)]
    simp (disch := omega) only [if_neg]
  have hprev : ∀ x, Filed lists x → prevOf m' x = if x = h0 then a else prevOf m x := by
    intro x hx
    obtain ⟨hx8, hxc, hxlt, hxa, hxh⟩ := hnode x hx
    simp only [prevOf]
    rw [hword _ (by omega) (by omega)]
    by_cases hx0 : x = h0
    · simp (disch := omega) only [if_neg, if_pos, toNat_ofNat_of_lt]
    · simp (disch := omega) only [if_neg]
  refine ⟨fun k hk => ?_, fun i hi k hk x hxi hxk => ?_, fun k hk => ?_, fun k hk => ?_⟩
  · by_cases hkn : k = n
    · subst hkn
      rw [Function.update_self, List.nodup_cons]
      exact ⟨fun hmem => hne k hk a hmem rfl, h.nodup k hk⟩
    · rw [Function.update_of_ne hkn]
      exact h.nodup k hk
  · simp only [Function.update_apply] at hxi hxk
    grind [h.once]
  · rw [hword _ (by omega) (by omega)]
    by_cases hkn : k = n
    · subst hkn
      simp
    · rw [if_neg (by omega), if_neg (by omega), if_neg (by omega), if_neg (by omega),
        Function.update_of_ne hkn, h.head k hk]
  · by_cases hkn : k = n
    · subst hkn
      rw [Function.update_self]
      refine (h.links k hk).push (fun hmem => hne k hk a hmem rfl) (h.nodup k hk) ?_ ?_
        (fun y hy => hnext y ⟨k, hk, hy⟩) fun y hy => by rw [hh, hprev y ⟨k, hk, hy⟩]
      · simp only [nextOf]
        rw [hword _ (by omega) (by omega), hh]
        simp (disch := omega) only [if_neg, if_true, toNat_ofNat_of_lt]
      · simp only [prevOf]
        rw [hword _ (by omega) (by omega)]
        simp (disch := omega) only [if_neg, if_true, toNat_ofNat_of_lt]
    · rw [Function.update_of_ne hkn]
      refine (h.links k hk).congr (fun y hy => hnext y ⟨k, hk, hy⟩) fun y hy => ?_
      rw [hprev y ⟨k, hk, hy⟩, if_neg]
      rintro rfl
      rcases hheadD with hnull | hmem
      · have := (hnode _ ⟨k, hk, hy⟩).2.1
        omega
      · exact hkn (h.once k hk n hn _ hy hmem)

theorem FreeLists.insert (h : FreeLists m c lists) (hn : n < 800)
    (hsp : Spaced c fun x => x = a ∨ Filed lists x) (ha : ¬Filed lists a) :
    ∃ m', insertFreeBlock m (BitVec.ofNat 64 c) (BitVec.ofNat 64 a) (n / 32) (n % 32) = some m' ∧
      FreeLists m' c (Function.update lists n (a :: lists n)) ∧
      ListFrame c (fun x => x = a ∨ Filed lists x) m m' := by
  have hc8 := hsp.mod
  have hfits := hsp.fits
  have hhf : (lists n).headD c = c ∨ Filed lists ((lists n).headD c) := by
    rcases headD_cases (lists n) c with ⟨hnull, -⟩ | hmem
    · exact Or.inl hnull
    · exact Or.inr ⟨n, hn, hmem⟩
  obtain ⟨ha8, halt, -, hapos, -⟩ := hsp.near (Or.inr (Or.inl rfl))
  have hac := hsp.above a (Or.inl rfl)
  obtain ⟨hh8, hhlt, hhc, hhpos, -⟩ := hsp.near (hhf.imp_right Or.inr)
  generalize hm₄ : setWord (setWord (setWord (setWord m (a + 16) (BitVec.ofNat 64 ((lists n).headD c)))
    (a + 24) (BitVec.ofNat 64 c)) ((lists n).headD c + 24) (BitVec.ofNat 64 a)) (c + (136 + 8 * n))
    (BitVec.ofNat 64 a) = m₄
  have hword : ∀ y, Cell y → word m₄ y =
      if y = c + (136 + 8 * n) then BitVec.ofNat 64 a
      else if y = (lists n).headD c + 24 then BitVec.ofNat 64 a
      else if y = a + 24 then BitVec.ofNat 64 c
      else if y = a + 16 then BitVec.ofNat 64 ((lists n).headD c) else word m y := by
    intro y hy
    rw [← hm₄]
    simp (disch := omega) only [word_setWord]
  have hout : ∀ y, Cell y → y < c + 32 ∨ c + 136 ≤ y → word (fileBits m₄ c n) y = word m₄ y :=
    fun y hy hout => word_fileBits hc8 (by omega) hn hy hout
  have hmarks : Marked m₄ c lists := h.marks.congr hc8 (by omega) fun y hy hlow hhigh => by
    rw [hword y hy]
    simp (disch := omega) only [if_neg]
  have hthreads := h.threads.link hn hsp ha fun y hy hfar => (hout y hy hfar).trans (hword y hy)
  refine ⟨fileBits m₄ c n, ?_, ⟨hthreads, hmarks.file hc8 (by omega) hn⟩, fun y hy hfar hlinks => ?_⟩
  · have h1 : BitVec.ofNat 64 ((lists n).headD c) ≠ 0 := ofNat_ne_zero (by omega) (by omega)
    have h2 : BitVec.ofNat 64 a ≠ 0 := ofNat_ne_zero (by omega) (by omega)
    have halign := alignPtr_of_mod (x := a + 16) (by omega) (by omega)
    unfold insertFreeBlock
    simp only [blocks_ofNat, h.threads.head n hn, tlsfAssert, if_pos h1, if_pos h2, blockNull,
      setNextFree_ofNat, setPrevFree_ofNat, blockToPtr_ofNat, halign, setBlocks_ofNat, hm₄,
      setFlBitmap_ofNat, flBitmap_ofNat, setSlBitmap_ofNat, slBitmap_ofNat, Option.bind_eq_bind,
      Option.bind_some, if_true]
    rfl
  · have hya := hlinks a (Or.inl rfl)
    have hyh : y ≠ (lists n).headD c + 24 := by
      rcases hhf with hnull | hf
      · omega
      · exact (hlinks _ (Or.inr hf)).2
    rw [hout y hy (by omega), hword y hy]
    simp (disch := omega) only [if_neg]

/-! ### Out of a list -/

theorem getLastD_cases (l : List Nat) (c : Nat) : l.getLastD c = c ∧ l = [] ∨ l.getLastD c ∈ l := by
  cases l with
  | nil => exact Or.inl ⟨rfl, rfl⟩
  | cons x l =>
    right
    rw [List.getLastD_cons]
    exact List.getLastD_mem_cons

/-- The bits of a list that became empty. -/
def unfileBits (m : Mem) (c n : Nat) : Mem :=
  let m := setHalf m (c + (36 + 4 * (n / 32)))
    (half m (c + (36 + 4 * (n / 32))) &&& ~~~(1#32 <<< (n % 32)))
  if half m (c + (36 + 4 * (n / 32))) = 0 then
    setHalf m (c + 32) (half m (c + 32) &&& ~~~(1#32 <<< (n / 32)))
  else
    m

theorem word_unfileBits (hc : c % 8 = 0) (hlt : c + 6536 ≤ 2 ^ 64) (hn : n < 800) {y : Nat} (hy : Cell y)
    (hout : y < c + 32 ∨ c + 136 ≤ y) : word (unfileBits m c n) y = word m y := by
  unfold unfileBits
  dsimp only
  split <;> simp (disch := omega) only [word_setHalf_of_ne]

theorem half_unfileBits_second (hc : c % 8 = 0) (hlt : c + 6536 ≤ 2 ^ 64) (hn : n < 800) {i : Nat}
    (hi : i < 25) : half (unfileBits m c n) (c + (36 + 4 * i)) =
      if i = n / 32 then half m (c + (36 + 4 * i)) &&& ~~~(1#32 <<< (n % 32))
      else half m (c + (36 + 4 * i)) := by
  have hset : half (setHalf m (c + (36 + 4 * (n / 32)))
      (half m (c + (36 + 4 * (n / 32))) &&& ~~~(1#32 <<< (n % 32)))) (c + (36 + 4 * i)) =
      if i = n / 32 then half m (c + (36 + 4 * i)) &&& ~~~(1#32 <<< (n % 32))
      else half m (c + (36 + 4 * i)) := by
    by_cases hin : i = n / 32
    · subst hin
      rw [if_pos rfl, half_setHalf_self]
    · rw [if_neg hin, half_setHalf_of_ne (by omega) (by omega) (by omega)]
  unfold unfileBits
  dsimp only
  split
  · rw [half_setHalf_of_ne (by omega) (by omega) (by omega), hset]
  · exact hset

theorem half_unfileBits_first (hc : c % 8 = 0) (hlt : c + 6536 ≤ 2 ^ 64) (hn : n < 800) :
    half (unfileBits m c n) (c + 32) =
      if half (unfileBits m c n) (c + (36 + 4 * (n / 32))) = 0
      then half m (c + 32) &&& ~~~(1#32 <<< (n / 32)) else half m (c + 32) := by
  rw [half_unfileBits_second hc hlt hn (by omega), if_pos rfl]
  unfold unfileBits
  dsimp only
  rw [half_setHalf_self]
  split
  · rw [half_setHalf_self, half_setHalf_of_ne (by omega) (by omega) (by omega)]
  · rw [half_setHalf_of_ne (by omega) (by omega) (by omega)]

theorem Marked.unfile (h : Marked m c lists) (hc : c % 8 = 0) (hlt : c + 6536 ≤ 2 ^ 64) (hn : n < 800) :
    Marked (unfileBits m c n) c (Function.update lists n []) := by
  refine ⟨fun i hi j hj => ?_, fun i hi => ?_⟩
  · rw [half_unfileBits_second hc hlt hn hi]
    by_cases hin : i = n / 32
    · subst hin
      rw [if_pos rfl, BitVec.getLsbD_and, BitVec.getLsbD_not, h.second _ hi j hj,
        one_shiftLeft_getLsbD (by omega)]
      by_cases hjn : j = n % 32
      · subst hjn
        rw [Nat.div_add_mod, Function.update_self]
        simp
      · rw [Function.update_of_ne (by omega)]
        simp [hjn, hj]
    · rw [if_neg hin, h.second i hi j hj, Function.update_of_ne (by omega)]
  · rw [half_unfileBits_first hc hlt hn]
    by_cases hin : i = n / 32
    · subst hin
      split
      · rename_i hzero
        simp [hzero, one_shiftLeft_getLsbD (show n / 32 < 32 by omega)]
      · rename_i hne
        have hold : half m (c + (36 + 4 * (n / 32))) ≠ 0 := by
          rintro hzero
          apply hne
          rw [half_unfileBits_second hc hlt hn (by omega), if_pos rfl, hzero]
          simp
        rw [h.first _ hi]
        simp only [hne, hold, ne_eq, not_false_eq_true]
    · have hrest : (if half (unfileBits m c n) (c + (36 + 4 * (n / 32))) = 0 then
          half m (c + 32) &&& ~~~(1#32 <<< (n / 32)) else half m (c + 32)).getLsbD i =
          (half m (c + 32)).getLsbD i := by
        split
        · rw [BitVec.getLsbD_and, BitVec.getLsbD_not, one_shiftLeft_getLsbD (by omega)]
          simp [hin, hi]
        · rfl
      rw [hrest, h.first i hi]
      by_cases hi25 : i < 25
      · rw [half_unfileBits_second hc hlt hn hi25, if_neg hin]
      · simp [hi25]

/-- The heads and the links after a node was taken out of a list. -/
theorem Threaded.unlink (h : Threaded m c lists) (hn : n < 800) (hsp : Spaced c (Filed lists))
    (hsplit : lists n = s ++ a :: t)
    (hword : ∀ y, Cell y → y < c + 32 ∨ c + 136 ≤ y → word m' y =
      if s = [] ∧ y = c + (136 + 8 * n) then BitVec.ofNat 64 (t.headD c)
      else if y = s.getLastD c + 16 then BitVec.ofNat 64 (t.headD c)
      else if y = t.headD c + 24 then BitVec.ofNat 64 (s.getLastD c) else word m y) :
    Threaded m' c (Function.update lists n (s ++ t)) := by
  have hc8 := hsp.mod
  have hfits := hsp.fits
  have hlinks := h.links n hn
  have hnodup := h.nodup n hn
  rw [hsplit] at hlinks hnodup
  have hnext := hlinks.next_eq
  have hprev := hlinks.prev_eq
  have hsub : ∀ y ∈ s ++ t, y ∈ lists n := by
    intro y hy
    rw [hsplit]
    rcases List.mem_append.mp hy with hy | hy
    · exact List.mem_append_left _ hy
    · exact List.mem_append_right _ (List.mem_cons_of_mem a hy)
  have hpc : s.getLastD c = c ∨ s.getLastD c ∈ lists n := by
    rcases getLastD_cases s c with ⟨hnull, -⟩ | hmem
    · exact Or.inl hnull
    · exact Or.inr (hsub _ (List.mem_append_left _ hmem))
  have hqc : t.headD c = c ∨ t.headD c ∈ lists n := by
    rcases headD_cases t c with ⟨hnull, -⟩ | hmem
    · exact Or.inl hnull
    · exact Or.inr (hsub _ (List.mem_append_right _ hmem))
  have hheads : ∀ k < 800, word m' (c + (136 + 8 * k)) =
      BitVec.ofNat 64 ((Function.update lists n (s ++ t) k).headD c) := by
    intro k hk
    obtain ⟨hp8, -, hpcc, -, -⟩ := hsp.near (x := s.getLastD c) (hpc.imp_right fun hm => ⟨n, hn, hm⟩)
    obtain ⟨hq8, -, hqcc, -, -⟩ := hsp.near (x := t.headD c) (hqc.imp_right fun hm => ⟨n, hn, hm⟩)
    rw [hword _ (by omega) (by omega)]
    by_cases hkn : k = n
    · subst hkn
      rw [Function.update_self]
      cases s with
      | nil => exact if_pos ⟨rfl, rfl⟩
      | cons z s =>
        rw [if_neg (by simp), if_neg (by omega), if_neg (by omega), h.head k hk, hsplit]
        rfl
    · rw [if_neg (by omega), if_neg (by omega), if_neg (by omega), Function.update_of_ne hkn,
        h.head k hk]
  have hnext' : ∀ x, Filed lists x → nextOf m' x = if x = s.getLastD c then t.headD c else nextOf m x := by
    intro x hx
    obtain ⟨hp8, hplt, hpcc, -, hpapart⟩ := hsp.near (hpc.imp_right fun hm => ⟨n, hn, hm⟩)
    obtain ⟨hq8, hqlt, hqcc, -, hqapart⟩ := hsp.near (hqc.imp_right fun hm => ⟨n, hn, hm⟩)
    obtain ⟨hx8, hxlt, -, -, -⟩ := hsp.near (Or.inr hx)
    have hxc := hsp.above x hx
    have hxp := hpapart x hx
    have hxq := hqapart x hx
    simp only [nextOf]
    rw [hword _ (by omega) (by omega)]
    by_cases hxeq : x = s.getLastD c
    · simp (disch := omega) only [if_neg, if_pos, toNat_ofNat_of_lt]
    · simp (disch := omega) only [if_neg]
  have hprev' : ∀ x, Filed lists x → prevOf m' x = if x = t.headD c then s.getLastD c else prevOf m x := by
    intro x hx
    obtain ⟨hp8, hplt, hpcc, -, hpapart⟩ := hsp.near (hpc.imp_right fun hm => ⟨n, hn, hm⟩)
    obtain ⟨hq8, hqlt, hqcc, -, hqapart⟩ := hsp.near (hqc.imp_right fun hm => ⟨n, hn, hm⟩)
    obtain ⟨hx8, hxlt, -, -, -⟩ := hsp.near (Or.inr hx)
    have hxc := hsp.above x hx
    have hxp := hpapart x hx
    have hxq := hqapart x hx
    simp only [prevOf]
    rw [hword _ (by omega) (by omega)]
    by_cases hxeq : x = t.headD c
    · simp (disch := omega) only [if_neg, if_pos, toNat_ofNat_of_lt]
    · simp (disch := omega) only [if_neg]
  clear hword
  have hother : ∀ k < 800, k ≠ n → ∀ y ∈ lists k, ∀ z, z = c ∨ z ∈ lists n → y ≠ z := by
    rintro k hk hkn y hy z (rfl | hz) rfl
    · have := hsp.above y ⟨k, hk, hy⟩
      omega
    · exact hkn (h.once k hk n hn y hy hz)
  refine ⟨fun k hk => ?_, fun i hi k hk x hxi hxk => ?_, hheads, fun k hk => ?_⟩
  · by_cases hkn : k = n
    · subst hkn
      rw [Function.update_self]
      exact hnodup.sublist (by simp)
    · rw [Function.update_of_ne hkn]
      exact h.nodup k hk
  · have hback : ∀ j, x ∈ Function.update lists n (s ++ t) j → x ∈ lists j := by
      intro j hx
      by_cases hjn : j = n
      · subst hjn
        rw [Function.update_self] at hx
        exact hsub x hx
      · rwa [Function.update_of_ne hjn] at hx
    exact h.once i hi k hk x (hback i hxi) (hback k hxk)
  · by_cases hkn : k = n
    · subst hkn
      rw [Function.update_self]
      have hcmem : c ∉ s ++ a :: t := fun hmem => by
        have := hsp.above c ⟨k, hk, hsplit ▸ hmem⟩
        omega
      refine hlinks.remove hnodup hcmem hcmem (fun y hy => ?_) fun y hy => ?_
      · rw [hnext' y ⟨k, hk, hsub y hy⟩, hprev, hnext]
      · rw [hprev' y ⟨k, hk, hsub y hy⟩, hprev, hnext]
    · rw [Function.update_of_ne hkn]
      refine (h.links k hk).congr (fun y hy => ?_) fun y hy => ?_
      · rw [hnext' y ⟨k, hk, hy⟩, if_neg (hother k hk hkn y hy _ hpc)]
      · rw [hprev' y ⟨k, hk, hy⟩, if_neg (hother k hk hkn y hy _ hqc)]

theorem Marked.of_empty_iff {lists' : Nat → List Nat} (h : Marked m c lists)
    (hempty : ∀ k, lists' k = [] ↔ lists k = []) : Marked m c lists' := by
  refine ⟨fun i hi j hj => ?_, h.first⟩
  rw [h.second i hi j hj]
  simp only [ne_eq, hempty]

theorem eq_ofNat_of_toNat {v : Word} {x : Nat} (h : v.toNat = x) : v = BitVec.ofNat 64 x := by
  rw [← h, BitVec.ofNat_toNat, BitVec.setWidth_eq]

theorem FreeLists.remove (h : FreeLists m c lists) (hn : n < 800) (hsp : Spaced c (Filed lists))
    (hsplit : lists n = s ++ a :: t) :
    ∃ m', removeFreeBlock m (BitVec.ofNat 64 c) (BitVec.ofNat 64 a) (n / 32) (n % 32) = some m' ∧
      FreeLists m' c (Function.update lists n (s ++ t)) ∧ ListFrame c (Filed lists) m m' := by
  have hc8 := hsp.mod
  have hfits := hsp.fits
  have hlinks := h.threads.links n hn
  have hnodup := h.threads.nodup n hn
  rw [hsplit] at hlinks hnodup
  have hnext : word m (a + 16) = BitVec.ofNat 64 (t.headD c) := eq_ofNat_of_toNat hlinks.next_eq
  have hprev : word m (a + 24) = BitVec.ofNat 64 (s.getLastD c) := eq_ofNat_of_toNat hlinks.prev_eq
  have hfiled : ∀ x ∈ s ++ a :: t, Filed lists x := fun x hx => ⟨n, hn, hsplit ▸ hx⟩
  have hpc : s.getLastD c = c ∨ Filed lists (s.getLastD c) := by
    rcases getLastD_cases s c with ⟨hnull, -⟩ | hmem
    · exact Or.inl hnull
    · exact Or.inr (hfiled _ (List.mem_append_left _ hmem))
  have hqc : t.headD c = c ∨ Filed lists (t.headD c) := by
    rcases headD_cases t c with ⟨hnull, -⟩ | hmem
    · exact Or.inl hnull
    · exact Or.inr (hfiled _ (List.mem_append_right _ (List.mem_cons_of_mem a hmem)))
  obtain ⟨hp8, hplt, hpcc, hppos, -⟩ := hsp.near hpc
  obtain ⟨hq8, hqlt, hqcc, hqpos, hqapart⟩ := hsp.near hqc
  have hpq : s.getLastD c = t.headD c ∨ s.getLastD c + 32 ≤ t.headD c ∨ t.headD c + 32 ≤ s.getLastD c := by
    rcases hpc with hpc | hpf
    · omega
    · exact hqapart _ hpf
  have ha := hsp.near (Or.inr (hfiled a (by simp)))
  generalize hm₂ : setWord (setWord m (t.headD c + 24) (BitVec.ofNat 64 (s.getLastD c)))
    (s.getLastD c + 16) (BitVec.ofNat 64 (t.headD c)) = m₂
  have hhead₂ : word m₂ (c + (136 + 8 * n)) = BitVec.ofNat 64 ((s ++ a :: t).headD c) := by
    rw [← hm₂, ← hsplit, ← h.threads.head n hn]
    simp (disch := omega) only [word_setWord_of_ne]
  generalize hm₃ : (if s = [] then setWord m₂ (c + (136 + 8 * n)) (BitVec.ofNat 64 (t.headD c)) else m₂) = m₃
  have hword : ∀ y, Cell y → word m₃ y =
      if s = [] ∧ y = c + (136 + 8 * n) then BitVec.ofNat 64 (t.headD c)
      else if y = s.getLastD c + 16 then BitVec.ofNat 64 (t.headD c)
      else if y = t.headD c + 24 then BitVec.ofNat 64 (s.getLastD c) else word m y := by
    intro y hy
    have hword₂ : word m₂ y = if y = s.getLastD c + 16 then BitVec.ofNat 64 (t.headD c)
        else if y = t.headD c + 24 then BitVec.ofNat 64 (s.getLastD c) else word m y := by
      rw [← hm₂]
      simp (disch := omega) only [word_setWord]
    rw [← hm₃]
    by_cases hs : s = []
    · rw [if_pos hs, word_setWord (by omega) hy, hword₂]
      simp only [hs, true_and]
    · rw [if_neg hs, hword₂, if_neg (fun hst : s = [] ∧ _ => hs hst.1)]
  have hmarks : Marked m₃ c lists := h.marks.congr hc8 (by omega) fun y hy hlow hhigh => by
    rw [hword y hy]
    simp (disch := omega) only [if_neg]
  generalize hm₄ : (if s = [] ∧ t = [] then unfileBits m₃ c n else m₃) = m₄
  have hout : ∀ y, Cell y → y < c + 32 ∨ c + 136 ≤ y → word m₄ y = word m₃ y := by
    intro y hy hfar
    rw [← hm₄]
    split
    · exact word_unfileBits hc8 (by omega) hn hy hfar
    · rfl
  have hmarks' : Marked m₄ c (Function.update lists n (s ++ t)) := by
    rw [← hm₄]
    split
    · rename_i hst
      rw [hst.1, hst.2]
      exact hmarks.unfile hc8 (by omega) hn
    · rename_i hst
      refine hmarks.of_empty_iff fun k => ?_
      by_cases hkn : k = n
      · subst hkn
        rw [Function.update_self, hsplit]
        simpa using hst
      · rw [Function.update_of_ne hkn]
  have hthreads := h.threads.unlink hn hsp hsplit fun y hy hfar => (hout y hy hfar).trans (hword y hy)
  refine ⟨m₄, ?_, ⟨hthreads, hmarks'⟩, fun y hy hfar hno => ?_⟩
  · have h1 : BitVec.ofNat 64 (s.getLastD c) ≠ 0 := ofNat_ne_zero (by omega) (by omega)
    have h2 : BitVec.ofNat 64 (t.headD c) ≠ 0 := ofNat_ne_zero (by omega) (by omega)
    have hnull : BitVec.ofNat 64 (t.headD c) = BitVec.ofNat 64 c ↔ t = [] := by
      rw [ofNat_eq_iff (by omega) (by omega)]
      cases t with
      | nil => simp
      | cons z t =>
        have := hsp.above z (hfiled z (by simp))
        simp only [List.headD_cons, reduceCtorEq, iff_false]
        omega
    have hfirst : BitVec.ofNat 64 ((s ++ a :: t).headD c) = BitVec.ofNat 64 a ↔ s = [] := by
      have hhead := hsp.near (x := (s ++ a :: t).headD c) (by
        rcases headD_cases (s ++ a :: t) c with ⟨hnull, -⟩ | hmem
        · exact Or.inl hnull
        · exact Or.inr (hfiled _ hmem))
      rw [ofNat_eq_iff (by omega) (by omega)]
      cases s with
      | nil => simp
      | cons z s =>
        have : z ≠ a := by
          rintro rfl
          exact (List.nodup_cons.mp hnodup).1 (by simp)
        simpa using this
    unfold removeFreeBlock
    simp only [prevFree_ofNat, nextFree_ofNat, hnext, hprev, tlsfAssert, if_pos h1, if_pos h2,
      setPrevFree_ofNat, setNextFree_ofNat, hm₂, blocks_ofNat, hhead₂, hfirst, blockNull, hnull,
      setBlocks_ofNat, setSlBitmap_ofNat, slBitmap_ofNat, setFlBitmap_ofNat, flBitmap_ofNat,
      Option.bind_eq_bind, Option.bind_some]
    rw [← hm₄, ← hm₃]
    by_cases hs : s = []
    · by_cases ht : t = []
      · simp only [if_pos hs, if_pos ht, if_pos (And.intro hs ht), unfileBits]
        split <;> rfl
      · simp only [if_pos hs, if_neg ht, if_neg (fun hst : s = [] ∧ t = [] => ht hst.2)]
        rfl
    · simp only [if_neg hs, if_neg (fun hst : s = [] ∧ t = [] => hs hst.1)]
      rfl
  · rw [hout y hy (by omega), hword y hy, if_neg (by omega), if_neg, if_neg]
    · rcases hqc with hqc | hqf
      · omega
      · exact (hno _ hqf).2
    · rcases hpc with hpc | hpf
      · omega
      · exact (hno _ hpf).1

end AncoreOS.Heap
