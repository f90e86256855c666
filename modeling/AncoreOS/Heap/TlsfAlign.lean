import AncoreOS.Heap.TlsfRun

/-!
# Aligned blocks

`tlsf_memalign` asks for a block that is large enough for the request, the alignment and one more
header, and cuts off what lies before the first aligned pointer in it.  The part that is cut off must
be a block of its own, so a gap that is too small is made larger (`memalignGap_eq`).

The heap is sound afterwards, and the pointer is a multiple of the alignment (`memalign_aligned`).
-/

namespace AncoreOS.Heap

open ByteMemory WordCells BlockTiling

variable {m m' : Mem} {c s e x n k : Nat} {l p r : List Block} {b : Block} {hand hand' : List Nat}

/-! ### Rounding up -/

/-- The least multiple of `a` from `x` on. -/
def roundUp (a x : Nat) : Nat := (x + (a - 1)) / a * a

theorem roundUp_mod (a x : Nat) : roundUp a x % a = 0 := Nat.mul_mod_left _ a

theorem roundUp_bounds {a : Nat} (ha : 0 < a) (x : Nat) : x ≤ roundUp a x ∧ roundUp a x < x + a := by
  have hdiv := Nat.div_add_mod' (x + (a - 1)) a
  have hmod := Nat.mod_lt (x + (a - 1)) ha
  unfold roundUp
  omega

theorem roundUp_of_mod {a : Nat} (ha : 0 < a) (hx : x % a = 0) : roundUp a x = x := by
  obtain ⟨j, rfl⟩ := Nat.dvd_of_mod_eq_zero hx
  obtain ⟨hlow, hhigh⟩ := roundUp_bounds ha (a * j)
  obtain ⟨i, hi⟩ := Nat.dvd_of_mod_eq_zero (roundUp_mod a (a * j))
  rw [hi] at hlow hhigh ⊢
  have hji : j ≤ i := Nat.le_of_mul_le_mul_left hlow ha
  have hij : i < j + 1 := Nat.lt_of_mul_lt_mul_left (a := a) (by rwa [Nat.mul_add, Nat.mul_one])
  rw [Nat.le_antisymm hji (Nat.lt_succ_iff.mp hij)]

/-- A multiple of the alignment that is not the last one. -/
theorem add_two_pow_le (hk : k < 64) (hx : x % 2 ^ k = 0) (hlt : x < 2 ^ 64) : x + 2 ^ k ≤ 2 ^ 64 := by
  obtain ⟨j, rfl⟩ := Nat.dvd_of_mod_eq_zero hx
  have hpow : 2 ^ 64 = 2 ^ k * 2 ^ (64 - k) := by
    rw [← Nat.pow_add]
    congr 1
    omega
  rw [hpow] at hlt ⊢
  have hj : j < 2 ^ (64 - k) := Nat.lt_of_mul_lt_mul_left hlt
  exact Nat.mul_le_mul_left (2 ^ k) (Nat.succ_le_of_lt hj)

theorem two_pow_lt (hk : k < 64) : 2 ^ k < 2 ^ 64 := Nat.pow_lt_pow_right (by decide) hk

theorem ofNat_two_pow_sub_one (k : Nat) :
    BitVec.ofNat 64 (2 ^ k) - 1 = BitVec.ofNat 64 (2 ^ k - 1) :=
  ofNat_sub (i := 1) (Nat.two_pow_pos k)

theorem two_pow_aligned (hk : k < 64) :
    BitVec.ofNat 64 (2 ^ k) &&& (BitVec.ofNat 64 (2 ^ k) - 1) = 0 := by
  have hlt := two_pow_lt hk
  apply BitVec.eq_of_toNat_eq
  rw [ofNat_two_pow_sub_one k, BitVec.toNat_and, toNat_ofNat_of_lt hlt, toNat_ofNat_of_lt (by omega),
    Nat.and_two_pow_sub_one_eq_mod, Nat.mod_self]
  rfl

theorem mask_eq (hx : x + 2 ^ k ≤ 2 ^ 64) :
    (BitVec.ofNat 64 x + (BitVec.ofNat 64 (2 ^ k) - 1)) &&& ~~~(BitVec.ofNat 64 (2 ^ k) - 1) =
      BitVec.ofNat 64 (roundUp (2 ^ k) x) := by
  have hpos := Nat.two_pow_pos k
  have hbounds := roundUp_bounds hpos x
  apply BitVec.eq_of_toNat_eq
  rw [ofNat_two_pow_sub_one k, and_not_low_toNat, ← BitVec.ofNat_add, toNat_ofNat_of_lt (by omega),
    toNat_ofNat_of_lt (by omega), roundUp]

theorem alignPtr_pow (hk : k < 64) (hx : x + 2 ^ k ≤ 2 ^ 64) :
    alignPtr (BitVec.ofNat 64 x) (BitVec.ofNat 64 (2 ^ k)) = some (BitVec.ofNat 64 (roundUp (2 ^ k) x)) := by
  simp only [alignPtr, tlsfAssert, if_pos (two_pow_aligned hk), mask_eq hx, Option.pure_def,
    Option.bind_eq_bind, Option.bind_some]

theorem alignUp_pow (hk : k < 64) (hx : x + 2 ^ k ≤ 2 ^ 64) :
    alignUp (BitVec.ofNat 64 x) (BitVec.ofNat 64 (2 ^ k)) = some (BitVec.ofNat 64 (roundUp (2 ^ k) x)) := by
  simp only [alignUp, tlsfAssert, if_pos (two_pow_aligned hk), mask_eq hx, Option.pure_def,
    Option.bind_eq_bind, Option.bind_some]

theorem adjustRequestSize_pow (hk : k < 64) (hx0 : 24 < x) (hx : x + 2 ^ k ≤ 2 ^ 64) :
    adjustRequestSize (BitVec.ofNat 64 x) (BitVec.ofNat 64 (2 ^ k)) =
      some (BitVec.ofNat 64 (if roundUp (2 ^ k) x < 2 ^ 32 then roundUp (2 ^ k) x else 0)) := by
  have hpos := Nat.two_pow_pos k
  have hbounds := roundUp_bounds hpos x
  have hmax : BitVec.ofNat 64 (roundUp (2 ^ k) x) < blockSizeMax ↔ roundUp (2 ^ k) x < 2 ^ 32 := by
    rw [show blockSizeMax = BitVec.ofNat 64 (2 ^ 32) by decide, ofNat_lt_iff (by omega) (by omega)]
  have hmin : blockSizeMin < BitVec.ofNat 64 (roundUp (2 ^ k) x) := by
    rw [show blockSizeMin = BitVec.ofNat 64 24 by decide, ofNat_lt_iff (by omega) (by omega)]
    omega
  have hne : BitVec.ofNat 64 x ≠ (0 : Word) := ofNat_ne_zero (by omega) (by omega)
  rw [adjustRequestSize, if_pos hne]
  simp only [alignUp_pow hk hx, hmax, if_pos hmin, Option.pure_def, Option.bind_eq_bind, Option.bind_some]
  split <;> rfl

/-! ### The gap -/

theorem memalignGap_small (hk : k ≤ 3) (hx : x + 8 ≤ 2 ^ 64) (h8 : x % 8 = 0) :
    memalignGap (BitVec.ofNat 64 x) (BitVec.ofNat 64 (2 ^ k)) = some 0 := by
  have hpow : 2 ^ k ∣ 8 := pow_dvd_pow 2 hk
  have hle := Nat.le_of_dvd (by decide) hpow
  have hmod : x % 2 ^ k = 0 := Nat.mod_eq_zero_of_dvd (hpow.trans (Nat.dvd_of_mod_eq_zero h8))
  simp only [memalignGap, alignPtr_pow (show k < 64 by omega) (show x + 2 ^ k ≤ 2 ^ 64 by omega),
    roundUp_of_mod (Nat.two_pow_pos k) hmod, BitVec.sub_self, Option.bind_eq_bind, Option.bind_some]
  rfl

/-- **The gap is none or a whole block**, and not much more than the alignment. -/
theorem memalignGap_eq (hk : 4 ≤ k) (hk' : k < 64) (hx : x + 2 ^ k + 32 < 2 ^ 64) (h8 : x % 8 = 0) :
    ∃ g, memalignGap (BitVec.ofNat 64 x) (BitVec.ofNat 64 (2 ^ k)) = some (BitVec.ofNat 64 g) ∧
      (g = 0 ∨ 32 ≤ g) ∧ g % 8 = 0 ∧ g ≤ 2 ^ k + 24 ∧ (x + g) % 2 ^ k = 0 := by
  have hpos := Nat.two_pow_pos k
  have hpow8 : 2 ^ k % 8 = 0 := Nat.mod_eq_zero_of_dvd (pow_dvd_pow 2 (show 3 ≤ k by omega))
  have hpow16 : 16 ≤ 2 ^ k := Nat.pow_le_pow_right (n := 2) (by decide) hk
  obtain ⟨hlow, hhigh⟩ := roundUp_bounds hpos x
  have hmod := roundUp_mod (2 ^ k) x
  have hmod8 : roundUp (2 ^ k) x % 8 = 0 := by
    obtain ⟨j, hj⟩ := Nat.dvd_of_mod_eq_zero hmod
    obtain ⟨i, hi⟩ := Nat.dvd_of_mod_eq_zero hpow8
    rw [hj, hi, Nat.mul_assoc]
    exact Nat.mul_mod_right 8 _
  generalize hy : roundUp (2 ^ k) x = y at *
  have halign : alignPtr (BitVec.ofNat 64 x) (BitVec.ofNat 64 (2 ^ k)) = some (BitVec.ofNat 64 y) := by
    rw [alignPtr_pow hk' (by omega), hy]
  have hmin : sizeofBlockHeader = BitVec.ofNat 64 32 := rfl
  have hcond : BitVec.ofNat 64 (y - x) ≠ 0 ∧ BitVec.ofNat 64 (y - x) < sizeofBlockHeader ↔
      y - x ≠ 0 ∧ y - x < 32 := by
    rw [hmin, ofNat_lt_iff (by omega) (by decide)]
    refine and_congr_left fun _ => not_congr ?_
    exact ofNat_eq_iff (by omega) (by decide)
  simp only [memalignGap, halign, ofNat_sub hlow, hcond, Option.bind_eq_bind, Option.bind_some]
  by_cases hsmall : y - x ≠ 0 ∧ y - x < 32
  · rw [if_pos hsmall, hmin, ofNat_sub (show y - x ≤ 32 by omega)]
    simp only [ofNat_lt_iff (show 2 ^ k < 2 ^ 64 by omega) (show 32 - (y - x) < 2 ^ 64 by omega)]
    by_cases hk5 : 5 ≤ k
    · -- The next boundary is one alignment further.
      have hpow32 : 32 ≤ 2 ^ k := Nat.pow_le_pow_right (n := 2) (by decide) hk5
      have hnext : (y + 2 ^ k) % 2 ^ k = 0 := by rw [Nat.add_mod_right, hmod]
      have hfits := add_two_pow_le hk' hnext (by omega)
      rw [if_neg (by omega), ← BitVec.ofNat_add, alignPtr_pow hk' hfits, roundUp_of_mod hpos hnext]
      simp only [Option.bind_some, ofNat_sub (show x ≤ y + 2 ^ k by omega)]
      refine ⟨y + 2 ^ k - x, rfl, Or.inr (by omega), by omega, by omega, ?_⟩
      rw [Nat.add_sub_cancel' (by omega), hnext]
    · -- The alignment is 16 and the gap 8, so that the boundary after the next one is taken.
      obtain rfl : k = 4 := by omega
      have hgap : y - x = 8 := by omega
      have hnext : roundUp (2 ^ 4) (y + 24) = y + 32 := by
        unfold roundUp
        omega
      rw [hgap, if_pos (by decide), ← BitVec.ofNat_add, alignPtr_pow hk' (by omega), hnext]
      simp only [Option.bind_some, ofNat_sub (show x ≤ y + 32 by omega)]
      exact ⟨y + 32 - x, rfl, Or.inr (by omega), by omega, by omega, by omega⟩
  · rw [if_neg hsmall]
    refine ⟨y - x, rfl, by omega, by omega, by omega, ?_⟩
    rw [Nat.add_sub_cancel' hlow, hmod]

/-! ### The block behind the gap -/

theorem Arena.reorder (h : Arena m c s e l hand) (hsame : ∀ x, x ∈ hand ↔ x ∈ hand') :
    Arena m c s e l hand' := by
  obtain ⟨hc8, hpos, hle, hrow, lists, hlists, hmem⟩ := h
  refine ⟨hc8, hpos, hle, hrow, lists, hlists, fun n hn x => ?_⟩
  rw [hmem n hn x]
  simp only [hsame]

/-- **`block_trim_free_leading` puts what lies before the gap back into its list.** -/
theorem Arena.trimLeading {g : Nat} (h : Arena m c s e (p ++ b :: r) [b.addr]) (hb : b.free = true)
    (hg : 32 ≤ g) (hg8 : g % 8 = 0) (hfit : 32 + g ≤ b.size) :
    ∃ m', blockTrimFreeLeading m (BitVec.ofNat 64 c) (BitVec.ofNat 64 b.addr) (BitVec.ofNat 64 g) =
        some (BitVec.ofNat 64 (b.rest 8 (g - 8)).addr, m') ∧
      Arena m' c s e ((p ++ [b.front (g - 8)]) ++ b.rest 8 (g - 8) :: r) [(b.rest 8 (g - 8)).addr] ∧
      Kept c e (p ++ b :: r) m m' := by
  have htag := h.row.around.1
  have hs := h.row.sized (b := b) (by simp)
  have ht : Sized (g - 8) := by omega
  have hcan : blockCanSplit m (BitVec.ofNat 64 b.addr) (BitVec.ofNat 64 g) :=
    (blockCanSplit_of_tag htag hs (by omega)).mpr hfit
  have hsub : BitVec.ofNat 64 g - blockHeaderOverhead = BitVec.ofNat 64 (g - 8) :=
    ofNat_sub (i := 8) (by omega)
  obtain ⟨m₁, m₂, hsplit, hlink, hrow, hframe⟩ := h.row.splitLeading hb ht (by omega)
  have hne : (b.front (g - 8)).addr ≠ (b.rest 8 (g - 8)).addr := (rest_addr_ne b (g - 8)).symm
  have hcut : Arena m₂ c s e (p ++ b.front (g - 8) :: b.rest 8 (g - 8) :: r)
      [(b.front (g - 8)).addr, (b.rest 8 (g - 8)).addr] :=
    (h.of_cut (by simp) hrow hframe).reorder fun x => by
      simp [Block.front, or_comm]
  obtain ⟨m₃, hput, harena, hkept⟩ := hcut.put (by simp) hb (by simpa using hne)
  have hused : usedOf (p ++ b :: r) = usedOf (p ++ b.front (g - 8) :: b.rest 8 (g - 8) :: r) := by
    rw [usedOf_append, usedOf_append, usedOf_cons_free hb, usedOf_cons_free (b := b.front (g - 8)) hb,
      usedOf_cons_free rfl]
  refine ⟨m₃, ?_, by simpa using harena, ((hframe.kept h.control_le).trans hkept).of_used hused⟩
  rw [show (b.front (g - 8)).addr = b.addr from rfl] at hput
  simp only [blockTrimFreeLeading, if_pos hcan, hsub, hsplit, hlink, hput, Option.bind_eq_bind,
    Option.bind_some]
  rfl

/-- What is given of a block that was located. -/
theorem Arena.prepareAt {m₁ : Mem} {g : Nat} (h : Sound m c s e (p ++ b :: r))
    (h₁ : Arena m₁ c s e (p ++ b :: r) [b.addr]) (hkept₁ : Kept c e (p ++ b :: r) m m₁)
    (hb : b.free = true) (hn : Sized n) (hg : g = 0 ∨ 32 ≤ g) (hg8 : g % 8 = 0)
    (hroom : n + g + (if g = 0 then 0 else 8) ≤ b.size) :
    ∃ d m' l', (if BitVec.ofNat 64 g ≠ 0 then do
        tlsfAssert (sizeofBlockHeader ≤ BitVec.ofNat 64 g)
        let (block, m) ← blockTrimFreeLeading m₁ (BitVec.ofNat 64 c) (BitVec.ofNat 64 b.addr)
          (BitVec.ofNat 64 g)
        blockPrepareUsed m (BitVec.ofNat 64 c) block (BitVec.ofNat 64 n)
      else blockPrepareUsed m₁ (BitVec.ofNat 64 c) (BitVec.ofNat 64 b.addr) (BitVec.ofNat 64 n)) =
        some (BitVec.ofNat 64 (d.addr + 16), m') ∧
      d.addr = b.addr + g ∧ n ≤ d.size ∧ Sound m' c s e l' ∧ Given c e m m' (p ++ b :: r) l' d := by
  obtain ⟨hp, hends, hstarts, hr⟩ := (coalesced_free hb).mp h.coalesced
  have hl : usedOf (p ++ b :: r) = usedOf p ++ usedOf r := by
    rw [usedOf_append, usedOf_cons_free hb]
  have hs := h.arena.row.sized (b := b) (by simp)
  by_cases hzero : g = 0
  · subst hzero
    obtain ⟨d, haddr, -, hsize, hused⟩ :=
      usedOf_allot (h := 8) (k := 24) (p := p) (b := b) (t := n) (r := r)
    obtain ⟨m', heq, harena, hkept⟩ := h₁.prepareUsed hb hn
    have hsound : Sound m' c s e (p ++ allot 8 24 b n ++ r) := ⟨harena, coalesced_allot hp hstarts hr⟩
    refine ⟨d, m', _, ?_, haddr, hsize (by omega), hsound, ?_⟩
    · rw [if_neg (by simp), heq, haddr]
    · exact Given.of_used h.arena.control_mod h.arena.row harena.row (hkept₁.trans hkept) hl hused
  · rw [if_neg hzero] at hroom
    obtain ⟨m₂, htrim, harena₂, hkept₂⟩ := h₁.trimLeading hb (by omega) hg8 (by omega)
    obtain ⟨d, haddr, -, hsize, hused⟩ := usedOf_allot (h := 8) (k := 24) (p := p ++ [b.front (g - 8)])
      (b := b.rest 8 (g - 8)) (t := n) (r := r)
    obtain ⟨m', heq, harena, hkept⟩ := harena₂.prepareUsed rfl hn
    have hfront : Coalesced (p ++ [b.front (g - 8)]) :=
      (coalesced_free (r := []) (b := b.front (g - 8)) hb).mpr
        ⟨hp, hends, by simp [StartsUsed], List.isChain_nil⟩
    have hsound : Sound m' c s e (p ++ [b.front (g - 8)] ++ allot 8 24 (b.rest 8 (g - 8)) n ++ r) :=
      ⟨harena, coalesced_allot hfront hstarts hr⟩
    have hrest : (b.rest 8 (g - 8)).addr = b.addr + g := by
      show b.addr + 8 + (g - 8) = _
      omega
    have hfits : n ≤ (b.rest 8 (g - 8)).size := by
      show n ≤ b.size - (g - 8) - 8
      omega
    have hsame : usedOf (p ++ b :: r) = usedOf ((p ++ [b.front (g - 8)]) ++ b.rest 8 (g - 8) :: r) := by
      rw [hl, usedOf_append, usedOf_append, usedOf_cons_free (b := b.front (g - 8)) hb,
        usedOf_cons_free (b := b.rest 8 (g - 8)) rfl]
      simp
    have hused' : usedOf (p ++ [b.front (g - 8)] ++ allot 8 24 (b.rest 8 (g - 8)) n ++ r) =
        usedOf p ++ d :: usedOf r := by
      rw [hused, usedOf_append, usedOf_cons_free (b := b.front (g - 8)) hb]
      simp
    have hmin : sizeofBlockHeader ≤ BitVec.ofNat 64 g := by
      rw [show sizeofBlockHeader = BitVec.ofNat 64 32 from rfl, ofNat_le_iff (by decide) (by omega)]
      omega
    have hne : BitVec.ofNat 64 g ≠ (0 : Word) := ofNat_ne_zero (by omega) hzero
    refine ⟨d, m', _, ?_, haddr.trans hrest, hsize hfits, hsound, ?_⟩
    · rw [if_pos hne, haddr]
      simp only [tlsfAssert, if_pos hmin, htrim, heq, Option.bind_eq_bind, Option.bind_some]
    · exact Given.of_used h.arena.control_mod h.arena.row harena.row
        (hkept₁.trans (hkept₂.trans (hkept.of_used hsame))) hl hused'

/-- The size that is searched for: none, or one with room for the gap. -/
theorem searched_eq (hk : k ≤ 62) (hn : n ≠ 0 → Sized n) (hlt : n < 2 ^ 32) :
    ∃ z, adjustRequestSize (BitVec.ofNat 64 n + BitVec.ofNat 64 (2 ^ k) + sizeofBlockHeader)
        (BitVec.ofNat 64 (2 ^ k)) = some z ∧ ∃ w,
      (if BitVec.ofNat 64 n ≠ 0 ∧ BitVec.ofNat 64 alignSize < BitVec.ofNat 64 (2 ^ k) then z
        else BitVec.ofNat 64 n) = BitVec.ofNat 64 w ∧
      (w = 0 ∨ Sized w ∧ n ≠ 0 ∧ (k ≤ 3 ∧ w = n ∨ 4 ≤ k ∧ n + 2 ^ k + 32 ≤ w)) := by
  have hpos := Nat.two_pow_pos k
  have hk62 : 2 ^ k ≤ 2 ^ 62 := Nat.pow_le_pow_right (by decide) hk
  have hsum : BitVec.ofNat 64 n + BitVec.ofNat 64 (2 ^ k) + sizeofBlockHeader =
      BitVec.ofNat 64 (n + 2 ^ k + 32) := by
    rw [BitVec.ofNat_add, BitVec.ofNat_add]
    rfl
  have hbounds := roundUp_bounds hpos (n + 2 ^ k + 32)
  have hlarge : BitVec.ofNat 64 alignSize < BitVec.ofNat 64 (2 ^ k) ↔ 8 < 2 ^ k :=
    ofNat_lt_iff (by decide) (by omega)
  have hzero : BitVec.ofNat 64 n ≠ (0 : Word) ↔ n ≠ 0 :=
    not_congr (ofNat_eq_iff (by omega) (by decide))
  rw [hsum, adjustRequestSize_pow (by omega) (by omega) (by omega)]
  refine ⟨_, rfl, ?_⟩
  simp only [hzero, hlarge]
  by_cases hn0 : n = 0
  · rw [if_neg (by omega)]
    exact ⟨0, by rw [hn0], Or.inl rfl⟩
  · by_cases hk3 : k ≤ 3
    · have hle : 2 ^ k ≤ 2 ^ 3 := Nat.pow_le_pow_right (by decide) hk3
      rw [if_neg (by omega)]
      exact ⟨n, rfl, Or.inr ⟨hn hn0, hn0, Or.inl ⟨hk3, rfl⟩⟩⟩
    · have hge : 2 ^ 4 ≤ 2 ^ k := Nat.pow_le_pow_right (by decide) (by omega)
      have h8 : roundUp (2 ^ k) (n + 2 ^ k + 32) % 8 = 0 :=
        Nat.mod_eq_zero_of_dvd ((pow_dvd_pow 2 (show 3 ≤ k by omega)).trans
          (Nat.dvd_of_mod_eq_zero (roundUp_mod _ _)))
      rw [if_pos (by omega)]
      refine ⟨_, rfl, ?_⟩
      by_cases hmax : roundUp (2 ^ k) (n + 2 ^ k + 32) < 2 ^ 32
      · rw [if_pos hmax]
        exact Or.inr ⟨⟨h8, by omega, hmax⟩, hn0, Or.inr ⟨by omega, by omega⟩⟩
      · rw [if_neg hmax]
        exact Or.inl rfl

/-- **`tlsf_memalign` gives an aligned block that is large enough, or `NULL` and changes nothing.** -/
theorem memalign_aligned (h : Sound m c s e l) (size : Word) (hk : k ≤ 62) :
    tlsfMemalign m (BitVec.ofNat 64 c) (BitVec.ofNat 64 (2 ^ k)) size = some (0, m) ∨
    ∃ d m' l', tlsfMemalign m (BitVec.ofNat 64 c) (BitVec.ofNat 64 (2 ^ k)) size =
        some (BitVec.ofNat 64 (d.addr + 16), m') ∧
      (d.addr + 16) % 2 ^ k = 0 ∧ adjusted size.toNat ≤ d.size ∧ Sound m' c s e l' ∧
      Given c e m m' l l' d := by
  have hsizes : sizeofBlockHeader = blockSizeMin + blockHeaderOverhead := by decide
  obtain ⟨z, hz, w, hw, hroom⟩ :=
    searched_eq hk (fun hn => sized_adjusted hn) (adjusted_lt size.toNat)
  unfold tlsfMemalign
  simp only [adjustRequestSize_eq, hz, hw, tlsfAssert, if_pos hsizes, Option.bind_eq_bind, Option.bind_some]
  rcases hroom with rfl | ⟨hsized, hn, hroom⟩
  · left
    rw [blockLocateFree_zero]
    simp [blockPrepareUsed]
  rcases h.arena.locate hsized with ⟨heq, -⟩ | ⟨b, m₁, hfits, hle, heq, harena, hkept⟩
  · left
    rw [heq]
    simp [blockPrepareUsed]
  · right
    obtain ⟨p, r, rfl⟩ := List.append_of_mem hfits.mem
    have hblt := h.arena.row.addr_lt hfits.mem
    have hb8 := h.arena.row.addr_mod hfits.mem
    have hne := h.arena.ne_zero hfits.mem
    have hgap : ∃ g, memalignGap (BitVec.ofNat 64 (b.addr + 16)) (BitVec.ofNat 64 (2 ^ k)) =
        some (BitVec.ofNat 64 g) ∧ (g = 0 ∨ 32 ≤ g) ∧ g % 8 = 0 ∧ (b.addr + 16 + g) % 2 ^ k = 0 ∧
        adjusted size.toNat + g + (if g = 0 then 0 else 8) ≤ b.size := by
      rcases hroom with ⟨hk3, rfl⟩ | ⟨hk4, hroom⟩
      · refine ⟨0, memalignGap_small hk3 (by omega) (by omega), Or.inl rfl, rfl, ?_, hle⟩
        exact Nat.mod_eq_zero_of_dvd ((pow_dvd_pow 2 hk3).trans (Nat.dvd_of_mod_eq_zero (by omega)))
      · have hadj := adjusted_ge hn
        obtain ⟨g, hg, hg32, hg8, hgle, hgmod⟩ := memalignGap_eq (x := b.addr + 16) hk4
          (by omega) (by omega) (by omega)
        refine ⟨g, hg, hg32, hg8, hgmod, ?_⟩
        split <;> omega
    obtain ⟨g, hg, hg32, hg8, hgmod, hgroom⟩ := hgap
    obtain ⟨d, m', l', hprep, haddr, hnd, hsound, hgiven⟩ :=
      Arena.prepareAt h harena hkept hfits.free (sized_adjusted hn) hg32 hg8 hgroom
    refine ⟨d, m', l', ?_, ?_, hnd, hsound, hgiven⟩
    · rw [heq]
      simp only [if_pos hne, blockToPtr_ofNat, hg, Option.bind_some]
      exact hprep
    · rw [haddr, Nat.add_right_comm]
      exact hgmod

/-- A page of the kernel heap. -/
theorem memalign_aligned_kernel : ∃ m, tlsfMemalign m (BitVec.ofNat 64 0x200000) 4096#64 4096#64 = some (0, m) ∨
    ∃ d m' l', tlsfMemalign m (BitVec.ofNat 64 0x200000) 4096#64 4096#64 =
        some (BitVec.ofNat 64 (d.addr + 16), m') ∧
      (d.addr + 16) % 2 ^ 12 = 0 ∧ 4096 ≤ d.size ∧ Sound m' 0x200000 0x201980 0x2ffff0 l' ∧
      Given 0x200000 0x2ffff0 m m' [poolBlock 0x201980 0xfe678] l' d := by
  obtain ⟨m, -, hsound⟩ := kernelHeap_sound
  exact ⟨m, memalign_aligned (k := 12) hsound 4096#64 (by decide)⟩

end AncoreOS.Heap
