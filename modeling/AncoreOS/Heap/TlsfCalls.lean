import AncoreOS.Heap.TlsfOps

/-!
# Malloc, free and realloc

`Sound` is the invariant of a heap between two calls: every free block is in its list, and no two
neighbours are free.  Each call keeps it, and changes the row as the abstract operation does.

A client may write what its block holds, and nothing else matters to the heap (`Sound.of_client`).
-/

namespace AncoreOS.Heap

open ByteMemory WordCells BlockTiling

structure Sound (m : Mem) (c s e : Nat) (l : List Block) : Prop where
  arena : Arena m c s e l []
  coalesced : Coalesced l

variable {m m' : Mem} {c s e x t n : Nat} {l l' p r : List Block} {b d q : Block} {hand : List Nat}

/-! ### Clients -/

theorem Arena.of_client (h : Arena m c s e l hand)
    (hkeep : ∀ y, Cell y → ¬Client c e l y → word m' y = word m y) : Arena m' c s e l hand := by
  have hle := h.control_le
  have hrow := h.row
  have hfits := h.spaced.fits
  have hse := hrow.tiles.le
  have hlow : ∀ y, Cell y → c ≤ y → y < s + 16 → word m' y = word m y := by
    intro y hy hcy hys
    refine hkeep y hy ?_
    rintro (hlt | hlt | ⟨b, hb, -, hholds⟩)
    · omega
    · omega
    · have := hholds.1
      have := hrow.addr_lt hb
      omega
  have hrow' : Row m' s l e := hrow.congr fun y hy hys hye hno => by
    refine hkeep y hy ?_
    rintro (hlt | hlt | ⟨b, hb, -, hholds⟩)
    · omega
    · omega
    · exact hno b hb hholds
  obtain ⟨hc8, hpos, -, -, lists, ⟨hthreads, hmarks⟩, hmem⟩ := h
  have hsub : ∀ x, Filed lists x → Node l x := by
    rintro x ⟨n, hn, hx⟩
    obtain ⟨d, hd, hdfree, hdx, -⟩ := (hmem n hn x).mp hx
    exact ⟨d, hd, hdfree, hdx⟩
  refine ⟨hc8, hpos, hle, hrow', lists, ⟨hthreads.congr ?_ hfits ?_, hmarks.congr hc8 hfits ?_⟩, hmem⟩
  · exact (hrow.spaced hc8 hpos hle).mono hsub
  · rintro y hy hyc (hyc' | ⟨x, hx, hlink⟩)
    · exact hlow y hy (by omega) (by omega)
    · obtain ⟨d, hd, hdf, rfl⟩ := hsub x hx
      have hdy := hrow.holds_link hd hlink
      have hda := hrow.addr_lt hd
      have hds := (hrow.sized hd).2.1
      refine hkeep y hy ?_
      rintro (hlt | hlt | ⟨b, hb, hused, hholds⟩)
      · omega
      · omega
      · have := hrow.holds_unique hd hb hdy hholds
        subst this
        rw [hused] at hdf
        cases hdf
  · exact fun y hy h1 h2 => hlow y hy (by omega) (by omega)

theorem Sound.of_client (h : Sound m c s e l)
    (hkeep : ∀ y, Cell y → ¬Client c e l y → word m' y = word m y) : Sound m' c s e l :=
  ⟨h.arena.of_client hkeep, h.coalesced⟩

/-- The bytes that a used block holds. -/
def Payload (b : Block) (x : Nat) : Prop := b.addr + 16 ≤ x ∧ x < b.addr + 16 + b.size

/-- **A write to what a used block holds does not harm the heap.** -/
theorem Sound.write (h : Sound m c s e l) (hb : b ∈ l) (hused : b.free = false)
    (hkeep : ∀ x < 2 ^ 64, ¬Payload b x → m' (BitVec.ofNat 64 x) = m (BitVec.ofNat 64 x)) :
    Sound m' c s e l := by
  refine h.of_client fun y hy hno => word_congr hy fun x hx hx' => hkeep x (by omega) fun hpay => ?_
  have hmod := h.arena.row.addr_mod hb
  have hs := (h.arena.row.sized hb).1
  refine hno (Or.inr (Or.inr ⟨b, hb, hused, ?_⟩))
  unfold Payload at hpay
  unfold Holds Block.stop
  rw [hused]
  simp only [Bool.false_eq_true, if_false]
  omega

/-- The bytes of a used block are kept with its words. -/
theorem Kept.byte {m'' : Mem} (h : Kept c e l m m') (hrow : Row m'' s l e) (hb : b ∈ l) (hused : b.free = false)
    (hx : Payload b x) : m' (BitVec.ofNat 64 x) = m (BitVec.ofNat 64 x) := by
  have hmod := hrow.addr_mod hb
  have hlt := hrow.addr_lt hb
  have hs := (hrow.sized hb).1
  unfold Payload at hx
  refine byte_eq_of_word_eq (a := x / 8 * 8) (h _ (by omega) (Or.inr (Or.inr ⟨b, hb, hused, ?_⟩)))
    (by omega) (by omega)
  unfold Holds Block.stop
  rw [hused]
  simp only [Bool.false_eq_true, if_false]
  omega

/-- Outside of the heap no byte is written. -/
theorem Kept.outside {m'' : Mem} (h : Kept c e l m m') (hc8 : c % 8 = 0) (hrow : Row m'' s l' e)
    (hx : x < 2 ^ 64) (hout : x < c ∨ e + 16 ≤ x) : m' (BitVec.ofNat 64 x) = m (BitVec.ofNat 64 x) := by
  have he8 : e % 8 = 0 := by
    obtain ⟨last, hseg, -⟩ := hrow.seg
    exact hseg.mod hrow.start_mod
  refine byte_eq_of_word_eq (a := x / 8 * 8) (h _ (by omega) ?_) (by omega) (by omega)
  rcases hout with hlow | hhigh
  · exact Or.inl (by omega)
  · exact Or.inr (Or.inl (by omega))

/-! ### `tlsf_malloc` -/

theorem blockLocateFree_zero (m : Mem) (c : Nat) :
    blockLocateFree m (BitVec.ofNat 64 c) (BitVec.ofNat 64 0) = some (0, m) := by
  simp [blockLocateFree]

theorem sized_adjusted (h : adjusted n ≠ 0) : Sized (adjusted n) :=
  ⟨adjusted_mod n, adjusted_ge h, adjusted_lt n⟩

/-- **`tlsf_malloc` allots a block of the least class that will do, or gives `NULL` and changes
nothing.** -/
theorem Sound.malloc (h : Sound m c s e l) (size : Word) :
    (tlsfMalloc m (BitVec.ofNat 64 c) size = some (0, m) ∧ (adjusted size.toNat = 0 ∨
      ∀ b ∈ l, b.free = true → sizeClass b.size < searchClass (adjusted size.toNat))) ∨
    ∃ p b r m', l = p ++ b :: r ∧ adjusted size.toNat ≠ 0 ∧ Fits l (adjusted size.toNat) b ∧
      adjusted size.toNat ≤ b.size ∧
      tlsfMalloc m (BitVec.ofNat 64 c) size = some (BitVec.ofNat 64 (b.addr + 16), m') ∧
      Sound m' c s e (p ++ allot 8 24 b (adjusted size.toNat) ++ r) ∧ Kept c e l m m' := by
  unfold tlsfMalloc
  rw [adjustRequestSize_eq]
  simp only [Option.bind_eq_bind, Option.bind_some]
  by_cases hzero : adjusted size.toNat = 0
  · left
    refine ⟨?_, Or.inl hzero⟩
    rw [hzero, blockLocateFree_zero]
    simp [blockPrepareUsed]
  · rcases h.arena.locate (sized_adjusted hzero) with ⟨heq, hnone⟩ | ⟨b, m₁, hfits, hle, heq, harena, hkept⟩
    · left
      refine ⟨?_, Or.inr hnone⟩
      rw [heq]
      simp [blockPrepareUsed]
    · right
      obtain ⟨p, r, rfl⟩ := List.append_of_mem hfits.mem
      obtain ⟨m', hprep, harena', hkept'⟩ := harena.prepareUsed hfits.free (sized_adjusted hzero)
      refine ⟨p, b, r, m', rfl, hzero, hfits, hle, ?_, ⟨harena', ?_⟩, hkept.trans hkept'⟩
      · rw [heq]
        exact hprep
      · obtain ⟨hp, -, hstarts, hr⟩ := (coalesced_free hfits.free).mp h.coalesced
        exact coalesced_allot hp hstarts hr

/-- The answer of a heap that is one free block. -/
theorem malloc_of_single (h : Sound m c s e [b]) (hb : b.free = true) (size : Word) :
    ∃ m', tlsfMalloc m (BitVec.ofNat 64 c) size =
      some (if adjusted size.toNat = 0 ∨ sizeClass b.size < searchClass (adjusted size.toNat) then 0
        else BitVec.ofNat 64 (b.addr + 16), m') := by
  rcases h.malloc size with ⟨hnull, hno⟩ | ⟨p, d, r, m', hl, hn, hfits, -, heq, -⟩
  · refine ⟨m, ?_⟩
    rw [hnull, if_pos (hno.imp_right fun hno => hno b (by simp) hb)]
  · have hd : d = b := List.mem_singleton.mp hfits.mem
    subst hd
    refine ⟨m', ?_⟩
    rw [heq, if_neg]
    rintro (hzero | hlt)
    · exact hn hzero
    · exact absurd hfits.large (not_le.mpr hlt)

/-! ### `tlsf_free` -/

/-- **`tlsf_free` releases the block.** -/
theorem Sound.free (h : Sound m c s e (p ++ b :: r)) (hb : b.free = false) :
    ∃ m', tlsfFree m (BitVec.ofNat 64 c) (BitVec.ofNat 64 (b.addr + 16)) = some m' ∧
      Sound m' c s e (release 8 p b r) ∧ Kept c e (release 8 p b r) m m' := by
  have hrow := h.arena.row
  have hbounds := hrow.addr_lt (b := b) (by simp)
  have htag := hrow.around.1
  have hne : BitVec.ofNat 64 (b.addr + 16) ≠ 0 := ofNat_ne_zero (by omega) (by omega)
  have hused : ¬blockIsFree m (BitVec.ofNat 64 b.addr) := by
    rw [blockIsFree_of_tag htag (hrow.sized (b := b) (by simp)).1, hb]
    simp
  obtain ⟨m₁, hmark, hrow₁, hframe₁⟩ := hrow.markFree
  have harena₁ : Arena m₁ c s e (p ++ { b with free := true } :: r) [b.addr] := by
    refine h.arena.of_row hrow₁ hframe₁ fun q hq => ?_
    have hother : q ∈ p ∨ q ∈ r → q.addr ≠ b.addr := hrow.tiles.addr_ne (by omega)
    simp only [List.mem_append, List.mem_cons, List.not_mem_nil, or_false, not_false_eq_true, and_true]
    constructor
    · rintro (hq' | rfl | hq')
      · exact ⟨Or.inl hq', hother (Or.inl hq')⟩
      · rw [hb] at hq
        cases hq
      · exact ⟨Or.inr (Or.inr hq'), hother (Or.inr hq')⟩
    · rintro ⟨hq' | rfl | hq', hno⟩
      · exact Or.inl hq'
      · exact absurd rfl hno
      · exact Or.inr (Or.inr hq')
  have hkept₁ := hframe₁.kept h.arena.control_le
  obtain ⟨m₂, hback, harena₂, hkept₂⟩ := harena₁.mergePrev rfl
  have hfree₂ : (mergeBack 8 p { b with free := true }).2.free = true := mergeBack_free rfl
  obtain ⟨m₃, hfront, harena₃, hkept₃⟩ := harena₂.mergeNext hfree₂
  have harena₃' : Arena m₃ c s e (release 8 p b r)
      [(mergeFront 8 (mergeBack 8 p { b with free := true }).2 r).1.addr] := by
    rw [mergeFront_addr]
    exact harena₃
  obtain ⟨m₄, hput, harena₄, hkept₄⟩ := harena₃'.put (by simp [release]) (mergeFront_free hfree₂) (by simp)
  rw [mergeFront_addr] at hput
  have hu₁ : usedOf (release 8 p b r) = usedOf (p ++ { b with free := true } :: r) := by
    rw [usedOf_release, usedOf_append, usedOf_cons_free rfl]
  have hu₂ : usedOf (release 8 p b r) =
      usedOf ((mergeBack 8 p { b with free := true }).1 ++ (mergeBack 8 p { b with free := true }).2 :: r) := by
    rw [usedOf_release, usedOf_append, usedOf_cons_free hfree₂, usedOf_mergeBack]
  refine ⟨m₄, ?_, ⟨harena₄, coalesced_release h.coalesced hb⟩, ?_⟩
  · unfold tlsfFree
    simp only [if_pos hne, blockFromPtr_ofNat, tlsfAssert, if_pos hused, hmark, hback, hfront, hput,
      Option.bind_eq_bind, Option.bind_some]
  · exact (((hkept₁.trans hkept₂).of_used hu₁).trans (hkept₃.of_used hu₂)).trans hkept₄

/-! ### `tlsf_realloc` -/

/-- A used block takes the free one behind it, and becomes the only one of the two. -/
theorem Arena.grow (h : Arena m c s e (p ++ b :: q :: r) []) (hb : b.free = false)
    (hq : q.free = true) :
    ∃ m₁ m', blockMergeNext m (BitVec.ofNat 64 c) (BitVec.ofNat 64 b.addr) = some m₁ ∧
      blockMarkAsUsed m₁ (BitVec.ofNat 64 b.addr) = some m' ∧
      Arena m' c s e (p ++ b.join 8 q :: r) [] ∧ Kept c e (p ++ b :: q :: r) m m' := by
  obtain ⟨htag, hnext, hn8⟩ := h.row.around
  have hs := h.row.sized (b := b) (by simp)
  have hbounds := h.row.addr_lt (b := b) (by simp)
  have hbnext : blockNext m (BitVec.ofNat 64 b.addr) = some (BitVec.ofNat 64 (b.stop 8)) :=
    blockNext_of_tag htag hs
  have hne : BitVec.ofNat 64 (b.stop 8) ≠ 0 := by
    refine ofNat_ne_zero ?_ ?_ <;> unfold Block.stop <;> omega
  have hfree : blockIsFree m (BitVec.ofNat 64 (b.stop 8)) := (blockIsFree_of_tag hnext hn8).mpr hq
  have hlast : ¬blockIsLast m (BitVec.ofNat 64 b.addr) := by
    rw [blockIsLast_of_tag htag hs.1 hs.2.2]
    omega
  have hqa : q.addr = b.stop 8 := by
    obtain ⟨x, -, -, hqa, -⟩ := tiles_append.mp h.row.tiles
    exact hqa
  obtain ⟨m₁, htake, harena₁, hkept₁⟩ := h.take_remove (b := q) (by simp) hq (by simp)
  obtain ⟨m₂, m', habsorb, hmark, hrow, hframe⟩ := harena₁.row.grow hb hq
  rw [hqa] at htake habsorb
  have hother : ∀ d, d ∈ p ∨ d ∈ r → d.addr ≠ q.addr := by
    intro d hd
    refine Tiles.addr_ne (l := p ++ [b]) (by simpa using h.row.tiles) (by omega) ?_
    rcases hd with hd | hd
    · exact Or.inl (List.mem_append_left _ hd)
    · exact Or.inr hd
  have hinto : ∀ d, d ∈ p ∨ d ∈ r → d ∈ p ++ b :: q :: r := by
    rintro d (hd | hd)
    · exact List.mem_append_left _ hd
    · exact List.mem_append_right _ (List.mem_cons_of_mem b (List.mem_cons_of_mem q hd))
  have hback : ∀ d ∈ p ++ b.join 8 q :: r, d.free = true → d ∈ p ∨ d ∈ r := by
    intro d hd hdf
    rcases List.mem_append.mp hd with hd | hd
    · exact Or.inl hd
    · rcases List.mem_cons.mp hd with rfl | hd
      · exact absurd (hdf.symm.trans hb) (by simp)
      · exact Or.inr hd
  refine ⟨m₂, m', ?_, hmark, harena₁.of_frame hrow hframe (fun d hdf => ?_) fun d hd hdf _ => ?_, ?_⟩
  · simp only [blockMergeNext, hbnext, tlsfAssert, if_pos hne, if_pos hfree, if_pos hlast, htake, habsorb,
      Option.bind_eq_bind, Option.bind_some]
  · constructor
    · simp only [List.mem_append, List.mem_cons, List.not_mem_nil, or_false, not_false_eq_true, and_true]
      rintro ⟨hd | rfl | rfl | hd, hno⟩
      · exact Or.inl hd
      · exact absurd (hdf.symm.trans hb) (by simp)
      · exact absurd rfl hno
      · exact Or.inr (Or.inr hd)
    · rintro ⟨hd, -⟩
      have hpr := hback d hd hdf
      exact ⟨hinto d hpr, by simpa using hother d hpr⟩
  · exact hinto d (hback d hd hdf)
  · exact hkept₁.trans (hframe.kept h.control_le)

/-! What a call does to the blocks of its clients. -/

/-- The block `b` gives way to `d`, which keeps its first `k` bytes, and the other used blocks stay
as they are. -/
structure Moved (c e : Nat) (m m' : Mem) (l l' : List Block) (b d : Block) (k : Nat) : Prop where
  used : d.free = false
  mem_iff : ∀ q, q ∈ usedOf l' ↔ q = d ∨ q ∈ usedOf l ∧ q ≠ b
  first : ∀ i < k, m' (BitVec.ofNat 64 (d.addr + 16 + i)) = m (BitVec.ofNat 64 (b.addr + 16 + i))
  others : ∀ q ∈ usedOf l, q ≠ b → ∀ x, Payload q x →
    m' (BitVec.ofNat 64 x) = m (BitVec.ofNat 64 x)
  outside : ∀ x < 2 ^ 64, x < c ∨ e + 16 ≤ x → m' (BitVec.ofNat 64 x) = m (BitVec.ofNat 64 x)

theorem memcpy_mem {dst src k : Nat} (hdst : dst + k ≤ 2 ^ 64) (hsrc : src + k ≤ 2 ^ 64)
    (hapart : dst + k ≤ src ∨ src + k ≤ dst) (hx : x < 2 ^ 64) :
    (Klibc.memcpy (BitVec.ofNat 64 dst) (BitVec.ofNat 64 src) (BitVec.ofNat 64 k) ⟨m, []⟩).1.mem
        (BitVec.ofNat 64 x) =
      if dst ≤ x ∧ x < dst + k then m (BitVec.ofNat 64 (src + (x - dst))) else m (BitVec.ofNat 64 x) := by
  by_cases hk : k = 0
  · subst hk
    rw [if_neg (by omega)]
    rfl
  · rw [Klibc.memcpy, toNat_ofNat_of_lt (by omega), ByteStore.copyUp_mem (by omega)]
    by_cases hin : dst ≤ x ∧ x < dst + k
    · have hdist : k ≤ (BitVec.ofNat 64 dst - BitVec.ofNat 64 src).toNat := by
        rw [ofNat_sub_toNat (by omega) (by omega)]
        split <;> omega
      rw [if_pos ((inRange_ofNat hx hdst).mpr hin), if_pos hin, ofNat_sub_toNat hx (by omega),
        if_pos hin.1, Nat.mod_eq_of_lt (by omega), ← BitVec.ofNat_add]
    · rw [if_neg (fun h => hin ((inRange_ofNat hx hdst).mp h)), if_neg hin]

theorem Moved.trans {m'' : Mem} {l'' : List Block} {k : Nat} {d' : Block} (h : Moved c e m m' l l' b d k)
    (h' : Moved c e m' m'' l' l'' d d' k) (hd : ∀ q ∈ usedOf l, q ≠ b → q ≠ d) :
    Moved c e m m'' l l'' b d' k where
  used := h'.used
  mem_iff q := by
    rw [h'.mem_iff, h.mem_iff]
    have := hd q
    tauto
  first i hi := (h'.first i hi).trans (h.first i hi)
  others q hq hqb x hx := by
    have hql' : q ∈ usedOf l' := (h.mem_iff q).mpr (Or.inr ⟨hq, hqb⟩)
    exact (h'.others q hql' (hd q hq hqb) x hx).trans (h.others q hq hqb x hx)
  outside x hx hout := (h'.outside x hx hout).trans (h.outside x hx hout)

theorem Moved.mono {k k' : Nat} (h : Moved c e m m' l l' b d k) (hk : k' ≤ k) : Moved c e m m' l l' b d k' where
  used := h.used
  mem_iff := h.mem_iff
  first i hi := h.first i (by omega)
  others := h.others
  outside := h.outside

theorem Sound.trim (h : Sound m c s e (p ++ b :: r)) (hb : b.free = false) (hn : Sized n)
    (hle : n ≤ b.size) :
    ∃ m' d, blockTrimUsed m (BitVec.ofNat 64 c) (BitVec.ofNat 64 b.addr) (BitVec.ofNat 64 n) = some m' ∧
      Sound m' c s e (trim 8 24 p b n r) ∧ d.addr = b.addr ∧ n ≤ d.size ∧
      Moved c e m m' (p ++ b :: r) (trim 8 24 p b n r) b d n := by
  obtain ⟨m', heq, harena, hkept⟩ := h.arena.trimUsed hb hn
  obtain ⟨d, haddr, hd, hnd, -, hused⟩ := usedOf_trim (h := 8) (k := 24) (p := p) (t := n) (r := r) hb
  have hmem : ∀ q, q ∈ usedOf (BlockTiling.trim 8 24 p b n r) ↔ q = d ∨ q ∈ usedOf (p ++ b :: r) ∧ q ≠ b := by
    intro q
    rw [hused, ← h.arena.row.tiles.mem_usedOf_erase (by omega) hb]
    simp only [List.mem_append, List.mem_cons]
    tauto
  have hbyte : ∀ q ∈ usedOf (BlockTiling.trim 8 24 p b n r), ∀ x, Payload q x →
      m' (BitVec.ofNat 64 x) = m (BitVec.ofNat 64 x) := fun q hq x hx =>
    hkept.byte harena.row (mem_usedOf.mp hq).1 (mem_usedOf.mp hq).2 hx
  have hnd := hnd hle
  refine ⟨m', d, heq, ⟨harena, coalesced_trim h.coalesced hb⟩, haddr, hnd, hd, hmem, fun i hi => ?_,
    fun q hq hqb => hbyte q ((hmem q).mpr (Or.inr ⟨hq, hqb⟩)),
    fun x hx hout => hkept.outside h.arena.control_mod harena.row hx hout⟩
  rw [← haddr]
  refine hbyte d ((hmem d).mpr (Or.inl rfl)) _ ⟨by omega, by omega⟩

theorem Sound.grow (h : Sound m c s e (p ++ b :: q :: r)) (hb : b.free = false) (hq : q.free = true) :
    ∃ m₁ m', blockMergeNext m (BitVec.ofNat 64 c) (BitVec.ofNat 64 b.addr) = some m₁ ∧
      blockMarkAsUsed m₁ (BitVec.ofNat 64 b.addr) = some m' ∧
      Sound m' c s e (p ++ b.join 8 q :: r) ∧
      Moved c e m m' (p ++ b :: q :: r) (p ++ b.join 8 q :: r) b (b.join 8 q) b.size := by
  obtain ⟨m₁, m', hmerge, hmark, harena, hkept⟩ := h.arena.grow hb hq
  have hbyte : ∀ d ∈ usedOf (p ++ b :: q :: r), ∀ x, Payload d x →
      m' (BitVec.ofNat 64 x) = m (BitVec.ofNat 64 x) := fun d hd x hx =>
    hkept.byte h.arena.row (mem_usedOf.mp hd).1 (mem_usedOf.mp hd).2 hx
  refine ⟨m₁, m', hmerge, hmark, ⟨harena, ?_⟩, hb, fun d => ?_, fun i hi => ?_,
    fun d hd _ => hbyte d hd, fun x hx hout => hkept.outside h.arena.control_mod harena.row hx hout⟩
  · obtain ⟨hp, hqr⟩ := (coalesced_used hb).mp h.coalesced
    exact (coalesced_used (b := b.join 8 q) hb).mpr
      ⟨hp, ((coalesced_free (l := []) hq).mp hqr).2.2.2⟩
  · rw [← h.arena.row.tiles.mem_usedOf_erase (by omega) hb, usedOf_cons_free hq, usedOf_append,
      usedOf_cons_used (b := b.join 8 q) hb]
    simp only [List.mem_append, List.mem_cons]
    tauto
  · exact hbyte b (mem_usedOf.mpr ⟨by simp, hb⟩) _ ⟨by show _ ≤ b.addr + 16 + i; omega, by
      show b.addr + 16 + i < _
      omega⟩

/-- The block `d` is given to a client, and the used blocks stay as they are. -/
structure Given (c e : Nat) (m m' : Mem) (l l' : List Block) (d : Block) : Prop where
  used : d.free = false
  fresh : ∀ q ∈ usedOf l, q.addr ≠ d.addr
  mem_iff : ∀ q, q ∈ usedOf l' ↔ q = d ∨ q ∈ usedOf l
  others : ∀ q ∈ usedOf l, ∀ x, Payload q x → m' (BitVec.ofNat 64 x) = m (BitVec.ofNat 64 x)
  outside : ∀ x < 2 ^ 64, x < c ∨ e + 16 ≤ x → m' (BitVec.ofNat 64 x) = m (BitVec.ofNat 64 x)

/-- One more block is used, and the words of the clients are kept. -/
theorem Given.of_used {u v : List Block} {m₁ : Mem} (hc8 : c % 8 = 0) (hrow : Row m s l e)
    (hrow' : Row m₁ s l' e) (hkept : Kept c e l m m') (hl : usedOf l = u ++ v)
    (hl' : usedOf l' = u ++ d :: v) : Given c e m m' l l' d where
  used := (mem_usedOf.mp (by rw [hl']; simp : d ∈ usedOf l')).2
  fresh q hq := by
    have hnodup : ((usedOf l').map Block.addr).Nodup :=
      (hrow'.tiles.addr_nodup (by omega)).sublist (List.filter_sublist.map _)
    rw [hl', List.map_append, List.map_cons, List.nodup_middle, List.nodup_cons, ← List.map_append,
      ← hl] at hnodup
    intro heq
    exact hnodup.1 (heq ▸ List.mem_map_of_mem hq)
  mem_iff q := by
    rw [hl', hl]
    simp only [List.mem_append, List.mem_cons]
    grind
  others q hq x hx := hkept.byte hrow (mem_usedOf.mp hq).1 (mem_usedOf.mp hq).2 hx
  outside x hx hout := hkept.outside hc8 hrow hx hout

/-- The block `b` is taken back, and the other used blocks stay as they are. -/
structure Taken (c e : Nat) (m m' : Mem) (l l' : List Block) (b : Block) : Prop where
  mem_iff : ∀ q, q ∈ usedOf l' ↔ q ∈ usedOf l ∧ q ≠ b
  others : ∀ q ∈ usedOf l, q ≠ b → ∀ x, Payload q x →
    m' (BitVec.ofNat 64 x) = m (BitVec.ofNat 64 x)
  outside : ∀ x < 2 ^ 64, x < c ∨ e + 16 ≤ x → m' (BitVec.ofNat 64 x) = m (BitVec.ofNat 64 x)

/-- A request for which there is no block. -/
def NoFit (l : List Block) (n : Nat) : Prop :=
  n = 0 ∨ ∀ b ∈ l, b.free = true → sizeClass b.size < searchClass n

theorem Sound.malloc_given (h : Sound m c s e l) (size : Word) :
    (tlsfMalloc m (BitVec.ofNat 64 c) size = some (0, m) ∧ NoFit l (adjusted size.toNat)) ∨
    ∃ d m' l', tlsfMalloc m (BitVec.ofNat 64 c) size = some (BitVec.ofNat 64 (d.addr + 16), m') ∧
      Sound m' c s e l' ∧ adjusted size.toNat ≠ 0 ∧ adjusted size.toNat ≤ d.size ∧
      Given c e m m' l l' d := by
  rcases h.malloc size with hnone | ⟨p, b, r, m', rfl, hn, hfits, hle, heq, hsound, hkept⟩
  · exact Or.inl hnone
  · right
    obtain ⟨d, haddr, hd, hsize, hused⟩ :=
      usedOf_allot (h := 8) (k := 24) (p := p) (b := b) (t := adjusted size.toNat) (r := r)
    rw [← haddr] at heq
    refine ⟨d, m', _, heq, hsound, hn, hsize hle, ?_⟩
    refine Given.of_used h.arena.control_mod h.arena.row hsound.arena.row hkept ?_ hused
    rw [usedOf_append, usedOf_cons_free hfits.free]

theorem Sound.free_taken (h : Sound m c s e l) (hb : b ∈ usedOf l) :
    ∃ m' l', tlsfFree m (BitVec.ofNat 64 c) (BitVec.ofNat 64 (b.addr + 16)) = some m' ∧
      Sound m' c s e l' ∧ Taken c e m m' l l' b := by
  obtain ⟨hmem, hused⟩ := mem_usedOf.mp hb
  obtain ⟨p, r, rfl⟩ := List.append_of_mem hmem
  obtain ⟨m', heq, hsound, hkept⟩ := h.free hused
  have hiff : ∀ q, q ∈ usedOf (release 8 p b r) ↔ q ∈ usedOf (p ++ b :: r) ∧ q ≠ b := by
    intro q
    rw [usedOf_release]
    exact h.arena.row.tiles.mem_usedOf_erase (by omega) hused
  refine ⟨m', _, heq, hsound, hiff, fun q hq hqb x hx => ?_,
    fun x hx hout => hkept.outside h.arena.control_mod hsound.arena.row hx hout⟩
  have hq' := mem_usedOf.mp ((hiff q).mpr ⟨hq, hqb⟩)
  exact hkept.byte hsound.arena.row hq'.1 hq'.2 hx

/-- A block is copied to one that was just given, and taken back. -/
theorem Sound.move {m₁ : Mem} {l₁ : List Block} {k : Nat} (hb : b ∈ usedOf l)
    (h₁ : Sound m₁ c s e l₁) (hgiven : Given c e m m₁ l l₁ d) (hkb : k ≤ b.size) (hkd : k ≤ d.size) :
    ∃ m' l', tlsfFree (Klibc.memcpy (BitVec.ofNat 64 (d.addr + 16)) (BitVec.ofNat 64 (b.addr + 16))
        (BitVec.ofNat 64 k) ⟨m₁, []⟩).1.mem (BitVec.ofNat 64 c) (BitVec.ofNat 64 (b.addr + 16)) =
        some m' ∧
      Sound m' c s e l' ∧ Moved c e m m' l l' b d k := by
  have hbl₁ : b ∈ usedOf l₁ := (hgiven.mem_iff b).mpr (Or.inr hb)
  have hdl₁ : d ∈ usedOf l₁ := (hgiven.mem_iff d).mpr (Or.inl rfl)
  have hdb : d ≠ b := by
    rintro rfl
    exact hgiven.fresh d hb rfl
  have hblt := h₁.arena.row.addr_lt (mem_usedOf.mp hbl₁).1
  have hdlt := h₁.arena.row.addr_lt (mem_usedOf.mp hdl₁).1
  have hsep : ∀ q ∈ usedOf l₁, q ≠ d → d.addr + 8 + d.size ≤ q.addr ∨ q.addr + 8 + q.size ≤ d.addr := by
    intro q hq hqd
    exact (h₁.arena.row.tiles.apart (mem_usedOf.mp hdl₁).1 (mem_usedOf.mp hq).1).resolve_left
      (fun he => hqd he.symm)
  have hbsep := hsep b hbl₁ (fun he => hdb he.symm)
  generalize hm₂ : (Klibc.memcpy (BitVec.ofNat 64 (d.addr + 16)) (BitVec.ofNat 64 (b.addr + 16))
    (BitVec.ofNat 64 k) ⟨m₁, []⟩).1.mem = m₂
  have hcopy : ∀ x < 2 ^ 64, m₂ (BitVec.ofNat 64 x) =
      if d.addr + 16 ≤ x ∧ x < d.addr + 16 + k then m₁ (BitVec.ofNat 64 (b.addr + 16 + (x - (d.addr + 16))))
      else m₁ (BitVec.ofNat 64 x) := by
    intro x hx
    rw [← hm₂, memcpy_mem (by omega) (by omega) (by omega) hx]
  have h₂ : Sound m₂ c s e l₁ := h₁.write (mem_usedOf.mp hdl₁).1 hgiven.used fun x hx hno => by
    rw [hcopy x hx, if_neg]
    rintro ⟨hlow, hhigh⟩
    exact hno ⟨hlow, by omega⟩
  obtain ⟨m', l', heq, hsound, htaken⟩ := h₂.free_taken hbl₁
  refine ⟨m', l', heq, hsound, hgiven.used, fun q => ?_, fun i hi => ?_, fun q hq hqb x hx => ?_,
    fun x hx hout => ?_⟩
  · rw [htaken.mem_iff, hgiven.mem_iff]
    constructor
    · rintro ⟨rfl | hq, hqb⟩
      · exact Or.inl rfl
      · exact Or.inr ⟨hq, hqb⟩
    · rintro (rfl | ⟨hq, hqb⟩)
      · exact ⟨Or.inl rfl, hdb⟩
      · exact ⟨Or.inr hq, hqb⟩
  · rw [htaken.others d hdl₁ hdb _ ⟨by omega, by omega⟩, hcopy _ (by omega), if_pos ⟨by omega, by omega⟩,
      Nat.add_sub_cancel_left]
    exact hgiven.others b hb _ ⟨by omega, by omega⟩
  · have hql₁ : q ∈ usedOf l₁ := (hgiven.mem_iff q).mpr (Or.inr hq)
    have hqd : q ≠ d := by
      rintro rfl
      exact hgiven.fresh q hq rfl
    have hqsep := hsep q hql₁ hqd
    have hqlt := h₁.arena.row.addr_lt (mem_usedOf.mp hql₁).1
    have hxlt := hx.2
    have hxlow := hx.1
    rw [htaken.others q hql₁ hqb x hx, hcopy x (by omega), if_neg (by omega)]
    exact hgiven.others q hq x hx
  · have hle := h₁.arena.control_le
    rw [htaken.outside x hx hout, hcopy x hx, if_neg (by omega), hgiven.outside x hx hout]

/-- The three ways of `tlsf_realloc`, for a used block and a size that is not zero. -/
theorem tlsfRealloc_eq (h : Row m s (p ++ b :: r) e) (hb : b.free = false) {size : Word}
    (hsize0 : size ≠ 0) :
    tlsfRealloc m (BitVec.ofNat 64 c) (BitVec.ofNat 64 (b.addr + 16)) size =
      if b.size < adjusted size.toNat ∧
          (nextIsFree r = false ∨ b.size + nextSize r + 8 < adjusted size.toNat) then do
        let (q, m) ← tlsfMalloc m (BitVec.ofNat 64 c) size
        if q ≠ 0 then
          let m := (Klibc.memcpy q (BitVec.ofNat 64 (b.addr + 16))
            (BitVec.ofNat 64 (min b.size size.toNat)) ⟨m, []⟩).1.mem
          let m ← tlsfFree m (BitVec.ofNat 64 c) (BitVec.ofNat 64 (b.addr + 16))
          return (q, m)
        else
          return (q, m)
      else if b.size < adjusted size.toNat then do
        let m ← blockMergeNext m (BitVec.ofNat 64 c) (BitVec.ofNat 64 b.addr)
        let m ← blockMarkAsUsed m (BitVec.ofNat 64 b.addr)
        let m ← blockTrimUsed m (BitVec.ofNat 64 c) (BitVec.ofNat 64 b.addr)
          (BitVec.ofNat 64 (adjusted size.toNat))
        return (BitVec.ofNat 64 (b.addr + 16), m)
      else do
        let m ← blockTrimUsed m (BitVec.ofNat 64 c) (BitVec.ofNat 64 b.addr)
          (BitVec.ofNat 64 (adjusted size.toNat))
        return (BitVec.ofNat 64 (b.addr + 16), m) := by
  obtain ⟨htag, hnext, hn8⟩ := h.around
  have hs := h.sized (b := b) (by simp)
  have hbounds := h.addr_lt (b := b) (by simp)
  have hspan := h.span
  have hnextlt : nextSize r < 2 ^ 32 := by
    cases r with
    | nil => decide
    | cons q r => exact (h.sized (b := q) (by simp)).2.2
  have hadj := adjusted_lt size.toNat
  have hptr : BitVec.ofNat 64 (b.addr + 16) ≠ 0 := ofNat_ne_zero (by omega) (by omega)
  have hbnext : blockNext m (BitVec.ofNat 64 b.addr) = some (BitVec.ofNat 64 (b.stop 8)) :=
    blockNext_of_tag htag hs
  have hused : ¬blockIsFree m (BitVec.ofNat 64 b.addr) := by
    rw [blockIsFree_of_tag htag hs.1, hb]
    simp
  have hfree : ¬blockIsFree m (BitVec.ofNat 64 (b.stop 8)) ↔ nextIsFree r = false := by
    rw [blockIsFree_of_tag hnext hn8]
    simp
  have hcomb : BitVec.ofNat 64 b.size + BitVec.ofNat 64 (nextSize r) + blockHeaderOverhead =
      BitVec.ofNat 64 (b.size + nextSize r + 8) := by
    rw [BitVec.ofNat_add, BitVec.ofNat_add]
    rfl
  have hcur : BitVec.ofNat 64 b.size < BitVec.ofNat 64 (adjusted size.toNat) ↔
      b.size < adjusted size.toNat := ofNat_lt_iff (by omega) (by omega)
  have hboth : BitVec.ofNat 64 (b.size + nextSize r + 8) < BitVec.ofNat 64 (adjusted size.toNat) ↔
      b.size + nextSize r + 8 < adjusted size.toNat := ofNat_lt_iff (by omega) (by omega)
  have hmin : (if BitVec.ofNat 64 b.size < size then BitVec.ofNat 64 b.size else size) =
      BitVec.ofNat 64 (min b.size size.toNat) := by
    have hlt : BitVec.ofNat 64 b.size < size ↔ b.size < size.toNat := by
      rw [BitVec.lt_def, toNat_ofNat_of_lt (by omega)]
    by_cases hbs : b.size < size.toNat
    · rw [if_pos (hlt.mpr hbs), Nat.min_eq_left hbs.le]
    · rw [if_neg (fun h => hbs (hlt.mp h)), Nat.min_eq_right (by omega), BitVec.ofNat_toNat,
        BitVec.setWidth_eq]
  unfold tlsfRealloc
  rw [if_neg (fun h => hsize0 h.2), if_neg hptr]
  simp only [blockFromPtr_ofNat, hbnext, blockSize_of_tag htag hs.1, blockSize_of_tag hnext hn8, hcomb,
    adjustRequestSize_eq, tlsfAssert, if_pos hused, hcur, hboth, hfree, hmin, Option.bind_eq_bind,
    Option.bind_some]

/-- **`tlsf_realloc` keeps the heap, and the bytes that both sizes have**, or gives `NULL` and changes
nothing. -/
theorem Sound.realloc (h : Sound m c s e l) (hb : b ∈ usedOf l) (size : Word)
    (hn : adjusted size.toNat ≠ 0) :
    (tlsfRealloc m (BitVec.ofNat 64 c) (BitVec.ofNat 64 (b.addr + 16)) size = some (0, m) ∧
      NoFit l (adjusted size.toNat)) ∨
    ∃ d m' l', tlsfRealloc m (BitVec.ofNat 64 c) (BitVec.ofNat 64 (b.addr + 16)) size =
        some (BitVec.ofNat 64 (d.addr + 16), m') ∧
      Sound m' c s e l' ∧ adjusted size.toNat ≤ d.size ∧
      Moved c e m m' l l' b d (min b.size (adjusted size.toNat)) := by
  have hsized := sized_adjusted hn
  obtain ⟨hmem, hused⟩ := mem_usedOf.mp hb
  obtain ⟨p, r, rfl⟩ := List.append_of_mem hmem
  have hsize0 : size ≠ 0 := by
    rintro rfl
    exact hn rfl
  rw [tlsfRealloc_eq h.arena.row hused hsize0]
  by_cases hmove : b.size < adjusted size.toNat ∧
      (nextIsFree r = false ∨ b.size + nextSize r + 8 < adjusted size.toNat)
  · rw [if_pos hmove]
    rcases h.malloc_given size with ⟨heq, hnone⟩ | ⟨d, m₁, l₁, heq, h₁, -, hnd, hgiven⟩
    · left
      exact ⟨by simp [heq], hnone⟩
    · right
      have hdmem := (hgiven.mem_iff d).mpr (Or.inl rfl)
      have hdlt := h₁.arena.row.addr_lt (mem_usedOf.mp hdmem).1
      have hne : BitVec.ofNat 64 (d.addr + 16) ≠ 0 := ofNat_ne_zero (by omega) (by omega)
      have hb8 := h.arena.row.sized (b := b) (by simp)
      have hbs := lt_of_lt_adjusted hb8.1 hb8.2.1 hmove.1
      obtain ⟨m', l', hfree, hsound, hmoved⟩ :=
        Sound.move (k := b.size) hb h₁ hgiven le_rfl (by omega)
      rw [Nat.min_eq_left hmove.1.le, Nat.min_eq_left hbs.le]
      refine ⟨d, m', l', ?_, hsound, hnd, hmoved⟩
      simp only [heq, Option.bind_eq_bind, Option.bind_some, if_pos hne, hfree]
      rfl
  · rw [if_neg hmove]
    right
    by_cases hlt : b.size < adjusted size.toNat
    · rw [if_pos hlt]
      obtain ⟨q, r, rfl⟩ : ∃ q r', r = q :: r' := by
        cases r with
        | nil => exact absurd ⟨hlt, Or.inl rfl⟩ hmove
        | cons q r => exact ⟨q, r, rfl⟩
      have hq : q.free = true := by
        cases hq : q.free with
        | true => rfl
        | false => exact absurd ⟨hlt, Or.inl hq⟩ hmove
      have hroom : adjusted size.toNat ≤ b.size + q.size + 8 := by
        by_contra hno
        exact hmove ⟨hlt, Or.inr (by show b.size + q.size + 8 < _; omega)⟩
      obtain ⟨m₁, m₂, hmerge, hmark, h₂, hgrown⟩ := h.grow hused hq
      obtain ⟨m', d, htrim, h', haddr, hnd, hmoved⟩ := h₂.trim hused hsized
        (by show _ ≤ b.size + (q.size + 8); omega)
      rw [Block.join_addr] at htrim haddr
      refine ⟨d, m', _, ?_, h', by omega, ?_⟩
      · rw [haddr]
        simp only [hmerge, hmark, htrim, Option.bind_eq_bind, Option.bind_some]
        rfl
      · refine (hgrown.mono (by omega)).trans (hmoved.mono (by omega)) fun z hz hzb hzd => ?_
        have hza : z.addr = b.addr := by rw [hzd, Block.join_addr]
        exact hzb (h.arena.row.tiles.eq_of_addr (by omega) (mem_usedOf.mp hz).1 hmem hza)
    · rw [if_neg hlt]
      obtain ⟨m', d, htrim, h', haddr, hnd, hmoved⟩ := h.trim hused hsized (by omega)
      refine ⟨d, m', _, ?_, h', by omega, hmoved.mono (by omega)⟩
      rw [haddr]
      simp only [htrim, Option.bind_eq_bind, Option.bind_some]
      rfl

end AncoreOS.Heap
