import AncoreOS.Heap.TlsfHeap

/-!
# The operations

Each function of the allocator that changes the row changes it as the operation of the same purpose
in `BlockTiling` does: `block_merge_prev` and `block_merge_next` are `mergeBack` and `mergeFront`,
`block_prepare_used` is `allot`, `tlsf_free` is `release` and the end of `tlsf_realloc` is `trim`.

No assertion fails on the way, since the functions are equal to `some` result.
-/

namespace AncoreOS.Heap

open ByteMemory WordCells BlockTiling

variable {m m' : Mem} {c s e x t n : Nat} {l l' p r : List Block} {b d q : Block} {hand hand' : List Nat}

theorem Kept.of_used (h : Kept c e l m m') (hused : usedOf l' = usedOf l) : Kept c e l' m m' := by
  refine h.mono fun b hb hfree y hy => ⟨b, ?_, hfree, hy⟩
  have hmem : b ∈ usedOf l' := mem_usedOf.mpr ⟨hb, hfree⟩
  rw [hused] at hmem
  exact (mem_usedOf.mp hmem).1

/-! ### Neighbours -/

/-- Whether the last block of a part of the row is free. -/
def lastIsFree (p : List Block) : Bool := (p.getLast?.map Block.free).getD false

theorem Seg.last_eq {a : Nat} {prev last : Bool} (h : Seg m a prev p x last) :
    last = (p.getLast?.map Block.free).getD prev := by
  induction p generalizing a prev with
  | nil => exact h.2.symm
  | cons b p ih =>
    rw [ih h.2]
    cases p with
    | nil => rfl
    | cons q p => simp [List.getLast?_cons]

/-- The words around a block. -/
theorem Row.around (h : Row m s (p ++ b :: r) e) :
    word m (b.addr + 8) = tag b.size b.free (lastIsFree p) ∧
      word m (b.stop 8 + 8) = tag (nextSize r) (nextIsFree r) b.free ∧ nextSize r % 8 = 0 := by
  obtain ⟨-, -, -, last, hseg, hend⟩ := h
  obtain ⟨x, mid, hp, hb, hr⟩ := seg_append.mp hseg
  refine ⟨?_, ?_, nextSize_mod hr⟩
  · rw [hb.addr, hb.tag, hp.last_eq]
    rfl
  · cases r with
    | nil =>
      obtain ⟨rfl, rfl⟩ := hr
      exact hend
    | cons d r => exact hr.1.tag

/-- A free block is known to the one behind it. -/
theorem Row.before (h : Row m s (p ++ q :: b :: r) e) (hq : q.free = true) :
    word m b.addr = BitVec.ofNat 64 q.addr := by
  obtain ⟨-, -, -, last, hseg, -⟩ := h
  obtain ⟨x, mid, -, hqa, hb, -⟩ := seg_append.mp hseg
  rw [hb.addr, hqa.foot hq, hqa.addr]

theorem Arena.ne_zero (h : Arena m c s e l hand) (hb : b ∈ l) : BitVec.ofNat 64 b.addr ≠ 0 := by
  have hpos := h.control_pos
  have hle := h.control_le
  have haddr := h.row.addr_lt hb
  exact ofNat_ne_zero (by omega) (by omega)

/-! ### Merging -/

theorem Arena.absorb (h : Arena m c s e (p ++ b :: d :: r) hand) (hb : b.free = true)
    (hd : d.free = true) (hbh : b.addr ∈ hand) (hdh : d.addr ∈ hand)
    (hhand : ∀ x ∈ hand, x = b.addr ∨ x = d.addr) :
    ∃ m', blockAbsorb m (BitVec.ofNat 64 b.addr) (BitVec.ofNat 64 d.addr) = some m' ∧
      Arena m' c s e (p ++ b.join 8 d :: r) [b.addr] ∧ Kept c e (p ++ b :: d :: r) m m' := by
  obtain ⟨m', heq, hrow, hframe⟩ := h.row.absorb hb hd
  have hd' : ∀ q, q ∈ p ∨ q ∈ r → q.addr ≠ d.addr := by
    intro q hq
    refine Tiles.addr_ne (l := p ++ [b]) (by simpa using h.row.tiles) (by omega) ?_
    rcases hq with hq | hq
    · exact Or.inl (List.mem_append_left _ hq)
    · exact Or.inr hq
  have hjoin : (b.join 8 d).addr = b.addr := rfl
  refine ⟨m', heq, h.of_row hrow hframe fun q hq => ?_, ?_⟩
  · simp only [List.mem_append, List.mem_cons, List.not_mem_nil, or_false]
    constructor
    · rintro ⟨hq | rfl | rfl | hq, hno⟩
      · exact ⟨Or.inl hq, fun he => hno (he ▸ hbh)⟩
      · exact absurd hbh hno
      · exact absurd hdh hno
      · exact ⟨Or.inr (Or.inr hq), fun he => hno (he ▸ hbh)⟩
    · rintro ⟨hq | rfl | hq, hno⟩
      · exact ⟨Or.inl hq, fun hx => (hhand _ hx).elim hno (hd' q (Or.inl hq))⟩
      · exact absurd hjoin hno
      · exact ⟨Or.inr (Or.inr (Or.inr hq)), fun hx => (hhand _ hx).elim hno (hd' q (Or.inr hq))⟩
  · refine (hframe.kept h.control_le).of_used ?_
    rw [usedOf_append, usedOf_append, usedOf_cons_free hb, usedOf_cons_free hd,
      usedOf_cons_free (b := b.join 8 d) hb]

/-- **`block_merge_prev` joins a block with a free one before it.** -/
theorem Arena.mergePrev (h : Arena m c s e (p ++ b :: r) [b.addr]) (hb : b.free = true) :
    ∃ m', blockMergePrev m (BitVec.ofNat 64 c) (BitVec.ofNat 64 b.addr) =
        some (BitVec.ofNat 64 (mergeBack 8 p b).2.addr, m') ∧
      Arena m' c s e ((mergeBack 8 p b).1 ++ (mergeBack 8 p b).2 :: r) [(mergeBack 8 p b).2.addr] ∧
      Kept c e (p ++ b :: r) m m' := by
  obtain ⟨htag, -, -⟩ := h.row.around
  have h8 := (h.row.sized (b := b) (by simp)).1
  have hprev := blockIsPrevFree_of_tag htag h8
  rcases mergeBack_cases 8 p b with ⟨p, q, rfl, hq, heq⟩ | ⟨hends, heq⟩
  · rw [heq]
    have hrow : Row m s (p ++ q :: b :: r) e := by simpa using h.row
    have hpf : blockIsPrevFree m (BitVec.ofNat 64 b.addr) := hprev.mpr (by simp [lastIsFree, hq])
    have hqtag := hrow.around.1
    have hqfree : blockIsFree m (BitVec.ofNat 64 q.addr) :=
      (blockIsFree_of_tag hqtag (h.row.sized (b := q) (by simp)).1).mpr hq
    have hne : BitVec.ofNat 64 q.addr ≠ 0 := h.ne_zero (b := q) (by simp)
    have hqb : q.addr ∉ [b.addr] := by
      simpa using h.row.tiles.addr_ne (by omega) (c := q) (Or.inl (by simp))
    obtain ⟨m₁, htake, harena₁, hkept₁⟩ := h.take_remove (b := q) (by simp) hq hqb
    have harena₁' : Arena m₁ c s e (p ++ q :: b :: r) [q.addr, b.addr] := by simpa using harena₁
    obtain ⟨m₂, habsorb, harena₂, hkept₂⟩ :=
      harena₁'.absorb hq hb (by simp) (by simp) (by simp)
    refine ⟨m₂, ?_, harena₂, hkept₁.trans (by simpa using hkept₂)⟩
    simp only [blockMergePrev, if_pos hpf, blockPrev, tlsfAssert, prevPhysBlock_ofNat, hrow.before hq,
      if_pos hne, if_pos hqfree, htake, habsorb, Option.pure_def, Option.bind_eq_bind, Option.bind_some]
    rfl
  · rw [heq]
    have hpf : ¬blockIsPrevFree m (BitVec.ofNat 64 b.addr) := by
      rw [hprev, lastIsFree]
      cases hlast : p.getLast? with
      | none => simp
      | some q => simp [hends q hlast]
    refine ⟨m, ?_, h, Kept.refl c e _ m⟩
    rw [blockMergePrev, if_neg hpf]

/-- **`block_merge_next` joins a block with a free one behind it.** -/
theorem Arena.mergeNext (h : Arena m c s e (p ++ b :: r) [b.addr]) (hb : b.free = true) :
    ∃ m', blockMergeNext m (BitVec.ofNat 64 c) (BitVec.ofNat 64 b.addr) = some m' ∧
      Arena m' c s e (p ++ (mergeFront 8 b r).1 :: (mergeFront 8 b r).2) [b.addr] ∧
      Kept c e (p ++ b :: r) m m' := by
  obtain ⟨htag, hnext, hn8⟩ := h.row.around
  have hs := h.row.sized (b := b) (by simp)
  have hbounds := h.row.addr_lt (b := b) (by simp)
  have hbnext : blockNext m (BitVec.ofNat 64 b.addr) = some (BitVec.ofNat 64 (b.stop 8)) :=
    blockNext_of_tag htag hs
  have hne : BitVec.ofNat 64 (b.stop 8) ≠ 0 := by
    refine ofNat_ne_zero ?_ ?_ <;> unfold Block.stop <;> omega
  have hfree := blockIsFree_of_tag hnext hn8
  rcases mergeFront_cases 8 b r with ⟨q, r, rfl, hq, heq⟩ | ⟨hstarts, heq⟩
  · rw [heq]
    have hqa : q.addr = b.stop 8 := by
      obtain ⟨x, -, -, hqa, -⟩ := tiles_append.mp h.row.tiles
      exact hqa
    have hnf : blockIsFree m (BitVec.ofNat 64 (b.stop 8)) := hfree.mpr hq
    have hlast : ¬blockIsLast m (BitVec.ofNat 64 b.addr) := by
      rw [blockIsLast_of_tag htag hs.1 hs.2.2]
      omega
    have hqb : q.addr ∉ [b.addr] := by
      simpa using h.row.tiles.addr_ne (by omega) (c := q) (Or.inr (by simp))
    obtain ⟨m₁, htake, harena₁, hkept₁⟩ := h.take_remove (b := q) (by simp) hq hqb
    have hlast₁ : ¬blockIsLast m₁ (BitVec.ofNat 64 b.addr) := by
      rw [blockIsLast_of_tag harena₁.row.around.1 hs.1 hs.2.2]
      omega
    obtain ⟨m₂, habsorb, harena₂, hkept₂⟩ :=
      harena₁.absorb hb hq (by simp) (by simp) (by simp [or_comm])
    rw [hqa] at htake habsorb
    refine ⟨m₂, ?_, harena₂, hkept₁.trans hkept₂⟩
    simp only [blockMergeNext, hbnext, tlsfAssert, if_pos hne, if_pos hnf, if_pos hlast, htake, habsorb,
      Option.bind_eq_bind, Option.bind_some]
  · rw [heq]
    have hnf : ¬blockIsFree m (BitVec.ofNat 64 (b.stop 8)) := by
      rw [hfree, nextIsFree]
      cases hhead : r.head? with
      | none => simp
      | some q => simp [hstarts q hhead]
    refine ⟨m, ?_, h, Kept.refl c e _ m⟩
    simp only [blockMergeNext, hbnext, tlsfAssert, if_pos hne, if_neg hnf, Option.bind_eq_bind,
      Option.bind_some]
    rfl

/-! ### Cutting -/

/-- A block in hand is cut, and both parts are in hand. -/
theorem Arena.of_cut (h : Arena m c s e (p ++ b :: r) hand) (hbh : ∀ x, x ∈ hand ↔ x = b.addr)
    (hrow : Row m' s (p ++ b.front t :: b.rest 8 t :: r) e)
    (hframe : Frame s e (p ++ b.front t :: b.rest 8 t :: r) m m') :
    Arena m' c s e (p ++ b.front t :: b.rest 8 t :: r) [(b.rest 8 t).addr, b.addr] := by
  have hrest : ∀ q, q ∈ p ∨ q ∈ r → q.addr ≠ (b.rest 8 t).addr := by
    intro q hq
    refine Tiles.addr_ne (l := p ++ [b.front t]) (by simpa using hrow.tiles) (by omega) ?_
    rcases hq with hq | hq
    · exact Or.inl (List.mem_append_left _ hq)
    · exact Or.inr hq
  have hfront : (b.front t).addr = b.addr := rfl
  refine h.of_row hrow hframe fun q hq => ?_
  simp only [List.mem_append, List.mem_cons, List.not_mem_nil, or_false, hbh, not_or]
  constructor
  · rintro ⟨hq | rfl | hq, hno⟩
    · exact ⟨Or.inl hq, hrest q (Or.inl hq), hno⟩
    · exact absurd rfl hno
    · exact ⟨Or.inr (Or.inr (Or.inr hq)), hrest q (Or.inr hq), hno⟩
  · rintro ⟨hq | rfl | rfl | hq, hno, hno'⟩
    · exact ⟨Or.inl hq, hno'⟩
    · exact absurd hfront hno'
    · exact absurd rfl hno
    · exact ⟨Or.inr (Or.inr hq), hno'⟩

/-- The rest of a cut block has another address. -/
theorem rest_addr_ne (b : Block) (t : Nat) : (b.rest 8 t).addr ≠ b.addr := by
  simp only [Block.rest]
  omega

theorem Arena.trimFree (h : Arena m c s e (p ++ b :: r) [b.addr]) (hb : b.free = true) (ht : Sized t)
    (hfit : 32 + t ≤ b.size) :
    ∃ m', blockTrimFree m (BitVec.ofNat 64 c) (BitVec.ofNat 64 b.addr) (BitVec.ofNat 64 t) = some m' ∧
      Arena m' c s e (p ++ b.front t :: b.rest 8 t :: r) [b.addr] ∧ Kept c e (p ++ b :: r) m m' := by
  have htag := h.row.around.1
  have hs := h.row.sized (b := b) (by simp)
  have hfree : blockIsFree m (BitVec.ofNat 64 b.addr) := (blockIsFree_of_tag htag hs.1).mpr hb
  have hcan : blockCanSplit m (BitVec.ofNat 64 b.addr) (BitVec.ofNat 64 t) :=
    (blockCanSplit_of_tag htag hs ht.2.2).mpr hfit
  obtain ⟨m₁, m₂, hsplit, hlink, hrow, hframe⟩ := h.row.splitFree hb ht hfit
  have hcut := h.of_cut (by simp) hrow hframe
  obtain ⟨m₃, hput, harena, hkept⟩ := hcut.put (b := b.rest 8 t) (by simp) rfl
    (by simpa using rest_addr_ne b t)
  have hused : usedOf (p ++ b :: r) = usedOf (p ++ b.front t :: b.rest 8 t :: r) := by
    rw [usedOf_append, usedOf_append, usedOf_cons_free hb, usedOf_cons_free (b := b.front t) hb,
      usedOf_cons_free rfl]
  refine ⟨m₃, ?_, harena, ((hframe.kept h.control_le).trans hkept).of_used hused⟩
  simp only [blockTrimFree, tlsfAssert, if_pos hfree, if_pos hcan, hsplit, hlink, hput,
    Option.bind_eq_bind, Option.bind_some]

/-- **`block_prepare_used` allots a block that is in hand.** -/
theorem Arena.prepareUsed (h : Arena m c s e (p ++ b :: r) [b.addr]) (hb : b.free = true)
    (ht : Sized t) :
    ∃ m', blockPrepareUsed m (BitVec.ofNat 64 c) (BitVec.ofNat 64 b.addr) (BitVec.ofNat 64 t) =
        some (BitVec.ofNat 64 (b.addr + 16), m') ∧
      Arena m' c s e (p ++ allot 8 24 b t ++ r) [] ∧ Kept c e (p ++ b :: r) m m' := by
  have htag := h.row.around.1
  have hs := h.row.sized (b := b) (by simp)
  have hne := h.ne_zero (b := b) (by simp)
  have hfree : blockIsFree m (BitVec.ofNat 64 b.addr) := (blockIsFree_of_tag htag hs.1).mpr hb
  have ht0 : BitVec.ofNat 64 t ≠ 0 := ofNat_ne_zero (by omega) (by omega)
  have hmark : ∀ {m₁ d r'}, Arena m₁ c s e (p ++ d :: r') [b.addr] → d.addr = b.addr → d.free = true →
      ∃ m', blockMarkAsUsed m₁ (BitVec.ofNat 64 b.addr) = some m' ∧
        Arena m' c s e (p ++ { d with free := false } :: r') [] ∧ Kept c e (p ++ d :: r') m₁ m' := by
    intro m₁ d r' h₁ hd hdf
    obtain ⟨m', heq, hrow, hframe⟩ := h₁.row.markUsed
    rw [hd] at heq
    refine ⟨m', heq, h₁.of_row hrow hframe fun q hq => ?_, (hframe.kept h.control_le).mono ?_⟩
    · simp only [List.mem_append, List.mem_cons, List.not_mem_nil, or_false, not_false_eq_true, and_true]
      constructor
      · rintro ⟨hq | rfl | hq, hno⟩
        · exact Or.inl hq
        · exact absurd hd hno
        · exact Or.inr (Or.inr hq)
      · rintro (hq' | rfl | hq')
        · exact ⟨Or.inl hq', hd ▸ h₁.row.tiles.addr_ne (by omega) (Or.inl hq')⟩
        · cases hq
        · exact ⟨Or.inr (Or.inr hq'), hd ▸ h₁.row.tiles.addr_ne (by omega) (Or.inr hq')⟩
    · intro q hq hqf y hy
      refine ⟨q, ?_, hqf, hy⟩
      simp only [List.mem_append, List.mem_cons] at hq ⊢
      rcases hq with hq | rfl | hq
      · exact Or.inl hq
      · rw [hdf] at hqf
        cases hqf
      · exact Or.inr (Or.inr hq)
  have hcan := blockCanSplit_of_tag htag hs ht.2.2
  by_cases hfit : 32 + t ≤ b.size
  · obtain ⟨m₁, htrim, harena₁, hkept₁⟩ := h.trimFree hb ht hfit
    obtain ⟨m', hused, harena, hkept⟩ := hmark harena₁ rfl hb
    have hsame : usedOf (p ++ b :: r) = usedOf (p ++ b.front t :: b.rest 8 t :: r) := by
      rw [usedOf_append, usedOf_append, usedOf_cons_free hb, usedOf_cons_free (b := b.front t) hb,
        usedOf_cons_free rfl]
    refine ⟨m', ?_, ?_, hkept₁.trans (hkept.of_used hsame)⟩
    · simp only [blockPrepareUsed, if_pos hne, tlsfAssert, if_pos ht0, htrim, hused, blockToPtr_ofNat,
        Option.pure_def, Option.bind_eq_bind, Option.bind_some]
    · rw [allot, if_pos hfit]
      simpa using harena
  · obtain ⟨m', hused, harena, hkept⟩ := hmark h rfl hb
    refine ⟨m', ?_, ?_, hkept⟩
    · simp only [blockPrepareUsed, if_pos hne, blockTrimFree, tlsfAssert, if_pos ht0, if_pos hfree,
        if_neg (fun hsplit => hfit (hcan.mp hsplit)), hused, blockToPtr_ofNat, Option.pure_def,
        Option.bind_eq_bind, Option.bind_some]
    · rw [allot, if_neg hfit]
      simpa using harena

/-- **`block_trim_used` trims a used block.** -/
theorem Arena.trimUsed (h : Arena m c s e (p ++ b :: r) []) (hb : b.free = false) (ht : Sized t) :
    ∃ m', blockTrimUsed m (BitVec.ofNat 64 c) (BitVec.ofNat 64 b.addr) (BitVec.ofNat 64 t) = some m' ∧
      Arena m' c s e (trim 8 24 p b t r) [] ∧ Kept c e (trim 8 24 p b t r) m m' := by
  have htag := h.row.around.1
  have hs := h.row.sized (b := b) (by simp)
  have hused : ¬blockIsFree m (BitVec.ofNat 64 b.addr) := by
    rw [blockIsFree_of_tag htag hs.1, hb]
    simp
  have hcan := blockCanSplit_of_tag htag hs ht.2.2
  by_cases hfit : 32 + t ≤ b.size
  · obtain ⟨m₁, hsplit, hrow, hframe⟩ := h.row.splitUsed hb ht hfit
    have hcut : Arena (blockSetPrevUsed m₁ (BitVec.ofNat 64 (b.rest 8 t).addr)) c s e
        (p ++ b.front t :: b.rest 8 t :: r) [(b.rest 8 t).addr] := by
      refine h.of_row hrow hframe fun q hq => ?_
      have hrest : ∀ q, q ∈ p ∨ q ∈ r → q.addr ≠ (b.rest 8 t).addr := by
        intro q hq
        refine Tiles.addr_ne (l := p ++ [b.front t]) (by simpa using hrow.tiles) (by omega) ?_
        rcases hq with hq | hq
        · exact Or.inl (List.mem_append_left _ hq)
        · exact Or.inr hq
      simp only [List.mem_append, List.mem_cons, List.not_mem_nil, or_false, not_false_eq_true, and_true]
      constructor
      · rintro (hq' | rfl | hq')
        · exact ⟨Or.inl hq', hrest q (Or.inl hq')⟩
        · rw [hb] at hq
          cases hq
        · exact ⟨Or.inr (Or.inr (Or.inr hq')), hrest q (Or.inr hq')⟩
      · rintro ⟨hq' | rfl | rfl | hq', hno⟩
        · exact Or.inl hq'
        · exact absurd (hq.symm.trans hb) (by simp)
        · exact absurd rfl hno
        · exact Or.inr (Or.inr hq')
    have hcut' : Arena (blockSetPrevUsed m₁ (BitVec.ofNat 64 (b.rest 8 t).addr)) c s e
        ((p ++ [b.front t]) ++ b.rest 8 t :: r) [(b.rest 8 t).addr] := by simpa using hcut
    obtain ⟨m₂, hmerge, harena₂, hkept₂⟩ := hcut'.mergeNext rfl
    have harena₂' : Arena m₂ c s e ((p ++ [b.front t]) ++ (mergeFront 8 (b.rest 8 t) r).1 ::
        (mergeFront 8 (b.rest 8 t) r).2) [(mergeFront 8 (b.rest 8 t) r).1.addr] := by
      rw [mergeFront_addr]
      exact harena₂
    obtain ⟨m₃, hput, harena₃, hkept₃⟩ := harena₂'.put (by simp) (mergeFront_free rfl) (by simp)
    rw [mergeFront_addr] at hput
    have heq : trim 8 24 p b t r = (p ++ [b.front t]) ++ (mergeFront 8 (b.rest 8 t) r).1 ::
        (mergeFront 8 (b.rest 8 t) r).2 := by
      rw [trim, if_pos hfit]
      simp
    have hsame : usedOf ((p ++ [b.front t]) ++ (mergeFront 8 (b.rest 8 t) r).1 ::
        (mergeFront 8 (b.rest 8 t) r).2) = usedOf ((p ++ [b.front t]) ++ b.rest 8 t :: r) := by
      rw [usedOf_append, usedOf_append (l := p ++ [b.front t]) (r := b.rest 8 t :: r),
        usedOf_cons_free (mergeFront_free rfl), usedOf_mergeFront,
        usedOf_cons_free (b := b.rest 8 t) rfl]
    have hkept₁ : Kept c e ((p ++ [b.front t]) ++ b.rest 8 t :: r) m
        (blockSetPrevUsed m₁ (BitVec.ofNat 64 (b.rest 8 t).addr)) := by
      simpa using hframe.kept h.control_le
    rw [heq]
    refine ⟨m₃, ?_, harena₃, ((hkept₁.trans hkept₂).of_used hsame).trans hkept₃⟩
    simp only [blockTrimUsed, tlsfAssert, if_pos hused, if_pos (hcan.mpr hfit), hsplit, hmerge, hput,
      Option.bind_eq_bind, Option.bind_some]
  · refine ⟨m, ?_, ?_, ?_⟩
    · simp only [blockTrimUsed, tlsfAssert, if_pos hused, if_neg (fun hsplit => hfit (hcan.mp hsplit)),
        Option.pure_def, Option.bind_eq_bind, Option.bind_some]
    · rw [trim, if_neg hfit]
      exact h
    · exact Kept.refl c e _ m

/-! ### Finding a block -/

theorem searchClass_le {n : Nat} (hn : n < 2 ^ 32) : searchClass n ≤ 800 := by
  have hval : SizeClasses.value 5 800 = 2 ^ 29 := by decide
  rw [searchClass, SizeClasses.codeUp_le_iff, hval]
  omega

/-- What the search for `n` bytes may give: a free block of the least class that will do. -/
structure Fits (l : List Block) (n : Nat) (b : Block) : Prop where
  mem : b ∈ l
  free : b.free = true
  large : searchClass n ≤ sizeClass b.size
  least : ∀ d ∈ l, d.free = true → searchClass n ≤ sizeClass d.size → sizeClass b.size ≤ sizeClass d.size

/-- **`block_locate_free` takes a block of the least class that will do, and finds one if there is
one.** -/
theorem Arena.locate (h : Arena m c s e l []) (hn : Sized n) :
    (blockLocateFree m (BitVec.ofNat 64 c) (BitVec.ofNat 64 n) = some (0, m) ∧
      ∀ b ∈ l, b.free = true → sizeClass b.size < searchClass n) ∨
    ∃ b m', Fits l n b ∧ n ≤ b.size ∧
      blockLocateFree m (BitVec.ofNat 64 c) (BitVec.ofNat 64 n) = some (BitVec.ofNat 64 b.addr, m') ∧
      Arena m' c s e l [b.addr] ∧ Kept c e l m m' := by
  obtain ⟨n8, n24, nlt⟩ := hn
  have hn0 : BitVec.ofNat 64 n ≠ 0 := ofNat_ne_zero (by omega) (by omega)
  have hmap : mappingSearch (BitVec.ofNat 64 n) = (searchClass n / 32, searchClass n % 32) :=
    mappingSearch_eq nlt n8
  have hcls := searchClass_le nlt
  have hidx : searchClass n / 32 < flIndexCount ↔ searchClass n < 800 := by
    rw [show flIndexCount = 25 from rfl]
    omega
  unfold blockLocateFree
  simp only [if_pos hn0, hmap]
  by_cases hin : searchClass n < 800
  · rw [if_pos (hidx.mpr hin)]
    obtain ⟨lists, hlists, hmem⟩ := h.lists
    rcases hlists.search hin with ⟨i, j, hnone, hempty⟩ | ⟨k, hk, hk', hne, hbefore, hfound⟩
    · left
      refine ⟨?_, fun b hb hfree => ?_⟩
      · simp [hnone]
      · by_contra hlarge
        have hb' : b.addr ∈ lists (sizeClass b.size) :=
          (hmem _ (sizeClass_lt (h.row.sized hb).2.2) _).mpr ⟨b, hb, hfree, rfl, rfl, by simp⟩
        rw [hempty _ (by omega) (sizeClass_lt (h.row.sized hb).2.2)] at hb'
        simp at hb'
    · right
      have hhead : (lists k).headD c ∈ lists k := by
        rcases headD_cases (lists k) c with ⟨-, hnil⟩ | hmem
        · exact absurd hnil hne
        · exact hmem
      obtain ⟨b, hb, hfree, haddr, hcls, -⟩ := (hmem k hk' _).mp hhead
      rw [← haddr] at hfound
      subst hcls
      have hle : n ≤ b.size := le_of_searchClass_le n8 hk
      have hsize : BitVec.ofNat 64 n ≤ blockSize m (BitVec.ofNat 64 b.addr) := by
        obtain ⟨prev, htag⟩ := h.row.tag_of_mem hb
        obtain ⟨b8, -, blt⟩ := h.row.sized hb
        rw [blockSize_of_tag htag b8, ofNat_le_iff (by omega) (by omega)]
        exact hle
      obtain ⟨m', htake, harena, hkept⟩ := h.take hb hfree (by simp)
      refine ⟨b, m', ⟨hb, hfree, hk, fun d hd hdf hdn => ?_⟩, hle, ?_, harena, hkept⟩
      · by_contra hless
        have hd' : d.addr ∈ lists (sizeClass d.size) :=
          (hmem _ (sizeClass_lt (h.row.sized hd).2.2) _).mpr ⟨d, hd, hdf, rfl, rfl, by simp⟩
        rw [hbefore _ hdn (by omega)] at hd'
        simp at hd'
      · simp only [hfound, tlsfAssert, if_pos (h.ne_zero hb), if_pos hsize, htake, Option.pure_def,
          Option.bind_eq_bind, Option.bind_some]
  · left
    rw [if_neg (fun hlt => hin (hidx.mp hlt))]
    refine ⟨by simp, fun b hb _ => ?_⟩
    have := sizeClass_lt (h.row.sized hb).2.2
    omega

end AncoreOS.Heap
