import AncoreOS.Heap.TlsfRun

/-!
# A refused size

`tlsf_malloc` answers a size that is refused with `NULL`.  `tlsf_realloc` takes the adjusted size, which
is zero, for one that the block has already, and trims the block to it (`Arena.trimToNothing`).  The
client gets its pointer back and may free it, but a block of no size is taken for the last one of the
pool, and the assertion in `block_next` fails (`realloc_then_free_fails_iff`).
-/

namespace AncoreOS.Heap

open ByteMemory WordCells BlockTiling

variable {m m' : Mem} {c s e x y n : Nat} {l p r : List Block} {b q : Block} {hand : List Nat}

/-- A free block lies before a used one or behind it. -/
theorem Arena.beside (h : Arena m c s e l hand) (hb : b ∈ l) (hused : b.free = false)
    (hx : Node l x) : x + 32 ≤ b.addr ∨ b.stop 8 ≤ x := by
  obtain ⟨d, hd, hfree, rfl⟩ := hx
  have hds := (h.row.sized hd).2.1
  rcases h.row.tiles.apart hd hb with rfl | hdb | hdb
  · rw [hused] at hfree
    cases hfree
  · simp only [Block.stop] at hdb
    omega
  · exact Or.inr hdb

/-- The rest of a block that was trimmed to nothing takes the free block behind it. -/
theorem Arena.absorbBehind {lists : Nat → List Nat} {nfree : Bool} (h : Arena m c s e (p ++ b :: q :: r) [])
    (hlists : FreeLists m' c lists)
    (hmem : ∀ n < 800, ∀ x, x ∈ lists n ↔ ∃ d ∈ p ++ b :: q :: r, d.free = true ∧ d.addr = x ∧
      sizeClass d.size = n ∧ x ∉ [])
    (hb : b.free = false) (hq : q.free = true) (hfit : 32 ≤ b.size)
    (hrest : word m' (b.addr + 8 + 8) = tag (b.size - 8) true false)
    (hnext : word m' (b.addr + 8 + b.size + 8) = tag q.size q.free true)
    (htag : word m' (b.addr + 8) = tag 0 false nfree) :
    ∃ m₃ z lists', blockMergeNext m' (BitVec.ofNat 64 c) (BitVec.ofNat 64 (b.addr + 8)) = some m₃ ∧
      FreeLists m₃ c lists' ∧ (∀ x, Filed lists' x → Filed lists x) ∧
      word m₃ (b.addr + 8 + 8) = tag z true false ∧ Sized z ∧
      word m₃ (b.addr + 8) = tag 0 false nfree := by
  have hs := h.row.sized (b := b) (by simp)
  have hqs := h.row.sized (b := q) (by simp)
  have hblt := h.row.addr_lt (b := b) (by simp)
  have hqlt := h.row.addr_lt (b := q) (by simp)
  have hb8 := h.row.addr_mod (b := b) (by simp)
  have hcs := h.control_le
  have hspan := h.row.span
  have hqa : q.addr = b.addr + 8 + b.size := by
    obtain ⟨x, -, -, hqa, -⟩ := tiles_append.mp h.row.tiles
    exact hqa
  have hnode : ∀ x, Filed lists x → Node (p ++ b :: q :: r) x := by
    rintro x ⟨n, hn, hx⟩
    obtain ⟨d, hd, hdfree, hdx, -⟩ := (hmem n hn x).mp hx
    exact ⟨d, hd, hdfree, hdx⟩
  have hsp : Spaced c (Filed lists) := h.spaced.mono hnode
  have hbeside : ∀ x, Filed lists x → x + 32 ≤ b.addr ∨ x = q.addr ∨ q.addr + 8 + q.size ≤ x := by
    intro x hx
    rcases h.beside (by simp) hb (hnode x hx) with hlow | hhigh
    · exact Or.inl hlow
    · obtain ⟨d, hd, -, rfl⟩ := hnode x hx
      simp only [Block.stop] at hhigh
      rcases h.row.tiles.apart hd (c := q) (by simp) with rfl | hdq | hdq
      · exact Or.inr (Or.inl rfl)
      · simp only [Block.stop] at hdq
        omega
      · exact Or.inr (Or.inr hdq)
  have hstop : b.addr + 8 + 8 + (b.size - 8) = b.addr + 8 + b.size := by omega
  have hbnext : blockNext m' (BitVec.ofNat 64 (b.addr + 8)) =
      some (BitVec.ofNat 64 (b.addr + 8 + b.size)) := by
    rw [blockNext_of_tag hrest (by omega), hstop]
  have hne : BitVec.ofNat 64 (b.addr + 8 + b.size) ≠ (0 : Word) := ofNat_ne_zero (by omega) (by omega)
  have hfree : blockIsFree m' (BitVec.ofNat 64 (b.addr + 8 + b.size)) :=
    (blockIsFree_of_tag hnext hqs.1).mpr hq
  have hlast : ¬blockIsLast m' (BitVec.ofNat 64 (b.addr + 8)) := by
    rw [blockIsLast_of_tag hrest (by omega) (by omega)]
    omega
  have hcls := sizeClass_lt hqs.2.2
  obtain ⟨u, v, hsplit⟩ := List.append_of_mem
    ((hmem _ hcls q.addr).mpr ⟨q, by simp, hq, rfl, rfl, by simp⟩)
  obtain ⟨m₃, hremove, hlists₃, hframe₃⟩ := hlists.remove hcls hsp hsplit
  have hsub : ∀ x, Filed (Function.update lists (sizeClass q.size) (u ++ v)) x → Filed lists x := by
    rintro x ⟨n, hn, hx⟩
    by_cases hnq : n = sizeClass q.size
    · subst hnq
      rw [Function.update_self] at hx
      refine ⟨_, hn, ?_⟩
      rw [hsplit]
      exact (List.Sublist.append_left (List.sublist_cons_self q.addr v) u).subset hx
    · rw [Function.update_of_ne hnq] at hx
      exact ⟨n, hn, hx⟩
  have hkeep₃ : ∀ y, Cell y → b.addr + 8 ≤ y → y ≤ b.addr + 8 + b.size + 8 → word m₃ y = word m' y := by
    intro y hy hlow hhigh
    refine hframe₃ y hy (by omega) fun x hx => ?_
    have := hbeside x hx
    omega
  have htake : blockRemove m' (BitVec.ofNat 64 c) (BitVec.ofNat 64 (b.addr + 8 + b.size)) = some m₃ := by
    unfold blockRemove
    rw [blockSize_of_tag hnext hqs.1, mappingInsert_eq (by omega), ← hqa]
    exact hremove
  have hnext₃ : word m₃ (b.addr + 8 + 8 + (b.size - 8) + 8) = tag q.size q.free true := by
    rw [hstop, hkeep₃ _ (by omega) (by omega) (by omega), hnext]
  have hrest₃ : word m₃ (b.addr + 8 + 8) = tag (b.size - 8) true false := by
    rw [hkeep₃ _ (by omega) (by omega) (by omega), hrest]
  obtain ⟨m₄, habsorb, hrest₄, -, hkeep₄⟩ := blockAbsorb_of_tag (a := b.addr + 8) (by omega) (by omega)
    (by omega) (by omega) hrest₃ hnext₃ hqs.1
  rw [hstop] at habsorb
  refine ⟨m₄, _, _, ?_, hlists₃.congr (hsp.mono hsub) (fun y hy hlow => ?_) fun x hx y hy hxy => ?_, hsub,
    hrest₄, by omega, ?_⟩
  · simp only [blockMergeNext, hbnext, tlsfAssert, if_pos hne, if_pos hfree, if_pos hlast, htake, habsorb,
      Option.bind_eq_bind, Option.bind_some]
  · exact hkeep₄ y hy (by omega) (by omega)
  · have := hbeside x (hsub x hx)
    exact hkeep₄ y hy (by omega) (by omega)
  · rw [hkeep₄ _ (by omega) (by omega) (by omega), hkeep₃ _ (by omega) (by omega) (by omega), htag]

/-- **A used block that is trimmed to nothing is left with no size.** -/
theorem Arena.trimToNothing (h : Arena m c s e (p ++ b :: r) []) (hb : b.free = false)
    (hfit : 32 ≤ b.size) :
    ∃ m' prev, blockTrimUsed m (BitVec.ofNat 64 c) (BitVec.ofNat 64 b.addr) (BitVec.ofNat 64 0) =
        some m' ∧ word m' (b.addr + 8) = tag 0 false prev := by
  obtain ⟨htag, hnext, hn8⟩ := h.row.around
  have hs := h.row.sized (b := b) (by simp)
  have hblt := h.row.addr_lt (b := b) (by simp)
  have hb8 := h.row.addr_mod (b := b) (by simp)
  have hcs := h.control_le
  have hspan := h.row.span
  have hused : ¬blockIsFree m (BitVec.ofNat 64 b.addr) := by
    rw [blockIsFree_of_tag htag hs.1, hb]
    simp
  have hcan : blockCanSplit m (BitVec.ofNat 64 b.addr) (BitVec.ofNat 64 0) :=
    (blockCanSplit_of_tag htag hs (by decide)).mpr hfit
  obtain ⟨m₁, g, hsplit, htag₁, hrest₁, -, hnext₁, hkeep₁⟩ :=
    blockSplit_of_tag hb8 (by omega) hs (t := 0) rfl hfit htag hnext hn8
  simp only [Nat.add_zero, Nat.sub_zero] at hsplit hrest₁ hkeep₁
  have hset := blockSetPrevUsed_of_tag hrest₁ (by omega)
  obtain ⟨lists, hlists, hmem⟩ := h.lists
  have hnode : ∀ x, Filed lists x → Node (p ++ b :: r) x := by
    rintro x ⟨n, hn, hx⟩
    obtain ⟨d, hd, hdfree, hdx, -⟩ := (hmem n hn x).mp hx
    exact ⟨d, hd, hdfree, hdx⟩
  have hsp : Spaced c (Filed lists) := h.spaced.mono hnode
  have hbeside : ∀ x, Filed lists x → x + 32 ≤ b.addr ∨ b.addr + 8 + b.size ≤ x :=
    fun x hx => h.beside (by simp) hb (hnode x hx)
  generalize hm₂ : setWord m₁ (b.addr + 8 + 8) (tag (b.size - 8) true false) = m₂ at hset
  have hword₂ : ∀ y, Cell y → y ≠ b.addr + 8 → y ≠ b.addr + 8 + 8 → y ≠ b.addr + 8 + b.size →
      y ≠ b.addr + 8 + b.size + 8 → word m₂ y = word m y := by
    intro y hy h1 h2 h3 h4
    rw [← hm₂, word_setWord_of_ne (by omega) hy h2, hkeep₁ y hy h1 h2 h3 h4]
  have htag₂ : word m₂ (b.addr + 8) = tag 0 false (lastIsFree p) := by
    rw [← hm₂, word_setWord_of_ne (by omega) (by omega) (by omega), htag₁, hb]
  have hrest₂ : word m₂ (b.addr + 8 + 8) = tag (b.size - 8) true false := by
    rw [← hm₂, word_setWord_self]
  have hstop : b.addr + 8 + 8 + (b.size - 8) = b.addr + 8 + b.size := by omega
  have hnext₂ : word m₂ (b.addr + 8 + b.size + 8) = tag (nextSize r) (nextIsFree r) true := by
    rw [← hm₂, word_setWord_of_ne (by omega) (by omega) (by omega), hnext₁]
  have hlists₂ : FreeLists m₂ c lists := by
    refine hlists.congr hsp (fun y hy hlow => hword₂ y hy ?_ ?_ ?_ ?_) fun x hx y hy hxy => ?_
    · omega
    · omega
    · omega
    · omega
    · have := hbeside x hx
      exact hword₂ y hy (by omega) (by omega) (by omega) (by omega)
  have hbnext : blockNext m₂ (BitVec.ofNat 64 (b.addr + 8)) = some (BitVec.ofNat 64 (b.addr + 8 + b.size)) := by
    rw [blockNext_of_tag hrest₂ (by omega), hstop]
  have hne : BitVec.ofNat 64 (b.addr + 8 + b.size) ≠ (0 : Word) := ofNat_ne_zero (by omega) (by omega)
  -- The rest takes the block behind it, if that one is free.
  have hmerge : ∃ m₃ z lists', blockMergeNext m₂ (BitVec.ofNat 64 c) (BitVec.ofNat 64 (b.addr + 8)) =
      some m₃ ∧ FreeLists m₃ c lists' ∧ (∀ x, Filed lists' x → Filed lists x) ∧
      word m₃ (b.addr + 8 + 8) = tag z true false ∧ Sized z ∧
      word m₃ (b.addr + 8) = tag 0 false (lastIsFree p) := by
    cases hfree : nextIsFree r with
    | false =>
      have hnf : ¬blockIsFree m₂ (BitVec.ofNat 64 (b.addr + 8 + b.size)) := by
        rw [blockIsFree_of_tag hnext₂ hn8, hfree]
        simp
      refine ⟨m₂, b.size - 8, lists, ?_, hlists₂, fun x hx => hx, hrest₂, by omega, htag₂⟩
      simp only [blockMergeNext, hbnext, tlsfAssert, if_pos hne, if_neg hnf, Option.pure_def,
        Option.bind_eq_bind, Option.bind_some]
    | true =>
      obtain ⟨q, r, rfl⟩ : ∃ q r', r = q :: r' := by
        cases r with
        | nil => cases hfree
        | cons q r => exact ⟨q, r, rfl⟩
      exact h.absorbBehind hlists₂ hmem hb hfree hfit hrest₂ hnext₂ htag₂
  obtain ⟨m₃, z, lists', hmerge, hlists₃, hsub, hrest₃, hz, htag₃⟩ := hmerge
  have hsp₃ : Spaced c fun x => x = b.addr + 8 ∨ Filed lists' x := by
    refine hsp.insert (by omega) (by omega) (by omega) (fun x hx => ?_) hsub
    have := hbeside x hx
    omega
  have hno : ¬Filed lists' (b.addr + 8) := fun hx => by
    have := hbeside _ (hsub _ hx)
    omega
  obtain ⟨m', hinsert, -, hframe⟩ := hlists₃.insert (sizeClass_lt hz.2.2) hsp₃ hno
  have hput : blockInsert m₃ (BitVec.ofNat 64 c) (BitVec.ofNat 64 (b.addr + 8)) = some m' := by
    unfold blockInsert
    rw [blockSize_of_tag hrest₃ hz.1, mappingInsert_eq (by omega)]
    exact hinsert
  refine ⟨m', lastIsFree p, ?_, ?_⟩
  · simp only [blockTrimUsed, tlsfAssert, if_pos hused, if_pos hcan, hsplit, hset, hmerge, hput,
      Option.bind_eq_bind, Option.bind_some]
  · rw [hframe _ (by omega) (by omega) fun x hx => ?_, htag₃]
    rcases hx with rfl | hx
    · omega
    · have := hbeside x (hsub x hx)
      omega

/-- A block of no size is taken for the last one. -/
theorem tlsfFree_of_nothing {a : Nat} {prev : Bool} (ha : a + 16 < 2 ^ 64)
    (htag : word m (a + 8) = tag 0 false prev) :
    tlsfFree m (BitVec.ofNat 64 c) (BitVec.ofNat 64 (a + 16)) = none := by
  have hne : BitVec.ofNat 64 (a + 16) ≠ (0 : Word) := ofNat_ne_zero ha (by omega)
  have hfree : ¬blockIsFree m (BitVec.ofNat 64 a) := by
    rw [blockIsFree_of_tag htag rfl]
    simp
  have hlast : blockIsLast m (BitVec.ofNat 64 a) := (blockIsLast_of_tag htag rfl (by decide)).mpr rfl
  simp only [tlsfFree, if_pos hne, blockFromPtr_ofNat, blockMarkAsFree, blockLinkNext, blockNext, tlsfAssert,
    if_pos hfree, if_neg (not_not.mpr hlast), Option.bind_eq_bind, Option.bind_some, Option.bind_none]

theorem tlsfFree_zero (m : Mem) (c : Nat) : tlsfFree m (BitVec.ofNat 64 c) 0#64 = some m := by
  simp [tlsfFree]

/-- **Freeing what `tlsf_realloc` gave fails an assertion exactly if the size was refused and the block
could be split.** -/
theorem realloc_then_free_fails_iff (h : Sound m c s e l) (hb : b ∈ usedOf l) (size : Word) :
    ((tlsfRealloc m (BitVec.ofNat 64 c) (BitVec.ofNat 64 (b.addr + 16)) size).bind fun a =>
        tlsfFree a.2 (BitVec.ofNat 64 c) a.1) = none ↔
      (2 ^ 32 - 8 < size.toNat ∧ size.toNat ≤ 2 ^ 64 - 8) ∧ 32 ≤ b.size := by
  obtain ⟨hmem, hused⟩ := mem_usedOf.mp hb
  have hadj := adjusted_eq_zero_iff size.isLt
  by_cases hzero : size = 0
  · subst hzero
    obtain ⟨m', l', hfree, -⟩ := h.free_taken hb
    have hptr : BitVec.ofNat 64 (b.addr + 16) ≠ (0 : Word) := by
      have hlt := h.arena.row.addr_lt hmem
      exact ofNat_ne_zero (by omega) (by omega)
    rw [tlsfRealloc, if_pos ⟨hptr, rfl⟩, hfree]
    refine iff_of_false ?_ ?_
    · simp [tlsfFree_zero]
    · rintro ⟨⟨hlow, -⟩, -⟩
      simp at hlow
  have hsize : size.toNat ≠ 0 := fun hz => hzero (BitVec.eq_of_toNat_eq hz)
  by_cases hn : adjusted size.toNat = 0
  · obtain ⟨p, r, rfl⟩ := List.append_of_mem hmem
    have hrefused := (hadj.mp hn).resolve_left hsize
    rw [tlsfRealloc_eq h.arena.row hused hzero, hn, if_neg (by omega), if_neg (by omega)]
    have hs := h.arena.row.sized hmem
    have hlt := h.arena.row.addr_lt hmem
    by_cases hfit : 32 ≤ b.size
    · obtain ⟨m', prev, htrim, htag⟩ := h.arena.trimToNothing hused hfit
      refine iff_of_true ?_ ⟨hrefused, hfit⟩
      simp only [htrim, Option.pure_def, Option.bind_eq_bind, Option.bind_some]
      exact tlsfFree_of_nothing (by omega) htag
    · obtain ⟨m', l', hfree, -⟩ := h.free_taken hb
      have htag := h.arena.row.around.1
      have hcan : ¬blockCanSplit m (BitVec.ofNat 64 b.addr) (BitVec.ofNat 64 0) := by
        rw [blockCanSplit_of_tag htag hs (by decide)]
        omega
      have hnf : ¬blockIsFree m (BitVec.ofNat 64 b.addr) := by
        rw [blockIsFree_of_tag htag hs.1, hused]
        simp
      refine iff_of_false ?_ fun hno => hfit hno.2
      simp only [blockTrimUsed, tlsfAssert, if_pos hnf, if_neg hcan, hfree, Option.pure_def,
        Option.bind_eq_bind, Option.bind_some]
      simp
  · refine iff_of_false ?_ fun hno => hn (hadj.mpr (Or.inr hno.1))
    rcases h.realloc hb size hn with ⟨heq, -⟩ | ⟨d, m', l', heq, h', -, hmoved⟩
    · simp [heq, tlsfFree_zero]
    · obtain ⟨m'', l'', hfree, -⟩ := h'.free_taken ((hmoved.mem_iff d).mpr (Or.inl rfl))
      simp [heq, hfree]

/-- A client of the kernel heap takes 100 bytes, asks for 4 GiB instead and frees what it got. -/
theorem realloc_then_free_fails_kernel : ∃ m p, p ≠ 0 ∧
    ((tlsfRealloc m (BitVec.ofNat 64 0x200000) p 0x100000000#64).bind fun a =>
      tlsfFree a.2 (BitVec.ofNat 64 0x200000) a.1) = none := by
  obtain ⟨m, -, hsound⟩ := kernelHeap_sound
  rcases hsound.malloc_given 100#64 with ⟨-, hnone⟩ | ⟨d, m', l', -, hsound', -, hsize, hgiven⟩
  · refine absurd hnone ?_
    rintro (hzero | hsmall)
    · exact absurd hzero (by decide)
    · exact absurd (hsmall (poolBlock 0x201980 0xfe678) (by simp) rfl) (by decide)
  · have hd := (hgiven.mem_iff d).mpr (Or.inl rfl)
    refine ⟨m', _, hsound'.ptr_ne_zero hd, ?_⟩
    refine (realloc_then_free_fails_iff hsound' hd 0x100000000#64).mpr ⟨by decide, ?_⟩
    exact le_trans (by decide) hsize

end AncoreOS.Heap
