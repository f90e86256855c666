import AncoreOS.Heap.TlsfLists

/-!
# The heap

`Arena m c s e l hand` puts the row of blocks and the free lists together: the lists hold the free
blocks of the row, each in the list of its class, but for those `hand` that an operation has taken
out.  The functions of the allocator take a block in hand (`Arena.take`), change the row there, and
put what is left back (`Arena.put`).

A client owns what the used blocks hold and everything outside of the heap.  `Kept` says that its
words are as they were.
-/

namespace AncoreOS.Heap

open ByteMemory WordCells BlockTiling

structure Arena (m : Mem) (c s e : Nat) (l : List Block) (hand : List Nat) : Prop where
  control_mod : c % 8 = 0
  control_pos : 0 < c
  control_le : c + 6536 ≤ s + 8
  row : Row m s l e
  lists : ∃ lists, FreeLists m c lists ∧ ∀ n < 800, ∀ x,
    x ∈ lists n ↔ ∃ b ∈ l, b.free = true ∧ b.addr = x ∧ sizeClass b.size = n ∧ x ∉ hand

/-- The words of the clients. -/
def Client (c e : Nat) (l : List Block) (y : Nat) : Prop :=
  y < c ∨ e + 16 ≤ y ∨ ∃ b ∈ l, b.free = false ∧ Holds b y

def Kept (c e : Nat) (l : List Block) (m m' : Mem) : Prop :=
  ∀ y, Cell y → Client c e l y → word m' y = word m y

/-- The address of a free block of the row. -/
def Node (l : List Block) (x : Nat) : Prop := ∃ b ∈ l, b.free = true ∧ b.addr = x

variable {m m' m'' : Mem} {c s e x t : Nat} {l l' p r : List Block} {b d : Block} {hand hand' : List Nat}

theorem Kept.refl (c e : Nat) (l : List Block) (m : Mem) : Kept c e l m m := fun _ _ _ => rfl

theorem Kept.trans (h : Kept c e l m m') (h' : Kept c e l m' m'') : Kept c e l m m'' :=
  fun y hy hc => (h' y hy hc).trans (h y hy hc)

/-- The words of fewer clients are kept with those of more. -/
theorem Kept.mono (h : Kept c e l m m')
    (hsub : ∀ b ∈ l', b.free = false → ∀ y, Holds b y → ∃ d ∈ l, d.free = false ∧ Holds d y) :
    Kept c e l' m m' := by
  rintro y hy (hlow | hhigh | ⟨b, hb, hfree, hholds⟩)
  · exact h y hy (Or.inl hlow)
  · exact h y hy (Or.inr (Or.inl hhigh))
  · exact h y hy (Or.inr (Or.inr (hsub b hb hfree y hholds)))

theorem Row.tag_of_mem (h : Row m s l e) (hb : b ∈ l) :
    ∃ prev, word m (b.addr + 8) = tag b.size b.free prev := by
  obtain ⟨p, r, rfl⟩ := List.append_of_mem hb
  obtain ⟨x, prev, y, last, ⟨⟨rfl, -, htag, -⟩, -⟩, -⟩ :=
    (show Row m s (p ++ [b] ++ r) e by simpa using h).focus
  exact ⟨prev, htag⟩

theorem Row.congr (h : Row m s l e)
    (hkeep : ∀ y, Cell y → s + 8 ≤ y → y < e + 16 → (∀ b ∈ l, ¬Holds b y) → word m' y = word m y) :
    Row m' s l e := by
  obtain ⟨hs8, hstop, hspan, last, hseg, hend⟩ := h
  have he8 := hseg.mod hs8
  have hle := hseg.tiles.le
  refine ⟨hs8, hstop, hspan, last, hseg.congr hs8 (by omega) fun y hy hlow hhigh hno => ?_, ?_⟩
  · exact hkeep y hy (by omega) (by omega) hno
  · rw [hkeep _ (by omega) (by omega) (by omega) (fun b hb hholds => ?_), hend]
    have h1 := hholds.2
    have h2 := hseg.tiles.bounds hb
    simp only [Block.stop] at h1 h2
    split at h1 <;> omega

theorem Row.spaced (h : Row m s l e) (hc8 : c % 8 = 0) (hpos : 0 < c) (hle : c + 6536 ≤ s + 8) :
    Spaced c (Node l) := by
  have hse := h.tiles.le
  have hstop := h.stop_le
  refine ⟨hc8, hpos, by omega, ?_, ?_, ?_, ?_⟩
  · rintro x ⟨b, hb, -, rfl⟩
    exact h.addr_mod hb
  · rintro x ⟨b, hb, -, rfl⟩
    have := h.addr_lt hb
    omega
  · rintro x ⟨b, hb, -, rfl⟩
    have hlt := h.addr_lt hb
    have hs := (h.sized hb).2.1
    omega
  · rintro x y ⟨b, hb, -, rfl⟩ ⟨d, hd, -, rfl⟩
    have hbs := (h.sized hb).2.1
    have hds := (h.sized hd).2.1
    rcases h.tiles.apart hb hd with rfl | hbd | hbd
    · exact Or.inl rfl
    · unfold Block.stop at hbd
      omega
    · unfold Block.stop at hbd
      omega

/-- The links of a free block are in what it holds. -/
theorem Row.holds_link (h : Row m s l e) (hb : b ∈ l) (hy : x = b.addr + 16 ∨ x = b.addr + 24) :
    Holds b x := by
  have hs := (h.sized hb).2.1
  unfold Holds Block.stop
  split <;> omega

/-- Two blocks that hold the same address are one. -/
theorem Row.holds_unique (h : Row m s l e) (hb : b ∈ l) (hd : d ∈ l) (hbx : Holds b x)
    (hdx : Holds d x) : b = d := by
  obtain ⟨hb1, hb2⟩ := hbx
  obtain ⟨hd1, hd2⟩ := hdx
  rcases h.tiles.apart hb hd with hbd | hbd | hbd
  · exact hbd
  · simp only [Block.stop] at hb2 hbd
    split at hb2 <;> omega
  · simp only [Block.stop] at hd2 hbd
    split at hd2 <;> omega

/-- A change of links and of the control structure leaves the row and the clients alone. -/
theorem Row.of_list (h : Row m s l e) (hle : c + 6536 ≤ s + 8) (hframe : ListFrame c (Node l) m m') :
    Row m' s l e ∧ Kept c e l m m' := by
  have hse := h.tiles.le
  refine ⟨h.congr fun y hy hlow hhigh hno => ?_, ?_⟩
  · refine hframe y hy (by omega) ?_
    rintro x ⟨b, hb, -, rfl⟩
    exact ⟨fun he => hno b hb (h.holds_link hb (Or.inl he)), fun he => hno b hb (h.holds_link hb (Or.inr he))⟩
  · rintro y hy (hlow | hhigh | ⟨b, hb, hused, hholds⟩)
    · refine hframe y hy (by omega) ?_
      rintro x ⟨d, hd, -, rfl⟩
      have := h.addr_lt hd
      omega
    · refine hframe y hy (by omega) ?_
      rintro x ⟨d, hd, -, rfl⟩
      have := h.addr_lt hd
      have := (h.sized hd).2.1
      omega
    · have hfar := h.addr_lt hb
      have hlow := hholds.1
      refine hframe y hy (by omega) ?_
      rintro x ⟨d, hd, hfree, rfl⟩
      have hne : ∀ z, z = d.addr + 16 ∨ z = d.addr + 24 → y ≠ z := by
        rintro z hz rfl
        have := h.holds_unique hb hd hholds (h.holds_link hd hz)
        subst this
        rw [hused] at hfree
        cases hfree
      exact ⟨hne _ (Or.inl rfl), hne _ (Or.inr rfl)⟩

theorem Frame.kept (hframe : Frame s e l m m') (hle : c + 6536 ≤ s + 8) : Kept c e l m m' := by
  rintro y hy (hlow | hhigh | ⟨b, hb, -, hholds⟩)
  · exact hframe y hy (Or.inl (by omega))
  · exact hframe y hy (Or.inr (Or.inl hhigh))
  · exact hframe y hy (Or.inr (Or.inr ⟨b, hb, hholds⟩))

/-! ### Into hand and back -/

theorem Arena.spaced (h : Arena m c s e l hand) : Spaced c (Node l) :=
  h.row.spaced h.control_mod h.control_pos h.control_le

theorem mappingInsert_of_block (h : Row m s l e) (hb : b ∈ l) :
    mappingInsert (blockSize m (BitVec.ofNat 64 b.addr)) =
      (sizeClass b.size / 32, sizeClass b.size % 32) := by
  obtain ⟨prev, htag⟩ := h.tag_of_mem hb
  obtain ⟨h8, h24, hlt⟩ := h.sized hb
  rw [blockSize_of_tag htag h8, mappingInsert_eq (by omega), indices]

theorem Arena.put (h : Arena m c s e l (b.addr :: hand)) (hb : b ∈ l) (hfree : b.free = true)
    (hnot : b.addr ∉ hand) :
    ∃ m', blockInsert m (BitVec.ofNat 64 c) (BitVec.ofNat 64 b.addr) = some m' ∧
      Arena m' c s e l hand ∧ Kept c e l m m' := by
  obtain ⟨hc8, hpos, hle, hrow, lists, hlists, hmem⟩ := h
  have hcls := sizeClass_lt (hrow.sized hb).2.2
  have hsub : ∀ x, x = b.addr ∨ Filed lists x → Node l x := by
    rintro x (rfl | ⟨n, hn, hx⟩)
    · exact ⟨b, hb, hfree, rfl⟩
    · obtain ⟨d, hd, hdfree, hdx, -⟩ := (hmem n hn x).mp hx
      exact ⟨d, hd, hdfree, hdx⟩
  have hno : ¬Filed lists b.addr := by
    rintro ⟨n, hn, hx⟩
    obtain ⟨d, -, -, -, -, hhand⟩ := (hmem n hn b.addr).mp hx
    exact hhand (by simp)
  obtain ⟨m', heq, hlists', hframe⟩ :=
    hlists.insert hcls ((hrow.spaced hc8 hpos hle).mono hsub) hno
  have hlist : ListFrame c (Node l) m m' := fun y hy hfar hlinks =>
    hframe y hy hfar fun x hx => hlinks x (hsub x hx)
  obtain ⟨hrow', hkept⟩ := hrow.of_list hle hlist
  refine ⟨m', ?_, ⟨hc8, hpos, hle, hrow', _, hlists', fun n hn x => ?_⟩, hkept⟩
  · unfold blockInsert
    rw [mappingInsert_of_block hrow hb]
    exact heq
  · by_cases hnb : n = sizeClass b.size
    · subst hnb
      rw [Function.update_self, List.mem_cons, hmem _ hn x]
      constructor
      · rintro (rfl | ⟨d, hd, hdf, hdx, hdc, hdh⟩)
        · exact ⟨b, hb, hfree, rfl, rfl, hnot⟩
        · exact ⟨d, hd, hdf, hdx, hdc, fun hx => hdh (List.mem_cons_of_mem _ hx)⟩
      · rintro ⟨d, hd, hdf, hdx, hdc, hdh⟩
        by_cases hxb : x = b.addr
        · exact Or.inl hxb
        · exact Or.inr ⟨d, hd, hdf, hdx, hdc, by simp [hxb, hdh]⟩
    · rw [Function.update_of_ne hnb, hmem n hn x]
      constructor
      · rintro ⟨d, hd, hdf, hdx, hdc, hdh⟩
        exact ⟨d, hd, hdf, hdx, hdc, fun hx => hdh (List.mem_cons_of_mem _ hx)⟩
      · rintro ⟨d, hd, hdf, hdx, hdc, hdh⟩
        have hxb : x ≠ b.addr := by
          rintro rfl
          rw [hrow.tiles.eq_of_addr (by omega) hd hb hdx] at hdc
          exact hnb hdc.symm
        exact ⟨d, hd, hdf, hdx, hdc, by simp [hxb, hdh]⟩

theorem Arena.take (h : Arena m c s e l hand) (hb : b ∈ l) (hfree : b.free = true)
    (hnot : b.addr ∉ hand) :
    ∃ m', removeFreeBlock m (BitVec.ofNat 64 c) (BitVec.ofNat 64 b.addr) (sizeClass b.size / 32)
        (sizeClass b.size % 32) = some m' ∧
      Arena m' c s e l (b.addr :: hand) ∧ Kept c e l m m' := by
  obtain ⟨hc8, hpos, hle, hrow, lists, hlists, hmem⟩ := h
  have hcls := sizeClass_lt (hrow.sized hb).2.2
  have hsub : ∀ x, Filed lists x → Node l x := by
    rintro x ⟨n, hn, hx⟩
    obtain ⟨d, hd, hdfree, hdx, -⟩ := (hmem n hn x).mp hx
    exact ⟨d, hd, hdfree, hdx⟩
  obtain ⟨u, v, hsplit⟩ := List.append_of_mem ((hmem _ hcls b.addr).mpr ⟨b, hb, hfree, rfl, rfl, hnot⟩)
  obtain ⟨m', heq, hlists', hframe⟩ := hlists.remove hcls ((hrow.spaced hc8 hpos hle).mono hsub) hsplit
  have hlist : ListFrame c (Node l) m m' := fun y hy hfar hlinks =>
    hframe y hy hfar fun x hx => hlinks x (hsub x hx)
  obtain ⟨hrow', hkept⟩ := hrow.of_list hle hlist
  refine ⟨m', heq, ⟨hc8, hpos, hle, hrow', _, hlists', fun n hn x => ?_⟩, hkept⟩
  by_cases hnb : n = sizeClass b.size
  · subst hnb
    have hnodup := hlists.threads.nodup _ hn
    have hrest : x ∈ u ++ v ↔ x ∈ lists (sizeClass b.size) ∧ x ≠ b.addr := by
      rw [hsplit] at hnodup ⊢
      simp only [List.mem_append, List.mem_cons, List.nodup_middle, List.nodup_cons, not_or] at hnodup ⊢
      grind
    rw [Function.update_self, hrest, hmem _ hn x]
    grind
  · rw [Function.update_of_ne hnb, hmem n hn x]
    constructor
    · rintro ⟨d, hd, hdf, hdx, hdc, hdh⟩
      have hxb : x ≠ b.addr := by
        rintro rfl
        rw [hrow.tiles.eq_of_addr (by omega) hd hb hdx] at hdc
        exact hnb hdc.symm
      exact ⟨d, hd, hdf, hdx, hdc, by simp [hxb, hdh]⟩
    · rintro ⟨d, hd, hdf, hdx, hdc, hdh⟩
      exact ⟨d, hd, hdf, hdx, hdc, fun hx => hdh (List.mem_cons_of_mem _ hx)⟩

theorem Arena.take_remove (h : Arena m c s e l hand) (hb : b ∈ l) (hfree : b.free = true)
    (hnot : b.addr ∉ hand) :
    ∃ m', blockRemove m (BitVec.ofNat 64 c) (BitVec.ofNat 64 b.addr) = some m' ∧
      Arena m' c s e l (b.addr :: hand) ∧ Kept c e l m m' := by
  obtain ⟨m', heq, hheap, hkept⟩ := h.take hb hfree hnot
  refine ⟨m', ?_, hheap, hkept⟩
  unfold blockRemove
  rw [mappingInsert_of_block h.row hb]
  exact heq

/-- A change of the row leaves the lists alone, when the blocks that are in them stay. -/
theorem Arena.of_frame {k : List Block} (h : Arena m c s e l hand) (hrow : Row m' s l' e)
    (hframe : Frame s e k m m')
    (hsame : ∀ b : Block, b.free = true → (b ∈ l ∧ b.addr ∉ hand ↔ b ∈ l' ∧ b.addr ∉ hand'))
    (hk : ∀ b ∈ l', b.free = true → b.addr ∉ hand' → b ∈ k) : Arena m' c s e l' hand' := by
  obtain ⟨hc8, hpos, hle, -, lists, ⟨hthreads, hmarks⟩, hmem⟩ := h
  have hmem' : ∀ n < 800, ∀ x, x ∈ lists n ↔
      ∃ b ∈ l', b.free = true ∧ b.addr = x ∧ sizeClass b.size = n ∧ x ∉ hand' := by
    intro n hn x
    rw [hmem n hn x]
    constructor
    · rintro ⟨b, hb, hf, rfl, hcls, hno⟩
      obtain ⟨hb', hno'⟩ := (hsame b hf).mp ⟨hb, hno⟩
      exact ⟨b, hb', hf, rfl, hcls, hno'⟩
    · rintro ⟨b, hb, hf, rfl, hcls, hno⟩
      obtain ⟨hb', hno'⟩ := (hsame b hf).mpr ⟨hb, hno⟩
      exact ⟨b, hb', hf, rfl, hcls, hno'⟩
  have hsub : ∀ x, Filed lists x → ∃ b ∈ l', b.free = true ∧ b.addr = x ∧ b ∈ k := by
    rintro x ⟨n, hn, hx⟩
    obtain ⟨d, hd, hdfree, rfl, -, hno⟩ := (hmem' n hn x).mp hx
    exact ⟨d, hd, hdfree, rfl, hk d hd hdfree hno⟩
  have hsp : Spaced c (Filed lists) := (hrow.spaced hc8 hpos hle).mono fun x hx => by
    obtain ⟨d, hd, hdfree, hdx, -⟩ := hsub x hx
    exact ⟨d, hd, hdfree, hdx⟩
  have hfits := hsp.fits
  refine ⟨hc8, hpos, hle, hrow, lists, ⟨hthreads.congr hsp hfits ?_, hmarks.congr hc8 hfits ?_⟩, hmem'⟩
  · rintro y hy hlow (hhigh | ⟨x, hx, hlink⟩)
    · exact hframe y hy (Or.inl (by omega))
    · obtain ⟨d, hd, -, rfl, hdk⟩ := hsub x hx
      exact hframe y hy (Or.inr (Or.inr ⟨d, hdk, hrow.holds_link hd hlink⟩))
  · intro y hy hlow hhigh
    exact hframe y hy (Or.inl (by omega))

theorem Arena.of_row (h : Arena m c s e l hand) (hrow : Row m' s l' e) (hframe : Frame s e l' m m')
    (hsame : ∀ b : Block, b.free = true → (b ∈ l ∧ b.addr ∉ hand ↔ b ∈ l' ∧ b.addr ∉ hand')) :
    Arena m' c s e l' hand' :=
  h.of_frame hrow hframe hsame fun _ hb _ _ => hb

end AncoreOS.Heap
