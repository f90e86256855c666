import AncoreOS.Heap.TlsfSizes
import AncoreOS.Library.BlockTiling

/-!
# The row of blocks

The pool of a heap is a row of blocks from `s` to `e`, where a block of no size ends it.  `Row` says
that the tag of every block tells its size, whether it is free and whether the block before it is
free, and that the last word of a free block, which is the first of the header behind it, leads back
to its own.

What a block holds is not part of the row (`Holds`): a row survives every change there
(`Row.congr`), and a change of one or two blocks is a change in the middle of it (`Row.focus`).
-/

namespace AncoreOS.Heap

open ByteMemory WordCells BlockTiling

/-! ### Fields -/

section Fields

variable (m : Mem) (a : Nat) (v : Word)

theorem sizeField_ofNat : sizeField m (BitVec.ofNat 64 a) = word m (a + 8) := by
  rw [sizeField, word, BitVec.ofNat_add]
  rfl

theorem setSizeField_ofNat : setSizeField m (BitVec.ofNat 64 a) v = setWord m (a + 8) v := by
  rw [setSizeField, setWord, BitVec.ofNat_add]
  rfl

theorem prevPhysBlock_ofNat : prevPhysBlock m (BitVec.ofNat 64 a) = word m a := rfl

theorem setPrevPhysBlock_ofNat : setPrevPhysBlock m (BitVec.ofNat 64 a) v = setWord m a v := rfl

theorem nextFree_ofNat : nextFree m (BitVec.ofNat 64 a) = word m (a + 16) := by
  rw [nextFree, word, BitVec.ofNat_add]
  rfl

theorem setNextFree_ofNat : setNextFree m (BitVec.ofNat 64 a) v = setWord m (a + 16) v := by
  rw [setNextFree, setWord, BitVec.ofNat_add]
  rfl

theorem prevFree_ofNat : prevFree m (BitVec.ofNat 64 a) = word m (a + 24) := by
  rw [prevFree, word, BitVec.ofNat_add]
  rfl

theorem setPrevFree_ofNat : setPrevFree m (BitVec.ofNat 64 a) v = setWord m (a + 24) v := by
  rw [setPrevFree, setWord, BitVec.ofNat_add]
  rfl

theorem blockToPtr_ofNat : blockToPtr (BitVec.ofNat 64 a) = BitVec.ofNat 64 (a + 16) := by
  rw [blockToPtr, BitVec.ofNat_add]
  rfl

theorem blockFromPtr_ofNat : blockFromPtr (BitVec.ofNat 64 (a + 16)) = BitVec.ofNat 64 a := by
  rw [blockFromPtr, BitVec.ofNat_add]
  exact BitVec.add_sub_cancel _ _

end Fields

/-- The address behind a block. -/
theorem offset_next (a size : Nat) :
    BitVec.ofNat 64 (a + 16) + (BitVec.ofNat 64 size - blockHeaderOverhead) =
      BitVec.ofNat 64 (a + 8 + size) := by
  rw [show a + 16 = a + 8 + 8 from rfl, BitVec.ofNat_add, BitVec.ofNat_add (a + 8) size, BitVec.add_assoc]
  congr 1
  rw [BitVec.add_comm]
  exact BitVec.sub_add_cancel _ _

section Tagged

variable {m : Mem} {a size : Nat} {free prev : Bool}

theorem blockSize_of_tag (h : word m (a + 8) = tag size free prev) (h8 : size % 8 = 0) :
    blockSize m (BitVec.ofNat 64 a) = BitVec.ofNat 64 size := by
  rw [blockSize, sizeField_ofNat, h, tag_size h8]

theorem blockIsFree_of_tag (h : word m (a + 8) = tag size free prev) (h8 : size % 8 = 0) :
    blockIsFree m (BitVec.ofNat 64 a) ↔ free = true := by
  rw [blockIsFree, sizeField_ofNat, h, tag_free h8]

theorem blockIsPrevFree_of_tag (h : word m (a + 8) = tag size free prev) (h8 : size % 8 = 0) :
    blockIsPrevFree m (BitVec.ofNat 64 a) ↔ prev = true := by
  rw [blockIsPrevFree, sizeField_ofNat, h, tag_prevFree h8]

theorem blockIsLast_of_tag (h : word m (a + 8) = tag size free prev) (h8 : size % 8 = 0)
    (hlt : size < 2 ^ 32) : blockIsLast m (BitVec.ofNat 64 a) ↔ size = 0 := by
  rw [blockIsLast, blockSize_of_tag h h8]
  constructor
  · intro hzero
    by_contra hne
    exact ofNat_ne_zero (w := 64) (by omega) hne hzero
  · rintro rfl
    rfl

theorem blockSetSize_of_tag (h : word m (a + 8) = tag size free prev) (h8 : size % 8 = 0)
    (t : Nat) :
    blockSetSize m (BitVec.ofNat 64 a) (BitVec.ofNat 64 t) = setWord m (a + 8) (tag t free prev) := by
  rw [blockSetSize, sizeField_ofNat, h, setSizeField_ofNat, tag_flags h8, or_flags]

/-- Two bits of what was there before become flags. -/
theorem exists_blockSetSize (m : Mem) (a t : Nat) : ∃ free prev,
    blockSetSize m (BitVec.ofNat 64 a) (BitVec.ofNat 64 t) = setWord m (a + 8) (tag t free prev) := by
  obtain ⟨free, prev, h⟩ := exists_flags (word m (a + 8))
  refine ⟨free, prev, ?_⟩
  rw [blockSetSize, sizeField_ofNat, setSizeField_ofNat, h, or_flags]

theorem blockSetFree_of_tag (h : word m (a + 8) = tag size free prev) (h8 : size % 8 = 0) :
    blockSetFree m (BitVec.ofNat 64 a) = setWord m (a + 8) (tag size true prev) := by
  rw [blockSetFree, sizeField_ofNat, h, setSizeField_ofNat, tag_setFree h8]

theorem blockSetUsed_of_tag (h : word m (a + 8) = tag size free prev) (h8 : size % 8 = 0) :
    blockSetUsed m (BitVec.ofNat 64 a) = setWord m (a + 8) (tag size false prev) := by
  rw [blockSetUsed, sizeField_ofNat, h, setSizeField_ofNat, tag_setUsed h8]

theorem blockSetPrevFree_of_tag (h : word m (a + 8) = tag size free prev) (h8 : size % 8 = 0) :
    blockSetPrevFree m (BitVec.ofNat 64 a) = setWord m (a + 8) (tag size free true) := by
  rw [blockSetPrevFree, sizeField_ofNat, h, setSizeField_ofNat, tag_setPrevFree h8]

theorem blockSetPrevUsed_of_tag (h : word m (a + 8) = tag size free prev) (h8 : size % 8 = 0) :
    blockSetPrevUsed m (BitVec.ofNat 64 a) = setWord m (a + 8) (tag size free false) := by
  rw [blockSetPrevUsed, sizeField_ofNat, h, setSizeField_ofNat, tag_setPrevUsed h8]

/-- A size that a block may have. -/
abbrev Sized (size : Nat) : Prop := size % 8 = 0 ∧ 24 ≤ size ∧ size < 2 ^ 32

theorem blockNext_of_tag (h : word m (a + 8) = tag size free prev) (hs : Sized size) :
    blockNext m (BitVec.ofNat 64 a) = some (BitVec.ofNat 64 (a + 8 + size)) := by
  obtain ⟨h8, h24, hlt⟩ := hs
  have hlast : ¬blockIsLast m (BitVec.ofNat 64 a) := by
    rw [blockIsLast_of_tag h h8 hlt]
    omega
  simp only [blockNext, tlsfAssert, if_pos hlast, Option.bind_eq_bind, Option.bind_some,
    offsetToBlock, blockToPtr_ofNat, blockSize_of_tag h h8, offset_next]
  rfl

theorem blockLinkNext_of_tag (h : word m (a + 8) = tag size free prev) (hs : Sized size) :
    blockLinkNext m (BitVec.ofNat 64 a) =
      some (BitVec.ofNat 64 (a + 8 + size), setWord m (a + 8 + size) (BitVec.ofNat 64 a)) := by
  simp only [blockLinkNext, blockNext_of_tag h hs, Option.bind_eq_bind, Option.bind_some,
    setPrevPhysBlock_ofNat]
  rfl

end Tagged

/-! ### The row -/

/-- The addresses of what a block holds.  The last word of a free block is not its own. -/
def Holds (b : Block) (y : Nat) : Prop :=
  b.addr + 16 ≤ y ∧ y < b.stop 8 + if b.free then 0 else 8

instance (b : Block) (y : Nat) : Decidable (Holds b y) := inferInstanceAs (Decidable (_ ∧ _))

/-- A block at `a`, behind one that is free or not. -/
structure At (m : Mem) (a : Nat) (prev : Bool) (b : Block) : Prop where
  addr : b.addr = a
  sized : Sized b.size
  tag : word m (a + 8) = tag b.size b.free prev
  foot : b.free = true → word m (b.stop 8) = BitVec.ofNat 64 a

/-- A part of the row, from `a` to `e`, and whether its first and its last block come behind a free
one. -/
def Seg (m : Mem) : Nat → Bool → List Block → Nat → Bool → Prop
  | a, prev, [], e, last => a = e ∧ prev = last
  | a, prev, b :: l, e, last => At m a prev b ∧ Seg m (b.stop 8) b.free l e last

structure Row (m : Mem) (s : Nat) (l : List Block) (e : Nat) : Prop where
  start_mod : s % 8 = 0
  stop_le : e + 16 ≤ 2 ^ 64
  span : e < s + 8 + 2 ^ 32
  seg : ∃ last, Seg m s false l e last ∧ word m (e + 8) = tag 0 false last

/-- What the tag behind a part of the row says of the block there. -/
def nextSize (r : List Block) : Nat := (r.head?.map Block.size).getD 0

def nextIsFree (r : List Block) : Bool := (r.head?.map Block.free).getD false

variable {m m' : Mem} {a s e x y : Nat} {prev prev' last : Bool} {l l' p r mid : List Block} {b c : Block}

@[simp] theorem seg_nil : Seg m a prev [] e last ↔ a = e ∧ prev = last := Iff.rfl

@[simp] theorem seg_cons :
    Seg m a prev (b :: l) e last ↔ At m a prev b ∧ Seg m (b.stop 8) b.free l e last := Iff.rfl

theorem Seg.tiles (h : Seg m a prev l e last) : Tiles 8 a l e := by
  induction l generalizing a prev with
  | nil => exact h.1
  | cons b l ih => exact ⟨h.1.addr, ih h.2⟩

theorem Seg.sized (h : Seg m a prev l e last) (hb : b ∈ l) : Sized b.size := by
  induction l generalizing a prev with
  | nil => simp at hb
  | cons c l ih =>
    rcases List.mem_cons.mp hb with rfl | hb
    · exact h.1.sized
    · exact ih h.2 hb

theorem Seg.mod (h : Seg m a prev l e last) (ha : a % 8 = 0) : e % 8 = 0 := by
  induction l generalizing a prev with
  | nil =>
    obtain ⟨rfl, -⟩ := h
    exact ha
  | cons b l ih =>
    obtain ⟨⟨rfl, ⟨h8, -⟩, -, -⟩, hrest⟩ := h
    refine ih hrest ?_
    unfold Block.stop
    omega

theorem Seg.addr_mod (h : Seg m a prev l e last) (ha : a % 8 = 0) (hb : b ∈ l) : b.addr % 8 = 0 := by
  induction l generalizing a prev with
  | nil => simp at hb
  | cons c l ih =>
    obtain ⟨⟨rfl, ⟨h8, -⟩, -, -⟩, hrest⟩ := h
    rcases List.mem_cons.mp hb with rfl | hb
    · exact ha
    · refine ih hrest ?_ hb
      unfold Block.stop
      omega

theorem seg_append : Seg m a prev (l ++ r) e last ↔
    ∃ x mid, Seg m a prev l x mid ∧ Seg m x mid r e last := by
  induction l generalizing a prev with
  | nil =>
    constructor
    · exact fun h => ⟨a, prev, ⟨rfl, rfl⟩, h⟩
    · rintro ⟨x, mid, ⟨rfl, rfl⟩, h⟩
      exact h
  | cons b l ih => simp [ih, and_assoc]

/-- **The row does not depend on what the blocks hold.** -/
theorem Seg.congr (h : Seg m a prev l e last) (ha : a % 8 = 0) (he : e < 2 ^ 64)
    (hkeep : ∀ y, Cell y → a < y → y ≤ e → (∀ b ∈ l, ¬Holds b y) → word m' y = word m y) :
    Seg m' a prev l e last := by
  induction l generalizing a prev with
  | nil => exact h
  | cons b l ih =>
    obtain ⟨⟨rfl, hs, htag, hfoot⟩, hrest⟩ := h
    obtain ⟨h8, h24, hlt⟩ := hs
    have hle := hrest.tiles.le
    have hbounds := fun c (hc : c ∈ l) => hrest.tiles.bounds hc
    simp only [Block.stop] at hle hbounds
    have hkeep' : ∀ y, Cell y → b.addr < y → y ≤ e → ¬Holds b y → (∀ c ∈ l, y < c.addr + 16) →
        word m' y = word m y := by
      intro y hy hlow hhigh hb hl
      refine hkeep y hy hlow hhigh fun c hc hholds => ?_
      rcases List.mem_cons.mp hc with rfl | hc
      · exact hb hholds
      · exact absurd hholds.1 (not_le.mpr (hl c hc))
    refine ⟨⟨rfl, ⟨h8, h24, hlt⟩, ?_, fun hb => ?_⟩, ih hrest ?_ fun y hy hlow hhigh hl => ?_⟩
    · rw [hkeep' _ (by omega) (by omega) (by omega) (fun hb => by have := hb.1; omega), htag]
      intro c hc
      have := (hbounds c hc).1
      omega
    · simp only [Block.stop] at hfoot ⊢
      rw [hkeep' _ (by omega) (by omega) (by omega) ?_ ?_, hfoot hb]
      · intro hholds
        have := hholds.2
        simp only [Block.stop, hb, if_true] at this
        omega
      · intro c hc
        have := (hbounds c hc).1
        omega
    · unfold Block.stop
      omega
    · simp only [Block.stop] at hlow
      refine hkeep y hy (by omega) hhigh fun c hc hholds => ?_
      rcases List.mem_cons.mp hc with rfl | hc
      · have := hholds.2
        simp only [Block.stop] at this
        split at this <;> omega
      · exact hl c hc hholds

/-! ### A change in the middle -/

theorem nextSize_mod (h : Seg m a prev r e last) : nextSize r % 8 = 0 := by
  cases r with
  | nil => rfl
  | cons c r => exact h.1.sized.1

/-- The part behind learns whether the block before it is free. -/
theorem Seg.reflag (h : Seg m a prev r e last) (hend : word m (e + 8) = tag 0 false last)
    (ha : a % 8 = 0) (he : e + 16 ≤ 2 ^ 64) (htag : word m' (a + 8) = tag (nextSize r) (nextIsFree r) prev')
    (hkeep : ∀ y, Cell y → a + 16 ≤ y → (∀ b ∈ r, ¬Holds b y) → word m' y = word m y) :
    ∃ last', Seg m' a prev' r e last' ∧ word m' (e + 8) = tag 0 false last' := by
  cases r with
  | nil =>
    obtain ⟨rfl, rfl⟩ := h
    exact ⟨prev', ⟨rfl, rfl⟩, htag⟩
  | cons c r =>
    obtain ⟨⟨rfl, hs, -, hfoot⟩, hrest⟩ := h
    obtain ⟨h8, h24, hlt⟩ := hs
    have hle := hrest.tiles.le
    have hmod := hrest.mod (by unfold Block.stop; omega)
    have hbounds := fun d (hd : d ∈ r) => hrest.tiles.bounds hd
    simp only [Block.stop] at hle hbounds hmod
    have hnot : ∀ y, (∀ d ∈ r, ¬Holds d y) → c.addr + 8 + c.size + (if c.free then 0 else 8) ≤ y →
        ∀ d ∈ c :: r, ¬Holds d y := by
      intro y hr hy d hd hholds
      rcases List.mem_cons.mp hd with rfl | hd
      · exact absurd hholds.2 (not_lt.mpr hy)
      · exact hr d hd hholds
    refine ⟨last, ⟨⟨rfl, ⟨h8, h24, hlt⟩, htag, fun hc => ?_⟩, hrest.congr ?_ (by omega) ?_⟩, ?_⟩
    · have hno : ∀ d ∈ r, ¬Holds d (c.stop 8) := by
        intro d hd hholds
        have h1 := hholds.1
        have h2 := hbounds d hd
        simp only [Block.stop] at h1
        omega
      simp only [Block.stop] at hfoot hno ⊢
      rw [hkeep _ (by omega) (by omega) (hnot _ hno (by simp [hc])), hfoot hc]
    · unfold Block.stop
      omega
    · intro y hy hlow hhigh hr
      simp only [Block.stop] at hlow
      refine hkeep y hy (by omega) (hnot y hr ?_)
      split <;> omega
    · have hno : ∀ d ∈ r, ¬Holds d (e + 8) := by
        intro d hd hholds
        have h1 := hholds.2
        have h2 := hbounds d hd
        simp only [Block.stop] at h1
        split at h1 <;> omega
      rw [hkeep _ (by omega) (by omega) (hnot _ hno ?_), hend]
      split <;> omega

/-- **A part of the row may be exchanged**, when the part behind is told of it. -/
theorem Row.focus (h : Row m s (p ++ mid ++ r) e) : ∃ x prev y last,
    Seg m x prev mid y last ∧ word m (y + 8) = tag (nextSize r) (nextIsFree r) last ∧
    nextSize r % 8 = 0 ∧ x % 8 = 0 ∧ s ≤ x ∧ y ≤ e ∧
    ∀ m' mid' last', Seg m' x prev mid' y last' →
      word m' (y + 8) = tag (nextSize r) (nextIsFree r) last' →
      (∀ z, Cell z → s < z → z ≤ x ∨ y + 16 ≤ z → (∀ b ∈ p ++ r, ¬Holds b z) → word m' z = word m z) →
      Row m' s (p ++ mid' ++ r) e := by
  obtain ⟨hs8, hstop, hspan, last, hseg, hend⟩ := h
  obtain ⟨y, mid2, hseg, hr⟩ := seg_append.mp hseg
  obtain ⟨x, mid1, hp, hmid⟩ := seg_append.mp hseg
  have hx8 := hp.mod hs8
  have hy8 := hmid.mod hx8
  have hsx := hp.tiles.le
  have hxy := hmid.tiles.le
  have hye := hr.tiles.le
  have hptop : ∀ b ∈ p, ∀ z, y + 16 ≤ z → ¬Holds b z := by
    intro b hb z hz hholds
    have h1 := hholds.2
    have h2 := (hp.tiles.bounds hb).2
    split at h1 <;> omega
  have hrbot : ∀ b ∈ r, ∀ z, z ≤ x → ¬Holds b z := by
    intro b hb z hz hholds
    have h1 := hholds.1
    have h2 := (hr.tiles.bounds hb).1
    omega
  refine ⟨x, mid1, y, mid2, hmid, ?_, nextSize_mod hr, hx8, hsx, hye, fun m' mid' last' hmid' htag hkeep => ?_⟩
  · cases r with
    | nil =>
      obtain ⟨rfl, rfl⟩ := hr
      exact hend
    | cons c r => exact hr.1.tag
  · obtain ⟨last'', hr', hend'⟩ := hr.reflag hend hy8 hstop htag fun z hz hlow hno => by
      refine hkeep z hz (by omega) (Or.inr hlow) fun b hb => ?_
      rcases List.mem_append.mp hb with hb | hb
      · exact hptop b hb z hlow
      · exact hno b hb
    have hp' : Seg m' s false p x mid1 := hp.congr hs8 (by omega) fun z hz hlow hhigh hno => by
      refine hkeep z hz hlow (Or.inl hhigh) fun b hb => ?_
      rcases List.mem_append.mp hb with hb | hb
      · exact hno b hb
      · exact hrbot b hb z hhigh
    exact ⟨hs8, hstop, hspan, last'', seg_append.mpr ⟨y, last', seg_append.mpr ⟨x, mid1, hp', hmid'⟩, hr'⟩, hend'⟩

theorem Row.tiles (h : Row m s l e) : Tiles 8 s l e := by
  obtain ⟨last, hseg, -⟩ := h.seg
  exact hseg.tiles

theorem Row.sized (h : Row m s l e) (hb : b ∈ l) : Sized b.size := by
  obtain ⟨last, hseg, -⟩ := h.seg
  exact hseg.sized hb

theorem Row.addr_mod (h : Row m s l e) (hb : b ∈ l) : b.addr % 8 = 0 := by
  obtain ⟨last, hseg, -⟩ := h.seg
  exact hseg.addr_mod h.start_mod hb

theorem Row.addr_lt (h : Row m s l e) (hb : b ∈ l) :
    s ≤ b.addr ∧ b.addr + 8 + b.size ≤ e ∧ b.addr + 8 + b.size + 16 ≤ 2 ^ 64 := by
  have hbounds := h.tiles.bounds hb
  have hstop := h.stop_le
  simp only [Block.stop] at hbounds
  omega

/-- The words that belong to the row. -/
def Fixed (l : List Block) (y : Nat) : Prop :=
  ∃ b ∈ l, y = b.addr + 8 ∨ y = b.stop 8 + 8 ∨ b.free = true ∧ y = b.stop 8

/-- What is outside of the row and what its blocks hold is kept. -/
def Frame (s e : Nat) (l : List Block) (m m' : Mem) : Prop :=
  ∀ y, Cell y → y < s + 8 ∨ e + 16 ≤ y ∨ (∃ b ∈ l, Holds b y) → word m' y = word m y

theorem Holds.not_fixed (ht : Tiles 8 s l e) (hb : b ∈ l) (hy : Holds b y) : ¬Fixed l y := by
  rintro ⟨c, hc, hfix⟩
  have h1 := hy.1
  have h2 := hy.2
  have hbc := ht.apart hb hc
  simp only [Block.stop] at h2 hbc hfix
  rcases hbc with rfl | hbc | hbc
  · split at h2
    · omega
    · rename_i hfree
      rcases hfix with hfix | hfix | ⟨hfix, -⟩
      · omega
      · omega
      · exact hfree hfix
  · split at h2 <;> omega
  · omega

theorem Frame.of_fixed (ht : Tiles 8 s l e)
    (hkeep : ∀ y, Cell y → ¬Fixed l y → word m' y = word m y) : Frame s e l m m' := by
  intro y hy hwhere
  refine hkeep y hy ?_
  rcases hwhere with hlow | hhigh | ⟨b, hb, hholds⟩
  · rintro ⟨b, hb, hfix⟩
    have := ht.bounds hb
    unfold Block.stop at *
    omega
  · rintro ⟨b, hb, hfix⟩
    have := ht.bounds hb
    unfold Block.stop at *
    omega
  · exact hholds.not_fixed ht hb

/-! ### Free and used -/

section Words

variable {size nsize : Nat} {free nfree nprev : Bool}

theorem blockMarkAsFree_of_tag (ha : a % 8 = 0) (hle : a + 8 + size + 16 ≤ 2 ^ 64) (hs : Sized size)
    (htag : word m (a + 8) = tag size free prev)
    (hnext : word m (a + 8 + size + 8) = tag nsize nfree nprev) (hn : nsize % 8 = 0) :
    ∃ m', blockMarkAsFree m (BitVec.ofNat 64 a) = some m' ∧
      word m' (a + 8) = tag size true prev ∧ word m' (a + 8 + size) = BitVec.ofNat 64 a ∧
      word m' (a + 8 + size + 8) = tag nsize nfree true ∧
      ∀ y, Cell y → y ≠ a + 8 → y ≠ a + 8 + size → y ≠ a + 8 + size + 8 → word m' y = word m y := by
  obtain ⟨h8, h24, hlt⟩ := hs
  have h1 : word (setWord m (a + 8 + size) (BitVec.ofNat 64 a)) (a + 8 + size + 8) =
      tag nsize nfree nprev := by
    rw [word_setWord_of_ne (by omega) (by omega) (by omega), hnext]
  have h2 : word (setWord (setWord m (a + 8 + size) (BitVec.ofNat 64 a)) (a + 8 + size + 8)
      (tag nsize nfree true)) (a + 8) = tag size free prev := by
    simp (disch := omega) only [word_setWord_of_ne, htag]
  refine ⟨setWord (setWord (setWord m (a + 8 + size) (BitVec.ofNat 64 a)) (a + 8 + size + 8)
    (tag nsize nfree true)) (a + 8) (tag size true prev), ?_, ?_, ?_, ?_, fun y hy h1 h2 h3 => ?_⟩
  · simp only [blockMarkAsFree, blockLinkNext_of_tag htag ⟨h8, h24, hlt⟩, Option.bind_eq_bind,
      Option.bind_some, blockSetPrevFree_of_tag h1 hn, blockSetFree_of_tag h2 h8]
    rfl
  · rw [word_setWord_self]
  · simp (disch := omega) only [word_setWord_of_ne, word_setWord_self]
  · simp (disch := omega) only [word_setWord_of_ne, word_setWord_self]
  · simp (disch := omega) only [word_setWord_of_ne]

theorem blockMarkAsUsed_of_tag (ha : a % 8 = 0) (hle : a + 8 + size + 16 ≤ 2 ^ 64) (hs : Sized size)
    (htag : word m (a + 8) = tag size free prev)
    (hnext : word m (a + 8 + size + 8) = tag nsize nfree nprev) (hn : nsize % 8 = 0) :
    ∃ m', blockMarkAsUsed m (BitVec.ofNat 64 a) = some m' ∧
      word m' (a + 8) = tag size false prev ∧ word m' (a + 8 + size + 8) = tag nsize nfree false ∧
      ∀ y, Cell y → y ≠ a + 8 → y ≠ a + 8 + size + 8 → word m' y = word m y := by
  obtain ⟨h8, h24, hlt⟩ := hs
  have h1 : word (setWord m (a + 8 + size + 8) (tag nsize nfree false)) (a + 8) =
      tag size free prev := by
    rw [word_setWord_of_ne (by omega) (by omega) (by omega), htag]
  refine ⟨setWord (setWord m (a + 8 + size + 8) (tag nsize nfree false)) (a + 8)
    (tag size false prev), ?_, ?_, ?_, fun y hy h1 h2 => ?_⟩
  · simp only [blockMarkAsUsed, blockNext_of_tag htag ⟨h8, h24, hlt⟩, Option.bind_eq_bind,
      Option.bind_some, blockSetPrevUsed_of_tag hnext hn, blockSetUsed_of_tag h1 h8]
    rfl
  · rw [word_setWord_self]
  · simp (disch := omega) only [word_setWord_of_ne, word_setWord_self]
  · simp (disch := omega) only [word_setWord_of_ne]

end Words

theorem Row.markFree (h : Row m s (p ++ b :: r) e) :
    ∃ m', blockMarkAsFree m (BitVec.ofNat 64 b.addr) = some m' ∧
      Row m' s (p ++ { b with free := true } :: r) e ∧
      Frame s e (p ++ { b with free := true } :: r) m m' := by
  have hstop := h.stop_le
  obtain ⟨x, prev, y, last, ⟨⟨rfl, hs, htag, hfoot⟩, rfl, rfl⟩, hnext, hn, hx8, hsx, hye, hback⟩ :=
    (show Row m s (p ++ [b] ++ r) e by simpa using h).focus
  simp only [Block.stop] at hnext hye
  obtain ⟨m', heq, htag', hfoot', hnext', hkeep⟩ :=
    blockMarkAsFree_of_tag hx8 (by omega) hs htag hnext hn
  have hrow : Row m' s (p ++ { b with free := true } :: r) e := by
    have := hback m' [{ b with free := true }] true
      ⟨⟨rfl, hs, htag', fun _ => hfoot'⟩, rfl, rfl⟩ hnext' fun z hz hlow hwhere _ => by
        simp only [Block.stop] at hwhere
        exact hkeep z hz (by omega) (by omega) (by omega)
    simpa using this
  refine ⟨m', heq, hrow, Frame.of_fixed hrow.tiles fun z hz hno => hkeep z hz ?_ ?_ ?_⟩
  · exact fun he => hno ⟨_, List.mem_append_cons_self, Or.inl he⟩
  · exact fun he => hno ⟨_, List.mem_append_cons_self, Or.inr (Or.inr ⟨rfl, he⟩)⟩
  · exact fun he => hno ⟨_, List.mem_append_cons_self, Or.inr (Or.inl he)⟩

theorem Row.markUsed (h : Row m s (p ++ b :: r) e) :
    ∃ m', blockMarkAsUsed m (BitVec.ofNat 64 b.addr) = some m' ∧
      Row m' s (p ++ { b with free := false } :: r) e ∧
      Frame s e (p ++ { b with free := false } :: r) m m' := by
  have hstop := h.stop_le
  obtain ⟨x, prev, y, last, ⟨⟨rfl, hs, htag, hfoot⟩, rfl, rfl⟩, hnext, hn, hx8, hsx, hye, hback⟩ :=
    (show Row m s (p ++ [b] ++ r) e by simpa using h).focus
  simp only [Block.stop] at hnext hye
  obtain ⟨m', heq, htag', hnext', hkeep⟩ := blockMarkAsUsed_of_tag hx8 (by omega) hs htag hnext hn
  have hrow : Row m' s (p ++ { b with free := false } :: r) e := by
    have := hback m' [{ b with free := false }] false
      ⟨⟨rfl, hs, htag', by simp⟩, rfl, rfl⟩ hnext' fun z hz hlow hwhere _ => by
        simp only [Block.stop] at hwhere
        exact hkeep z hz (by omega) (by omega)
    simpa using this
  refine ⟨m', heq, hrow, Frame.of_fixed hrow.tiles fun z hz hno => hkeep z hz ?_ ?_⟩
  · exact fun he => hno ⟨_, List.mem_append_cons_self, Or.inl he⟩
  · exact fun he => hno ⟨_, List.mem_append_cons_self, Or.inr (Or.inl he)⟩

/-! ### Absorbing the next block -/

theorem blockAbsorb_of_tag {size csize : Nat} {free cfree cprev : Bool} (ha : a % 8 = 0)
    (hle : a + 8 + size + 8 + csize + 16 ≤ 2 ^ 64) (hs : Sized size)
    (hsum : Sized (size + (csize + 8))) (htag : word m (a + 8) = tag size free prev)
    (hnext : word m (a + 8 + size + 8) = tag csize cfree cprev) (hc : csize % 8 = 0) :
    ∃ m', blockAbsorb m (BitVec.ofNat 64 a) (BitVec.ofNat 64 (a + 8 + size)) = some m' ∧
      word m' (a + 8) = tag (size + (csize + 8)) free prev ∧
      word m' (a + 8 + (size + (csize + 8))) = BitVec.ofNat 64 a ∧
      ∀ y, Cell y → y ≠ a + 8 → y ≠ a + 8 + (size + (csize + 8)) → word m' y = word m y := by
  obtain ⟨h8, h24, hlt⟩ := hs
  have hlast : ¬blockIsLast m (BitVec.ofNat 64 a) := by
    rw [blockIsLast_of_tag htag h8 hlt]
    omega
  have hadd : tag size free prev + (BitVec.ofNat 64 csize + blockHeaderOverhead) =
      tag (size + (csize + 8)) free prev := by
    rw [← tag_add h8 (by omega), BitVec.ofNat_add csize]
    rfl
  have h1 : word (setWord m (a + 8) (tag (size + (csize + 8)) free prev)) (a + 8) =
      tag (size + (csize + 8)) free prev := word_setWord_self _ _ _
  refine ⟨setWord (setWord m (a + 8) (tag (size + (csize + 8)) free prev))
    (a + 8 + (size + (csize + 8))) (BitVec.ofNat 64 a), ?_, ?_, ?_, fun y hy h1 h2 => ?_⟩
  · simp only [blockAbsorb, tlsfAssert, if_pos hlast, Option.bind_eq_bind, Option.bind_some,
      sizeField_ofNat, htag, blockSize_of_tag hnext hc, hadd, setSizeField_ofNat,
      blockLinkNext_of_tag h1 hsum]
    rfl
  · simp (disch := omega) only [word_setWord_of_ne, word_setWord_self]
  · rw [word_setWord_self]
  · simp (disch := omega) only [word_setWord_of_ne]

theorem Row.absorb (h : Row m s (p ++ b :: c :: r) e) (hb : b.free = true) (hc : c.free = true) :
    ∃ m', blockAbsorb m (BitVec.ofNat 64 b.addr) (BitVec.ofNat 64 c.addr) = some m' ∧
      Row m' s (p ++ b.join 8 c :: r) e ∧ Frame s e (p ++ b.join 8 c :: r) m m' := by
  have hstop := h.stop_le
  have hspan := h.span
  obtain ⟨x, prev, y, last, ⟨⟨rfl, hs, htag, hfoot⟩, ⟨hca, hcs, hctag, hcfoot⟩, rfl, rfl⟩, hnext, hn, hx8, hsx, hye, hback⟩ :=
    (show Row m s (p ++ [b, c] ++ r) e by simpa using h).focus
  simp only [Block.stop] at hnext hye hctag
  have hca' : c.addr = b.addr + 8 + b.size := hca
  obtain ⟨hs8, hs24, hslt⟩ := hs
  obtain ⟨hc8, hc24, hclt⟩ := hcs
  have hsum : Sized (b.size + (c.size + 8)) := by omega
  obtain ⟨m', heq, htag', hfoot', hkeep⟩ := blockAbsorb_of_tag hx8 (by omega) ⟨hs8, hs24, hslt⟩ hsum
    htag hctag hc8
  have hend : (b.join 8 c).stop 8 = c.stop 8 := Block.join_stop hca
  have hrow : Row m' s (p ++ b.join 8 c :: r) e := by
    have := hback m' [b.join 8 c] true
      ⟨⟨rfl, hsum, htag'.trans (by rw [Block.join]), fun _ => hfoot'⟩, hend, hb⟩
      (by
        simp only [Block.stop]
        rw [hkeep _ (by omega) (by omega) (by omega), hnext, hc])
      fun z hz hlow hwhere _ => by
        simp only [Block.stop] at hwhere
        exact hkeep z hz (by omega) (by omega)
    simpa using this
  refine ⟨m', by rwa [hca'], hrow, Frame.of_fixed hrow.tiles fun z hz hno => hkeep z hz ?_ ?_⟩
  · exact fun he => hno ⟨_, List.mem_append_cons_self, Or.inl he⟩
  · exact fun he => hno ⟨_, List.mem_append_cons_self, Or.inr (Or.inr ⟨hb, he⟩)⟩

/-- A used block takes the free one behind it. -/
theorem Row.grow (h : Row m s (p ++ b :: c :: r) e) (hb : b.free = false) (hc : c.free = true) :
    ∃ m₁ m', blockAbsorb m (BitVec.ofNat 64 b.addr) (BitVec.ofNat 64 c.addr) = some m₁ ∧
      blockMarkAsUsed m₁ (BitVec.ofNat 64 b.addr) = some m' ∧
      Row m' s (p ++ b.join 8 c :: r) e ∧ Frame s e (p ++ b :: c :: r) m m' := by
  have hstop := h.stop_le
  have hspan := h.span
  obtain ⟨x, prev, y, last, ⟨⟨rfl, hs, htag, hfoot⟩, ⟨hca, hcs, hctag, hcfoot⟩, rfl, rfl⟩, hnext, hn, hx8, hsx, hye, hback⟩ :=
    (show Row m s (p ++ [b, c] ++ r) e by simpa using h).focus
  simp only [Block.stop] at hnext hye hctag
  have hca' : c.addr = b.addr + 8 + b.size := hca
  obtain ⟨hs8, hs24, hslt⟩ := hs
  obtain ⟨hc8, hc24, hclt⟩ := hcs
  have hsum : Sized (b.size + (c.size + 8)) := by omega
  obtain ⟨m₁, heq₁, htag₁, -, hkeep₁⟩ := blockAbsorb_of_tag hx8 (by omega) ⟨hs8, hs24, hslt⟩ hsum
    htag hctag hc8
  have hnext₁ : word m₁ (b.addr + 8 + (b.size + (c.size + 8)) + 8) =
      tag (nextSize r) (nextIsFree r) c.free := by
    rw [hkeep₁ _ (by omega) (by omega) (by omega), ← hnext, hca']
    congr 1
    omega
  obtain ⟨m', heq, htag', hnext', hkeep⟩ := blockMarkAsUsed_of_tag hx8 (by omega) hsum htag₁ hnext₁ hn
  have hend : (b.join 8 c).stop 8 = c.stop 8 := Block.join_stop hca
  have hrow : Row m' s (p ++ b.join 8 c :: r) e := by
    have := hback m' [b.join 8 c] false
      ⟨⟨rfl, hsum, htag'.trans (by rw [Block.join, hb]), by simp [Block.join, hb]⟩, hend, hb⟩
      (by rw [← hend]; exact hnext')
      fun z hz hlow hwhere _ => by
        simp only [Block.stop] at hwhere
        rw [hkeep z hz (by omega) (by omega), hkeep₁ z hz (by omega) (by omega)]
    simpa using this
  refine ⟨m₁, m', by rwa [hca'], heq, hrow, Frame.of_fixed h.tiles fun z hz hno => ?_⟩
  have h1 : z ≠ b.addr + 8 := fun he => hno ⟨b, by simp, Or.inl he⟩
  have h2 : z ≠ c.stop 8 := fun he => hno ⟨c, by simp, Or.inr (Or.inr ⟨hc, he⟩)⟩
  have h3 : z ≠ c.stop 8 + 8 := fun he => hno ⟨c, by simp, Or.inr (Or.inl he)⟩
  simp only [Block.stop] at h2 h3
  rw [hkeep z hz (by omega) (by omega), hkeep₁ z hz (by omega) (by omega)]

/-! ### Splitting -/

theorem ofNat_le_iff {i j : Nat} (hi : i < 2 ^ 64) (hj : j < 2 ^ 64) :
    BitVec.ofNat 64 i ≤ BitVec.ofNat 64 j ↔ i ≤ j := by
  rw [BitVec.le_def, toNat_ofNat_of_lt hi, toNat_ofNat_of_lt hj]

theorem ofNat_lt_iff {i j : Nat} (hi : i < 2 ^ 64) (hj : j < 2 ^ 64) :
    BitVec.ofNat 64 i < BitVec.ofNat 64 j ↔ i < j := by
  rw [BitVec.lt_def, toNat_ofNat_of_lt hi, toNat_ofNat_of_lt hj]

theorem ofNat_sub {i j : Nat} (hi : i ≤ j) :
    BitVec.ofNat 64 j - BitVec.ofNat 64 i = BitVec.ofNat 64 (j - i) := by
  have hj : j = j - i + i := by omega
  rw [hj, BitVec.ofNat_add, Nat.add_sub_cancel]
  exact BitVec.add_sub_cancel _ _

theorem alignPtr_of_mod {x : Nat} (hx : x < 2 ^ 64) (h8 : x % 8 = 0) :
    alignPtr (BitVec.ofNat 64 x) (BitVec.ofNat 64 alignSize) = some (BitVec.ofNat 64 x) := by
  have hup := alignUp_eq (BitVec.ofNat 64 x)
  have hsize : BitVec.ofNat 64 alignSize &&& (BitVec.ofNat 64 alignSize - 1) = 0 := by decide
  simp only [alignUp, alignPtr, tlsfAssert, if_pos hsize, Option.bind_eq_bind, Option.bind_some] at hup ⊢
  refine hup.trans ?_
  rw [toNat_ofNat_of_lt hx]
  congr 2
  omega

theorem blockCanSplit_of_tag {size t : Nat} {free : Bool} (h : word m (a + 8) = tag size free prev)
    (hs : Sized size) (ht : t < 2 ^ 32) :
    blockCanSplit m (BitVec.ofNat 64 a) (BitVec.ofNat 64 t) ↔ 32 + t ≤ size := by
  obtain ⟨h8, h24, hlt⟩ := hs
  have hsum : sizeofBlockHeader + BitVec.ofNat 64 t = BitVec.ofNat 64 (32 + t) := by
    rw [BitVec.ofNat_add]
    rfl
  rw [blockCanSplit, blockSize_of_tag h h8, hsum, ofNat_le_iff (by omega) (by omega)]

/-- The words after a block was cut at `t`.  One flag of the rest is what was there before. -/
theorem blockSplit_of_tag {size t nsize : Nat} {free nfree nprev : Bool} (ha : a % 8 = 0)
    (hle : a + 8 + size + 16 ≤ 2 ^ 64) (hs : Sized size) (t8 : t % 8 = 0) (hfit : 32 + t ≤ size)
    (htag : word m (a + 8) = tag size free prev)
    (hnext : word m (a + 8 + size + 8) = tag nsize nfree nprev) (hn : nsize % 8 = 0) :
    ∃ m' g, blockSplit m (BitVec.ofNat 64 a) (BitVec.ofNat 64 t) =
        some (BitVec.ofNat 64 (a + 8 + t), m') ∧
      word m' (a + 8) = tag t free prev ∧
      word m' (a + 8 + t + 8) = tag (size - t - 8) true g ∧
      word m' (a + 8 + size) = BitVec.ofNat 64 (a + 8 + t) ∧
      word m' (a + 8 + size + 8) = tag nsize nfree true ∧
      ∀ y, Cell y → y ≠ a + 8 → y ≠ a + 8 + t + 8 → y ≠ a + 8 + size → y ≠ a + 8 + size + 8 →
        word m' y = word m y := by
  obtain ⟨h8, h24, hlt⟩ := hs
  have hrem : BitVec.ofNat 64 size - (BitVec.ofNat 64 t + blockHeaderOverhead) =
      BitVec.ofNat 64 (size - t - 8) := by
    rw [show blockHeaderOverhead = BitVec.ofNat 64 8 from rfl, ← BitVec.ofNat_add, ofNat_sub (by omega)]
    congr 1
  have hsum : BitVec.ofNat 64 size =
      BitVec.ofNat 64 (size - t - 8) + BitVec.ofNat 64 t + blockHeaderOverhead := by
    rw [show blockHeaderOverhead = BitVec.ofNat 64 8 from rfl, ← BitVec.ofNat_add, ← BitVec.ofNat_add]
    congr 1
    omega
  obtain ⟨f, g, hset⟩ := exists_blockSetSize m (a + 8 + t) (size - t - 8)
  generalize hm₁ : setWord m (a + 8 + t + 8) (tag (size - t - 8) f g) = m₁ at hset
  have htag₁ : word m₁ (a + 8) = tag size free prev := by
    rw [← hm₁, word_setWord_of_ne (by omega) (by omega) (by omega), htag]
  have hrem₁ : word m₁ (a + 8 + t + 8) = tag (size - t - 8) f g := by
    rw [← hm₁, word_setWord_self]
  have hmin : blockSizeMin ≤ BitVec.ofNat 64 (size - t - 8) := by
    rw [show blockSizeMin = BitVec.ofNat 64 24 from rfl, ofNat_le_iff (by omega) (by omega)]
    omega
  generalize hm₂ : setWord m₁ (a + 8) (tag t free prev) = m₂
  have hrem₂ : word m₂ (a + 8 + t + 8) = tag (size - t - 8) f g := by
    rw [← hm₂, word_setWord_of_ne (by omega) (by omega) (by omega), hrem₁]
  have hstop : a + 8 + t + 8 + (size - t - 8) = a + 8 + size := by omega
  have hnext₂ : word m₂ (a + 8 + t + 8 + (size - t - 8) + 8) = tag nsize nfree nprev := by
    rw [hstop, ← hm₂, ← hm₁]
    simp (disch := omega) only [word_setWord_of_ne, hnext]
  obtain ⟨m', heq, hrem', hfoot', hnext', hkeep⟩ :=
    blockMarkAsFree_of_tag (by omega) (by omega) (by omega) hrem₂ hnext₂ hn
  rw [hstop] at hfoot' hnext' hkeep
  refine ⟨m', g, ?_, ?_, hrem', hfoot', hnext', fun y hy h1 h2 h3 h4 => ?_⟩
  · simp only [blockSplit, offsetToBlock, blockToPtr_ofNat, offset_next, tlsfAssert,
      blockSize_of_tag htag h8, hrem, alignPtr_of_mod (show a + 8 + t + 16 < 2 ^ 64 by omega) (by omega),
      if_pos hsum, hset, blockSize_of_tag hrem₁ (by omega), if_pos hmin,
      blockSetSize_of_tag htag₁ h8, hm₂, heq, Option.bind_eq_bind, Option.bind_some, if_true]
    rfl
  · rw [hkeep _ (by omega) (by omega) (by omega) (by omega), ← hm₂, word_setWord_self]
  · rw [hkeep y hy h2 h3 h4, ← hm₂, ← hm₁]
    simp (disch := omega) only [word_setWord_of_ne]

/-- A block is cut in two, and the two words between the parts are put right afterwards. -/
theorem Row.split {t : Nat} (h : Row m s (p ++ b :: r) e) (ht : Sized t) (hfit : 32 + t ≤ b.size) :
    ∃ m₁ prev g, blockSplit m (BitVec.ofNat 64 b.addr) (BitVec.ofNat 64 t) =
        some (BitVec.ofNat 64 (b.rest 8 t).addr, m₁) ∧
      word m₁ (b.addr + 8) = tag t b.free prev ∧
      word m₁ ((b.rest 8 t).addr + 8) = tag (b.rest 8 t).size true g ∧
      ∀ m', word m' ((b.rest 8 t).addr + 8) = tag (b.rest 8 t).size true b.free →
        word m' (b.rest 8 t).addr =
          (if b.free then BitVec.ofNat 64 b.addr else word m₁ (b.rest 8 t).addr) →
        (∀ y, Cell y → y ≠ (b.rest 8 t).addr → y ≠ (b.rest 8 t).addr + 8 → word m' y = word m₁ y) →
        Row m' s (p ++ b.front t :: b.rest 8 t :: r) e ∧
          Frame s e (p ++ b.front t :: b.rest 8 t :: r) m m' := by
  have hstop := h.stop_le
  obtain ⟨x, prev, y, last, ⟨⟨rfl, hs, htag, hfoot⟩, rfl, rfl⟩, hnext, hn, hx8, hsx, hye, hback⟩ :=
    (show Row m s (p ++ [b] ++ r) e by simpa using h).focus
  simp only [Block.stop] at hnext hye
  obtain ⟨m₁, g, heq, htag₁, hrest₁, hfoot₁, hnext₁, hkeep₁⟩ :=
    blockSplit_of_tag hx8 (by omega) hs ht.1 hfit htag hnext hn
  refine ⟨m₁, prev, g, heq, htag₁, hrest₁, fun m' hrest' hmid' hkeep => ?_⟩
  have hsized : Sized (b.rest 8 t).size := by
    simp only [Block.rest]
    omega
  have hend : (b.rest 8 t).stop 8 = b.stop 8 := Block.rest_stop (by omega)
  simp only [Block.rest] at hkeep
  have hrow : Row m' s (p ++ b.front t :: b.rest 8 t :: r) e := by
    have := hback m' [b.front t, b.rest 8 t] true ⟨⟨rfl, ht, ?_, fun hb => ?_⟩, ⟨rfl, hsized, hrest', fun _ => ?_⟩, hend, rfl⟩
      ?_ fun z hz hlow hwhere _ => ?_
    · simpa using this
    · rw [hkeep _ (by omega) (by omega) (by omega), htag₁]
      rfl
    · refine hmid'.trans (if_pos hb)
    · rw [hend]
      simp only [Block.stop, Block.front]
      rw [hkeep _ (by omega) (by omega) (by omega), hfoot₁]
    · simp only [Block.stop]
      rw [hkeep _ (by omega) (by omega) (by omega), hnext₁]
    · simp only [Block.stop] at hwhere
      rw [hkeep z hz (by omega) (by omega), hkeep₁ z hz (by omega) (by omega) (by omega) (by omega)]
  refine ⟨hrow, Frame.of_fixed hrow.tiles fun z hz hno => ?_⟩
  have h1 : z ≠ b.addr + 8 := fun he => hno ⟨b.front t, by simp, Or.inl he⟩
  have h2 : z ≠ b.addr + 8 + t + 8 := fun he => hno ⟨b.front t, by simp, Or.inr (Or.inl he)⟩
  have h3 : z ≠ b.addr + 8 + b.size := fun he =>
    hno ⟨b.rest 8 t, by simp, Or.inr (Or.inr ⟨rfl, he.trans hend.symm⟩)⟩
  have h4 : z ≠ b.addr + 8 + b.size + 8 := fun he =>
    hno ⟨b.rest 8 t, by simp, Or.inr (Or.inl (he.trans (by rw [hend]; rfl)))⟩
  have hkeep₁' := hkeep₁ z hz h1 h2 h3 h4
  by_cases hz5 : z = b.addr + 8 + t
  · subst hz5
    cases hb : b.free with
    | true => exact absurd ⟨b.front t, by simp, Or.inr (Or.inr ⟨hb, rfl⟩)⟩ hno
    | false =>
      rw [hb] at hmid'
      exact hmid'.trans hkeep₁'
  · rw [hkeep z hz hz5 h2, hkeep₁']

/-- The way a free block is cut. -/
theorem Row.splitFree {t : Nat} (h : Row m s (p ++ b :: r) e) (hb : b.free = true) (ht : Sized t)
    (hfit : 32 + t ≤ b.size) : ∃ m₁ m₂,
      blockSplit m (BitVec.ofNat 64 b.addr) (BitVec.ofNat 64 t) =
        some (BitVec.ofNat 64 (b.rest 8 t).addr, m₁) ∧
      blockLinkNext m₁ (BitVec.ofNat 64 b.addr) = some (BitVec.ofNat 64 (b.rest 8 t).addr, m₂) ∧
      Row (blockSetPrevFree m₂ (BitVec.ofNat 64 (b.rest 8 t).addr)) s
        (p ++ b.front t :: b.rest 8 t :: r) e ∧
      Frame s e (p ++ b.front t :: b.rest 8 t :: r) m
        (blockSetPrevFree m₂ (BitVec.ofNat 64 (b.rest 8 t).addr)) := by
  have hx8 := h.addr_mod (b := b) (by simp)
  have hle := h.addr_lt (b := b) (by simp)
  obtain ⟨m₁, prev, g, heq, htag, hrest, hback⟩ := h.split ht hfit
  have hsized : (b.rest 8 t).size % 8 = 0 := by
    have := (h.sized (b := b) (by simp)).1
    simp only [Block.rest]
    omega
  have hlink := blockLinkNext_of_tag htag ht
  rw [show b.addr + 8 + t = (b.rest 8 t).addr from rfl] at hlink
  have haddr : (b.rest 8 t).addr % 8 = 0 ∧ (b.rest 8 t).addr + 16 < 2 ^ 64 := by
    simp only [Block.rest]
    omega
  have hrest₂ : word (setWord m₁ (b.rest 8 t).addr (BitVec.ofNat 64 b.addr)) ((b.rest 8 t).addr + 8) =
      tag (b.rest 8 t).size true g := by
    rw [word_setWord_of_ne (by omega) (by omega) (by omega), hrest]
  refine ⟨m₁, _, heq, hlink, ?_⟩
  rw [blockSetPrevFree_of_tag hrest₂ hsized]
  refine hback _ ?_ ?_ fun y hy h1 h2 => ?_
  · rw [word_setWord_self, hb]
  · rw [word_setWord_of_ne (by omega) (by omega) (by omega), word_setWord_self, hb, if_pos rfl]
  · simp (disch := omega) only [word_setWord_of_ne]

/-- The same, when the two words are put right in the other order. -/
theorem Row.splitLeading {t : Nat} (h : Row m s (p ++ b :: r) e) (hb : b.free = true) (ht : Sized t)
    (hfit : 32 + t ≤ b.size) : ∃ m₁ m₂,
      blockSplit m (BitVec.ofNat 64 b.addr) (BitVec.ofNat 64 t) =
        some (BitVec.ofNat 64 (b.rest 8 t).addr, m₁) ∧
      blockLinkNext (blockSetPrevFree m₁ (BitVec.ofNat 64 (b.rest 8 t).addr))
        (BitVec.ofNat 64 b.addr) = some (BitVec.ofNat 64 (b.rest 8 t).addr, m₂) ∧
      Row m₂ s (p ++ b.front t :: b.rest 8 t :: r) e ∧
      Frame s e (p ++ b.front t :: b.rest 8 t :: r) m m₂ := by
  have hx8 := h.addr_mod (b := b) (by simp)
  have hle := h.addr_lt (b := b) (by simp)
  obtain ⟨m₁, prev, g, heq, htag, hrest, hback⟩ := h.split ht hfit
  have hsized : (b.rest 8 t).size % 8 = 0 := by
    have := (h.sized (b := b) (by simp)).1
    simp only [Block.rest]
    omega
  have haddr : (b.rest 8 t).addr % 8 = 0 ∧ b.addr + 32 ≤ (b.rest 8 t).addr ∧
      (b.rest 8 t).addr + 16 < 2 ^ 64 := by
    simp only [Block.rest]
    omega
  have htag₂ : word (setWord m₁ ((b.rest 8 t).addr + 8) (tag (b.rest 8 t).size true true)) (b.addr + 8) =
      tag t b.free prev := by
    rw [word_setWord_of_ne (by omega) (by omega) (by omega), htag]
  have hlink := blockLinkNext_of_tag htag₂ ht
  rw [show b.addr + 8 + t = (b.rest 8 t).addr from rfl] at hlink
  have hset := blockSetPrevFree_of_tag hrest hsized
  refine ⟨m₁, _, heq, (congrArg (blockLinkNext · _) hset).trans hlink, ?_⟩
  refine hback _ ?_ ?_ fun y hy h1 h2 => ?_
  · rw [word_setWord_of_ne (by omega) (by omega) (by omega), word_setWord_self, hb]
  · rw [word_setWord_self, hb, if_pos rfl]
  · simp (disch := omega) only [word_setWord_of_ne]

/-- The way a used block is cut. -/
theorem Row.splitUsed {t : Nat} (h : Row m s (p ++ b :: r) e) (hb : b.free = false) (ht : Sized t)
    (hfit : 32 + t ≤ b.size) : ∃ m₁,
      blockSplit m (BitVec.ofNat 64 b.addr) (BitVec.ofNat 64 t) =
        some (BitVec.ofNat 64 (b.rest 8 t).addr, m₁) ∧
      Row (blockSetPrevUsed m₁ (BitVec.ofNat 64 (b.rest 8 t).addr)) s
        (p ++ b.front t :: b.rest 8 t :: r) e ∧
      Frame s e (p ++ b.front t :: b.rest 8 t :: r) m
        (blockSetPrevUsed m₁ (BitVec.ofNat 64 (b.rest 8 t).addr)) := by
  have hx8 := h.addr_mod (b := b) (by simp)
  have hle := h.addr_lt (b := b) (by simp)
  obtain ⟨m₁, prev, g, heq, htag, hrest, hback⟩ := h.split ht hfit
  have hsized : (b.rest 8 t).size % 8 = 0 := by
    have := (h.sized (b := b) (by simp)).1
    simp only [Block.rest]
    omega
  have haddr : (b.rest 8 t).addr % 8 = 0 ∧ (b.rest 8 t).addr + 16 < 2 ^ 64 := by
    simp only [Block.rest]
    omega
  refine ⟨m₁, heq, ?_⟩
  rw [blockSetPrevUsed_of_tag hrest hsized]
  refine hback _ ?_ ?_ fun y hy h1 h2 => ?_
  · rw [word_setWord_self, hb]
  · rw [word_setWord_of_ne (by omega) (by omega) (by omega), hb]
    rfl
  · simp (disch := omega) only [word_setWord_of_ne]

end AncoreOS.Heap
