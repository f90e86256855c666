import Mathlib.Data.List.Chain
import Mathlib.Tactic

/-!
# Blocks that tile a range

A heap is a row of blocks, each with a header of `h` bytes in front of what it holds, and each
starting where the one before it stops.  `Tiles h a l e` says that the blocks `l` fill the
addresses from `a` to `e` in this way.

Then any two blocks are equal or apart (`Tiles.apart`), and a block is known by its address
(`Tiles.eq_of_addr`).  A part of the row is exchanged by exchanging a part of the list
(`tiles_append`).

`Coalesced` says that no two neighbours are free.  When every block of such a row is free, there is
one block at most (`Coalesced.eq_singleton`), so nothing is lost to fragmentation for ever.

The operations of an allocator with headers are on such rows.  `allot` cuts a free block and gives its
front part away, `release` joins a block with its free neighbours, and `trim` gives back what a used
block has too much.  They keep the tiling, the coalescing and the other used blocks.
-/

namespace BlockTiling

/-- Where the header is, what the block holds behind it, and whether it is free. -/
structure Block where
  addr : Nat
  size : Nat
  free : Bool
  deriving DecidableEq, Repr

/-- The address behind the block. -/
def Block.stop (h : Nat) (b : Block) : Nat := b.addr + h + b.size

def Tiles (h : Nat) : Nat → List Block → Nat → Prop
  | a, [], e => a = e
  | a, b :: l, e => b.addr = a ∧ Tiles h (b.stop h) l e

variable {h a e x : Nat} {l m p r : List Block} {b c : Block}

@[simp] theorem tiles_nil : Tiles h a [] e ↔ a = e := Iff.rfl

@[simp] theorem tiles_cons : Tiles h a (b :: l) e ↔ b.addr = a ∧ Tiles h (b.stop h) l e := Iff.rfl

theorem tiles_append : Tiles h a (l ++ r) e ↔ ∃ x, Tiles h a l x ∧ Tiles h x r e := by
  induction l generalizing a with
  | nil => simp
  | cons b l ih => simp [ih, and_assoc]

theorem Tiles.le (ht : Tiles h a l e) : a ≤ e := by
  induction l generalizing a with
  | nil => exact Nat.le_of_eq ht
  | cons b l ih =>
    obtain ⟨rfl, hrest⟩ := ht
    have := ih hrest
    unfold Block.stop at this
    omega

theorem Tiles.bounds (ht : Tiles h a l e) (hb : b ∈ l) : a ≤ b.addr ∧ b.stop h ≤ e := by
  induction l generalizing a with
  | nil => simp at hb
  | cons c l ih =>
    obtain ⟨rfl, hrest⟩ := ht
    rcases List.mem_cons.mp hb with rfl | hb
    · exact ⟨le_rfl, hrest.le⟩
    · have := ih hrest hb
      unfold Block.stop at *
      omega

/-- **Two blocks do not overlap.** -/
theorem Tiles.apart (ht : Tiles h a l e) (hb : b ∈ l) (hc : c ∈ l) :
    b = c ∨ b.stop h ≤ c.addr ∨ c.stop h ≤ b.addr := by
  induction l generalizing a with
  | nil => simp at hb
  | cons d l ih =>
    obtain ⟨rfl, hrest⟩ := ht
    rw [List.mem_cons] at hb hc
    rcases hb with rfl | hb <;> rcases hc with rfl | hc
    · exact Or.inl rfl
    · exact Or.inr (Or.inl (hrest.bounds hc).1)
    · exact Or.inr (Or.inr (hrest.bounds hb).1)
    · exact ih hrest hb hc

theorem Tiles.eq_of_addr (ht : Tiles h a l e) (hpos : 0 < h) (hb : b ∈ l) (hc : c ∈ l)
    (heq : b.addr = c.addr) : b = c := by
  rcases ht.apart hb hc with hbc | hbc | hbc
  · exact hbc
  · unfold Block.stop at hbc
    omega
  · unfold Block.stop at hbc
    omega

theorem Tiles.addr_nodup (ht : Tiles h a l e) (hpos : 0 < h) : (l.map Block.addr).Nodup := by
  induction l generalizing a with
  | nil => simp
  | cons b l ih =>
    obtain ⟨rfl, hrest⟩ := ht
    rw [List.map_cons, List.nodup_cons]
    refine ⟨fun hmem => ?_, ih hrest⟩
    obtain ⟨c, hc, heq⟩ := List.mem_map.mp hmem
    have := (hrest.bounds hc).1
    unfold Block.stop at this
    omega

/-- The other blocks of a row are elsewhere. -/
theorem Tiles.addr_ne (ht : Tiles h a (l ++ b :: r) e) (hpos : 0 < h) (hc : c ∈ l ∨ c ∈ r) :
    c.addr ≠ b.addr := by
  have hnodup := ht.addr_nodup hpos
  rw [List.map_append, List.map_cons, List.nodup_middle, List.nodup_cons, ← List.map_append] at hnodup
  intro heq
  refine hnodup.1 (heq ▸ List.mem_map_of_mem ?_)
  exact List.mem_append.mpr hc

theorem Tiles.nodup (ht : Tiles h a l e) (hpos : 0 < h) : l.Nodup :=
  (ht.addr_nodup hpos).of_map _

/-- The whole range is accounted for. -/
theorem Tiles.total (ht : Tiles h a l e) : a + (l.map fun b => h + b.size).sum = e := by
  induction l generalizing a with
  | nil => simpa using ht
  | cons b l ih =>
    obtain ⟨rfl, hrest⟩ := ht
    have := ih hrest
    simp only [List.map_cons, List.sum_cons]
    unfold Block.stop at this
    omega

/-! ### Two blocks as one, and one as two -/

/-- A block takes the next one, header and all. -/
def Block.join (h : Nat) (b c : Block) : Block := { b with size := b.size + (c.size + h) }

@[simp] theorem Block.join_addr (h : Nat) (b c : Block) : (b.join h c).addr = b.addr := rfl

/-- What a block keeps when it is cut, and what becomes a free block of its own. -/
def Block.front (b : Block) (t : Nat) : Block := { b with size := t }

def Block.rest (h : Nat) (b : Block) (t : Nat) : Block :=
  { addr := b.addr + h + t, size := b.size - t - h, free := true }

theorem Block.rest_stop {t : Nat} (ht : t + h ≤ b.size) : (b.rest h t).stop h = b.stop h := by
  simp only [Block.rest, Block.stop]
  omega

theorem Block.join_stop (hc : c.addr = b.stop h) : (b.join h c).stop h = c.stop h := by
  simp only [Block.join, Block.stop] at *
  omega

/-! ### Free neighbours -/

def Coalesced (l : List Block) : Prop := l.IsChain fun b c => ¬(b.free = true ∧ c.free = true)

/-- **Of a row that is free altogether one block is left.** -/
theorem Coalesced.eq_singleton (hl : Coalesced l) (hfree : ∀ b ∈ l, b.free = true) (hne : l ≠ []) :
    ∃ b, l = [b] := by
  cases l with
  | nil => exact absurd rfl hne
  | cons b l =>
    cases l with
    | nil => exact ⟨b, rfl⟩
    | cons c l =>
      have hbc := (List.isChain_cons_cons.mp hl).1
      exact absurd ⟨hfree b (by simp), hfree c (by simp)⟩ hbc

/-- The last block of the row is used. -/
def EndsUsed (l : List Block) : Prop := ∀ b ∈ l.getLast?, b.free = false

/-- The first block of the row is used. -/
def StartsUsed (l : List Block) : Prop := ∀ b ∈ l.head?, b.free = false

/-- A free block with used neighbours. -/
theorem coalesced_free (hb : b.free = true) :
    Coalesced (l ++ b :: r) ↔ Coalesced l ∧ EndsUsed l ∧ StartsUsed r ∧ Coalesced r := by
  unfold Coalesced EndsUsed StartsUsed
  rw [List.isChain_append, List.isChain_cons]
  simp [hb]
  tauto

/-- A used block may stand anywhere. -/
theorem coalesced_used (hb : b.free = false) :
    Coalesced (l ++ b :: r) ↔ Coalesced l ∧ Coalesced r := by
  unfold Coalesced
  rw [List.isChain_append, List.isChain_cons]
  simp [hb]

/-! ### The used blocks -/

def usedOf (l : List Block) : List Block := l.filter fun b => !b.free

@[simp] theorem usedOf_nil : usedOf [] = [] := rfl

@[simp] theorem usedOf_append (l r : List Block) : usedOf (l ++ r) = usedOf l ++ usedOf r :=
  List.filter_append ..

theorem usedOf_cons_free (hb : b.free = true) : usedOf (b :: l) = usedOf l :=
  List.filter_cons_of_neg (by simp [hb])

theorem usedOf_cons_used (hb : b.free = false) : usedOf (b :: l) = b :: usedOf l :=
  List.filter_cons_of_pos (by simp [hb])

theorem mem_usedOf : b ∈ usedOf l ↔ b ∈ l ∧ b.free = false := by
  simp [usedOf]

/-- The used blocks but for one. -/
theorem Tiles.mem_usedOf_erase (ht : Tiles h a (l ++ b :: r) e) (hpos : 0 < h) (hb : b.free = false) :
    c ∈ usedOf l ++ usedOf r ↔ c ∈ usedOf (l ++ b :: r) ∧ c ≠ b := by
  have hne : c ∈ l ∨ c ∈ r → c ≠ b := fun hc heq => ht.addr_ne hpos hc (congrArg Block.addr heq)
  rw [usedOf_append, usedOf_cons_used hb, List.mem_append, List.mem_append, List.mem_cons]
  constructor
  · rintro (hc | hc)
    · exact ⟨Or.inl hc, hne (Or.inl (mem_usedOf.mp hc).1)⟩
    · exact ⟨Or.inr (Or.inr hc), hne (Or.inr (mem_usedOf.mp hc).1)⟩
  · rintro ⟨hc | hc | hc, hcb⟩
    · exact Or.inl hc
    · exact absurd hc hcb
    · exact Or.inr hc

/-- A row without free neighbours, none of whose blocks is used, is one free block. -/
theorem Tiles.eq_free_block (ht : Tiles h a l e) (hl : Coalesced l) (hused : usedOf l = [])
    (hne : a ≠ e) : l = [{ addr := a, size := e - a - h, free := true }] := by
  have hfree : ∀ b ∈ l, b.free = true := by
    intro b hb
    by_contra hno
    have : b ∈ usedOf l := mem_usedOf.mpr ⟨hb, by simpa using hno⟩
    rw [hused] at this
    simp at this
  have hl0 : l ≠ [] := by
    rintro rfl
    exact hne ht
  obtain ⟨b, rfl⟩ := hl.eq_singleton hfree hl0
  obtain ⟨rfl, hend⟩ := ht
  have hb := hfree b (by simp)
  obtain ⟨addr, size, free⟩ := b
  simp only [tiles_nil, Block.stop] at hend hb
  subst hend hb
  simp only [List.cons.injEq, Block.mk.injEq, and_true, true_and]
  omega

/-! ### Allotting, releasing, trimming -/

/-- A block is cut when the rest can be a block of at least `k` bytes. -/
def allot (h k : Nat) (b : Block) (t : Nat) : List Block :=
  if h + k + t ≤ b.size then [{ b.front t with free := false }, b.rest h t]
  else [{ b with free := false }]

/-- A free block takes a free one before it. -/
def mergeBack (h : Nat) (p : List Block) (b : Block) : List Block × Block :=
  match p.getLast? with
  | some q => if q.free then (p.dropLast, q.join h b) else (p, b)
  | none => (p, b)

/-- A free block takes a free one behind it. -/
def mergeFront (h : Nat) (b : Block) : List Block → Block × List Block
  | [] => (b, [])
  | q :: r => if q.free then (b.join h q, r) else (b, q :: r)

def release (h : Nat) (p : List Block) (b : Block) (r : List Block) : List Block :=
  let back := mergeBack h p { b with free := true }
  let front := mergeFront h back.2 r
  back.1 ++ front.1 :: front.2

def trim (h k : Nat) (p : List Block) (b : Block) (t : Nat) (r : List Block) : List Block :=
  if h + k + t ≤ b.size then
    let front := mergeFront h (b.rest h t) r
    p ++ b.front t :: front.1 :: front.2
  else
    p ++ b :: r

section Operations

variable {k t : Nat}

theorem mergeBack_cases (h : Nat) (p : List Block) (b : Block) :
    (∃ p' q, p = p' ++ [q] ∧ q.free = true ∧ mergeBack h p b = (p', q.join h b)) ∨
      EndsUsed p ∧ mergeBack h p b = (p, b) := by
  rcases List.eq_nil_or_concat p with rfl | ⟨p', q, rfl⟩
  · right
    exact ⟨by simp [EndsUsed], rfl⟩
  · cases hq : q.free with
    | true =>
      left
      exact ⟨p', q, by simp, hq, by simp [mergeBack, hq]⟩
    | false =>
      right
      exact ⟨by simp [EndsUsed, hq], by simp [mergeBack, hq]⟩

theorem mergeFront_cases (h : Nat) (b : Block) (r : List Block) :
    (∃ q r', r = q :: r' ∧ q.free = true ∧ mergeFront h b r = (b.join h q, r')) ∨
      StartsUsed r ∧ mergeFront h b r = (b, r) := by
  cases r with
  | nil => exact Or.inr ⟨by simp [StartsUsed], rfl⟩
  | cons q r =>
    cases hq : q.free with
    | true => exact Or.inl ⟨q, r, rfl, hq, by simp [mergeFront, hq]⟩
    | false => exact Or.inr ⟨by simp [StartsUsed, hq], by simp [mergeFront, hq]⟩

theorem mergeBack_free (hb : b.free = true) : (mergeBack h p b).2.free = true := by
  rcases mergeBack_cases h p b with ⟨p', q, rfl, hq, heq⟩ | ⟨-, heq⟩
  · rw [heq]
    exact hq
  · rw [heq]
    exact hb

theorem mergeFront_free (hb : b.free = true) : (mergeFront h b r).1.free = true := by
  rcases mergeFront_cases h b r with ⟨q, r', rfl, hq, heq⟩ | ⟨-, heq⟩
  · rw [heq]
    exact hb
  · rw [heq]
    exact hb

theorem mergeFront_addr : (mergeFront h b r).1.addr = b.addr := by
  rcases mergeFront_cases h b r with ⟨q, r', rfl, hq, heq⟩ | ⟨-, heq⟩
  · rw [heq]
    rfl
  · rw [heq]

theorem usedOf_mergeBack : usedOf (mergeBack h p b).1 = usedOf p := by
  rcases mergeBack_cases h p b with ⟨p', q, rfl, hq, heq⟩ | ⟨-, heq⟩
  · rw [heq, usedOf_append, usedOf_cons_free hq]
    simp
  · rw [heq]

theorem usedOf_mergeFront : usedOf (mergeFront h b r).2 = usedOf r := by
  rcases mergeFront_cases h b r with ⟨q, r', rfl, hq, heq⟩ | ⟨-, heq⟩
  · rw [heq, usedOf_cons_free hq]
  · rw [heq]

/-- After the merge no free block is next to the block. -/
theorem mergeBack_ends (hp : Coalesced p) :
    Coalesced (mergeBack h p b).1 ∧ EndsUsed (mergeBack h p b).1 := by
  rcases mergeBack_cases h p b with ⟨p', q, rfl, hq, heq⟩ | ⟨hends, heq⟩
  · rw [heq]
    have := (coalesced_free hq).mp hp
    exact ⟨this.1, this.2.1⟩
  · rw [heq]
    exact ⟨hp, hends⟩

theorem mergeFront_starts (hr : Coalesced r) :
    Coalesced (mergeFront h b r).2 ∧ StartsUsed (mergeFront h b r).2 := by
  rcases mergeFront_cases h b r with ⟨q, r', rfl, hq, heq⟩ | ⟨hstarts, heq⟩
  · rw [heq]
    have := (coalesced_free (l := []) hq).mp hr
    exact ⟨this.2.2.2, this.2.2.1⟩
  · rw [heq]
    exact ⟨hr, hstarts⟩

theorem coalesced_allot (hp : Coalesced p) (hstarts : StartsUsed r) (hr : Coalesced r) :
    Coalesced (p ++ allot h k b t ++ r) := by
  unfold allot
  split
  · rw [List.append_assoc]
    refine (coalesced_used rfl).mpr ⟨hp, ?_⟩
    exact (coalesced_free (l := []) rfl).mpr ⟨List.isChain_nil, by simp [EndsUsed], hstarts, hr⟩
  · rw [List.append_assoc]
    exact (coalesced_used rfl).mpr ⟨hp, hr⟩

theorem usedOf_allot : ∃ d, d.addr = b.addr ∧ d.free = false ∧ (t ≤ b.size → t ≤ d.size) ∧
    usedOf (p ++ allot h k b t ++ r) = usedOf p ++ d :: usedOf r := by
  unfold allot
  split
  · refine ⟨{ b.front t with free := false }, rfl, rfl, fun _ => le_rfl, ?_⟩
    rw [usedOf_append, usedOf_append, usedOf_cons_used rfl, usedOf_cons_free rfl]
    simp
  · refine ⟨{ b with free := false }, rfl, rfl, id, ?_⟩
    rw [usedOf_append, usedOf_append, usedOf_cons_used rfl]
    simp

theorem coalesced_release (hl : Coalesced (p ++ b :: r)) (hb : b.free = false) :
    Coalesced (release h p b r) := by
  obtain ⟨hp, hr⟩ := (coalesced_used hb).mp hl
  have hback := mergeBack_ends (h := h) (b := { b with free := true }) hp
  have hfront := mergeFront_starts (h := h) (b := (mergeBack h p { b with free := true }).2) hr
  have hfree : (mergeBack h p { b with free := true }).2.free = true := mergeBack_free rfl
  exact (coalesced_free (mergeFront_free hfree)).mpr ⟨hback.1, hback.2, hfront.2, hfront.1⟩

theorem usedOf_release : usedOf (release h p b r) = usedOf p ++ usedOf r := by
  have hfree : (mergeBack h p { b with free := true }).2.free = true := mergeBack_free rfl
  unfold release
  rw [usedOf_append, usedOf_cons_free (mergeFront_free hfree), usedOf_mergeBack, usedOf_mergeFront]

theorem coalesced_trim (hl : Coalesced (p ++ b :: r)) (hb : b.free = false) :
    Coalesced (trim h k p b t r) := by
  obtain ⟨hp, hr⟩ := (coalesced_used hb).mp hl
  unfold trim
  split
  · have hfront := mergeFront_starts (h := h) (b := b.rest h t) hr
    refine (coalesced_used (b := b.front t) hb).mpr ⟨hp, ?_⟩
    refine (coalesced_free (l := []) (mergeFront_free rfl)).mpr ?_
    exact ⟨List.isChain_nil, by simp [EndsUsed], hfront.2, hfront.1⟩
  · exact hl

theorem usedOf_trim (hb : b.free = false) : ∃ d, d.addr = b.addr ∧ d.free = false ∧
    (t ≤ b.size → t ≤ d.size) ∧ d.size ≤ b.size ∧
    usedOf (trim h k p b t r) = usedOf p ++ d :: usedOf r := by
  unfold trim
  split
  · refine ⟨b.front t, rfl, hb, fun _ => le_rfl, ?_, ?_⟩
    · show t ≤ b.size
      omega
    · rw [usedOf_append, usedOf_cons_used (b := b.front t) hb, usedOf_cons_free (mergeFront_free rfl),
        usedOf_mergeFront]
  · refine ⟨b, rfl, hb, id, le_rfl, ?_⟩
    rw [usedOf_append, usedOf_cons_used hb]

end Operations

end BlockTiling
