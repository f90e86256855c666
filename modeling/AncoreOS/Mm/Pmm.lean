import AncoreOS.Library.ByteMemory
import AncoreOS.Library.Loop

/-!
# The physical memory manager

`mm/pmm.c` keeps the free page frames of the machine on a singly linked list
that lives inside the free frames themselves: a free frame starts with a
`struct PhysicalMemoryRegion`, its own physical address `base` at offset `0`
and the link `next` at offset `8`.  The links and `free_mem_head` are virtual
addresses in the higher-half direct map, so a frame `f` is named by the pointer
`f + hhdm_offset`, and `NULL` ends the list.

`Limine` is what the bootloader hands over, the memory map and the offset of
the direct map.  `Pmm` is the state of the module together with physical
memory; a pointer of the direct map is read and written at the physical address
it stands for (`deref`).
-/

namespace AncoreOS.Mm

open ByteMemory

def pageSize : Word := 4096

def alignUp (address alignment : Word) : Word := (address + (alignment - 1)) &&& ~~~(alignment - 1)

def alignDown (address alignment : Word) : Word := address &&& ~~~(alignment - 1)

def limineMemmapUsable : Word := 0

structure LimineMemmapEntry where
  base : Word
  length : Word
  type : Word
  deriving DecidableEq, Repr

/-- The responses of the bootloader: the memory map and the offset of the
higher-half direct map. -/
structure Limine where
  entries : List LimineMemmapEntry
  hhdmOffset : Word

/-- The state of `pmm.c`, and the physical memory it works in. -/
structure Pmm where
  mem : Mem
  freeMemHead : Word
  pmmTotalPages : Word
  pmmFreePages : Word

/-- The physical address a pointer of the direct map stands for. -/
def Limine.deref (b : Limine) (p : Word) : Word := p - b.hhdmOffset

def regionBase (b : Limine) (m : Mem) (region : Word) : Word := load64 m (b.deref region)

def regionNext (b : Limine) (m : Mem) (region : Word) : Word := load64 m (b.deref region + 8)

/-- One round of the inner loop of `pmm_init`: put the page `current` on the
list and count it. -/
def pmmInitPage (b : Limine) (s : Pmm) (current : Word) : Pmm :=
  let region := current + b.hhdmOffset
  let m := store64 s.mem (b.deref region) current
  { mem := store64 m (b.deref region + 8) s.freeMemHead
    freeMemHead := region
    pmmTotalPages := s.pmmTotalPages + 1
    pmmFreePages := s.pmmFreePages + 1 }

/-- The inner loop of `pmm_init` over the pages of one entry.  A page-aligned
64-bit address leaves at most `2 ^ 52` rounds. -/
def pmmInitEntry (b : Limine) (s : Pmm) (e : LimineMemmapEntry) : Option Pmm :=
  if e.type = limineMemmapUsable then
    let base := alignUp e.base pageSize
    let last := alignDown (e.base + e.length) pageSize
    (whileFuel (fun r : Word × Pmm => decide (r.1 < last))
      (fun r => (r.1 + pageSize, pmmInitPage b r.2 r.1)) (2 ^ 52) (base, s)).map Prod.snd
  else
    some s

/-- `pmm_init`, from the zero-initialised static variables. -/
def pmmInit (b : Limine) (mem : Mem) : Option Pmm :=
  b.entries.foldlM (pmmInitEntry b) ⟨mem, 0, 0, 0⟩

/-- `palloc`: the page it returns (`0` when there is none) and the new state. -/
def palloc (b : Limine) (s : Pmm) : Word × Pmm :=
  if s.freeMemHead = 0 then
    (0, s)
  else
    let region := s.freeMemHead
    (regionBase b s.mem region,
      { s with
        freeMemHead := regionNext b s.mem region
        pmmFreePages := s.pmmFreePages - 1 })

def pfree (b : Limine) (s : Pmm) (physcAddr : Word) : Pmm :=
  let region := physcAddr + b.hhdmOffset
  let m := store64 s.mem (b.deref region + 8) s.freeMemHead
  { s with
    mem := store64 m (b.deref region) physcAddr
    freeMemHead := region
    pmmFreePages := s.pmmFreePages + 1 }

def pmmGetTotalPages (s : Pmm) : Word := s.pmmTotalPages

def pmmGetFreePages (s : Pmm) : Word := s.pmmFreePages

def pmmGetUsedPages (s : Pmm) : Word := s.pmmTotalPages - s.pmmFreePages

/-! ### What the bootloader promises -/

/-- The physical byte address `x` belongs to the entry. -/
def LimineMemmapEntry.Covers (e : LimineMemmapEntry) (x : Nat) : Prop :=
  e.base.toNat ≤ x ∧ x < e.base.toNat + e.length.toNat

/-- The whole page frame `f` lies in the entry. -/
def LimineMemmapEntry.HasFrame (e : LimineMemmapEntry) (f : Word) : Prop :=
  PageAligned f ∧ e.base.toNat ≤ f.toNat ∧ f.toNat + 4096 ≤ e.base.toNat + e.length.toNat

instance (e : LimineMemmapEntry) (f : Word) : Decidable (e.HasFrame f) :=
  inferInstanceAs (Decidable (PageAligned f ∧ e.base.toNat ≤ f.toNat ∧
    f.toNat + 4096 ≤ e.base.toNat + e.length.toNat))

/-- A usable frame: one that lies inside one usable entry. -/
def Limine.UsableFrame (b : Limine) (f : Word) : Prop :=
  ∃ e ∈ b.entries, e.type = limineMemmapUsable ∧ e.HasFrame f

/-- What the bootloader promises of its memory map and its direct map: usable
entries share no byte, end at or below `2 ^ 63` and do not hold page `0`, and
the direct map puts no usable frame at the null pointer. -/
structure Limine.Ok (b : Limine) : Prop where
  disjoint : b.entries.Pairwise fun e e' =>
    e.type = limineMemmapUsable → e'.type = limineMemmapUsable →
      ∀ x, e.Covers x → ¬ e'.Covers x
  bounded : ∀ e ∈ b.entries, e.type = limineMemmapUsable →
    e.base.toNat + e.length.toNat ≤ 2 ^ 63
  pageZero : ¬ b.UsableFrame 0
  hhdm : ∀ f, b.UsableFrame f → f + b.hhdmOffset ≠ 0

@[simp] theorem Limine.deref_add (b : Limine) (f : Word) : b.deref (f + b.hhdmOffset) = f := by
  rw [Limine.deref, BitVec.add_sub_cancel]

theorem Limine.deref_add_offset (b : Limine) (f o : Word) : b.deref (f + b.hhdmOffset + o) = f + o := by
  unfold Limine.deref
  bv_omega

end AncoreOS.Mm
