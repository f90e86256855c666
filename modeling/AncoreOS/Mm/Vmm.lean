import AncoreOS.Mm.Pmm

/-!
# The virtual memory manager

`mm/vmm.c` edits the four-level page tables of the processor.  The tables are
reached through the higher-half direct map, so a table is named by the pointer
`f + hhdm_offset` of its frame `f`, and an entry holds the physical address of
the next table together with flag bits.

The three blocks of `map_page` that find or create the PDPT, the PD and the PT
are one function here, `nextTable`; `mapPage` calls it three times.  The
invalidation of the translation cache has no effect on memory and is left out.

`log` records what a call did, latest first: each result of `palloc`, and each
range of physical memory that was written.  No function reads it.

The last part is the processor's side.  `walk` follows four levels with the
mask the kernel itself uses, and `mmuWalk` is the translation of the hardware:
it uses the address bits `12..51` of an entry and stops at a huge page.
-/

namespace AncoreOS.Mm

open ByteMemory

def ptePresent : Word := 1
def pteWritable : Word := 2
def pteUser : Word := 4
def pteHuge : Word := 0x80

def pml4Index (x : Word) : Word := (x >>> 39) &&& 0x1FF
def pdptIndex (x : Word) : Word := (x >>> 30) &&& 0x1FF
def pdIndex (x : Word) : Word := (x >>> 21) &&& 0x1FF
def ptIndex (x : Word) : Word := (x >>> 12) &&& 0x1FF

/-- One thing a call did to memory or to the allocator. -/
inductive VmmEvent
  | palloc (phys : Word)
  | memset (phys : Word) (n : Nat)
  | store (phys v : Word)
  deriving DecidableEq, Repr

/-- The event writes the physical byte `x`. -/
def VmmEvent.Writes : VmmEvent → Word → Prop
  | .palloc _, _ => False
  | .memset a n, x => InRange a n x
  | .store a _, x => InRange a 8 x

/-- The state of `vmm.c` over the allocator. -/
structure Vmm where
  pmm : Pmm
  hhdmOffset : Word
  kernelPml4 : Word
  log : List VmmEvent

namespace Vmm

def physToVirt (s : Vmm) (phys : Word) : Word := phys + s.hhdmOffset

def virtToPhys (s : Vmm) (virt : Word) : Word := virt - s.hhdmOffset

/-- `vmm_init`, with the value it reads from `cr3`. -/
def vmmInit (b : Limine) (s : Vmm) (cr3 : Word) : Vmm :=
  let s := { s with hhdmOffset := b.hhdmOffset }
  { s with kernelPml4 := s.physToVirt (cr3 &&& ~~~0xFFF) }

/-- `table[idx]`. -/
def entry (b : Limine) (s : Vmm) (table idx : Word) : Word :=
  load64 s.pmm.mem (b.deref (table + 8 * idx))

/-- `table[idx] = v`. -/
def setEntry (b : Limine) (s : Vmm) (table idx v : Word) : Vmm :=
  let a := b.deref (table + 8 * idx)
  { s with
    pmm := { s.pmm with mem := store64 s.pmm.mem a v }
    log := .store a v :: s.log }

def allocTable (b : Limine) (s : Vmm) : Word × Vmm :=
  let (phys, pmm) := palloc b s.pmm
  let a := b.deref (s.physToVirt phys)
  (s.physToVirt phys,
    { s with
      pmm := { pmm with mem := fill pmm.mem a 4096 0 }
      log := .memset a 4096 :: .palloc phys :: s.log })

/-- One level of `map_page`: the table the entry points to, created if the entry
is not present. -/
def nextTable (b : Limine) (s : Vmm) (table idx userBit : Word) : Word × Vmm :=
  if entry b s table idx &&& ptePresent = 0 then
    let (next, s) := allocTable b s
    (next, setEntry b s table idx
      (s.virtToPhys next ||| ptePresent ||| pteWritable ||| userBit))
  else
    (s.physToVirt (entry b s table idx &&& ~~~0xFFF), s)

def mapPage (b : Limine) (s : Vmm) (virt phys flags : Word) : Vmm :=
  let userBit := flags &&& pteUser
  let (pdpt, s) := nextTable b s s.kernelPml4 (pml4Index virt) userBit
  let (pd, s) := nextTable b s pdpt (pdptIndex virt) userBit
  let (pt, s) := nextTable b s pd (pdIndex virt) userBit
  setEntry b s pt (ptIndex virt) (phys ||| flags ||| ptePresent)

def unmapPage (b : Limine) (s : Vmm) (virt : Word) : Vmm :=
  let pml4 := s.kernelPml4
  if entry b s pml4 (pml4Index virt) &&& ptePresent = 0 then s else
  let pdpt := s.physToVirt (entry b s pml4 (pml4Index virt) &&& ~~~0xFFF)
  if entry b s pdpt (pdptIndex virt) &&& ptePresent = 0 then s else
  let pd := s.physToVirt (entry b s pdpt (pdptIndex virt) &&& ~~~0xFFF)
  if entry b s pd (pdIndex virt) &&& ptePresent = 0 then s else
  let pt := s.physToVirt (entry b s pd (pdIndex virt) &&& ~~~0xFFF)
  setEntry b s pt (ptIndex virt) 0

end Vmm

/-! ### The processor's walk -/

/-- The entry `i` of the table in frame `f`. -/
def slot (m : Mem) (f : Word) (i : BitVec 9) : Word := load64 m (f + 8 * i.setWidth 64)

/-- The four table indices of a virtual address, the last one first. -/
def pathOf (v : Word) : List (BitVec 9) :=
  [v.extractLsb' 12 9, v.extractLsb' 21 9, v.extractLsb' 30 9, v.extractLsb' 39 9]

/-- The page of a virtual address: its bits `12..47`. -/
def pageNumber (v : Word) : BitVec 36 := v.extractLsb' 12 36

/-- The four-level walk, with the kernel's own mask: the leaf entry, if every
entry on the way is present. -/
def walk (m : Mem) (pml4 v : Word) : Option Word :=
  let e₄ := slot m pml4 (v.extractLsb' 39 9)
  if e₄ &&& ptePresent = 0 then none else
  let e₃ := slot m (e₄ &&& ~~~0xFFF) (v.extractLsb' 30 9)
  if e₃ &&& ptePresent = 0 then none else
  let e₂ := slot m (e₃ &&& ~~~0xFFF) (v.extractLsb' 21 9)
  if e₂ &&& ptePresent = 0 then none else
  let e₁ := slot m (e₂ &&& ~~~0xFFF) (v.extractLsb' 12 9)
  if e₁ &&& ptePresent = 0 then none else some e₁

/-- The physical address field of an entry. -/
def addressMask : Word := 0x000FFFFFFFFFF000

/-- The hardware translation: the entry that maps the page and its level, `1` for
a 1 GiB page, `2` for a 2 MiB page and `3` for a 4 KiB page. -/
def mmuWalk (m : Mem) (pml4 v : Word) : Option (Nat × Word) :=
  let e₄ := slot m pml4 (v.extractLsb' 39 9)
  if e₄ &&& ptePresent = 0 then none else
  let e₃ := slot m (e₄ &&& addressMask) (v.extractLsb' 30 9)
  if e₃ &&& ptePresent = 0 then none else
  if e₃ &&& pteHuge ≠ 0 then some (1, e₃) else
  let e₂ := slot m (e₃ &&& addressMask) (v.extractLsb' 21 9)
  if e₂ &&& ptePresent = 0 then none else
  if e₂ &&& pteHuge ≠ 0 then some (2, e₂) else
  let e₁ := slot m (e₂ &&& addressMask) (v.extractLsb' 12 9)
  if e₁ &&& ptePresent = 0 then none else some (3, e₁)

end AncoreOS.Mm
