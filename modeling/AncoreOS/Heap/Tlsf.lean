import AncoreOS.Klibc.StringMemory

/-!
# The heap allocator

`mm/heapalloc/tlsf.c` keeps a heap in the memory that it hands out.  The control structure lies at
the start, and a pool of blocks behind it.  Every block begins with a header, of which a used block
owns the size alone: `prev_phys_block` is in the last word of the block before, which is free, and
the two links of a free list take the place of the client's data.

A pointer is an address in byte memory, and the field of a structure is a word at an offset.  An
assertion that fails stops the machine, so a function that contains one gives an `Option`.
-/

namespace AncoreOS.Heap

open ByteMemory

/-- An assertion that fails does not return. -/
def tlsfAssert (p : Prop) [Decidable p] : Option Unit := if p then some () else none

/-! ### Bit manipulation -/

/-- `__builtin_clz`, of a word that is not zero. -/
def builtinClz (word : BitVec 32) : Int := 31 - word.toNat.log2

/-- `__builtin_ffs`: one more than the index of the lowest bit that is set, or zero. -/
def builtinFfs (word : BitVec 32) : Int :=
  match (List.range 32).find? fun i => word.getLsbD i with
  | some i => i + 1
  | none => 0

def tlsfFfs (word : BitVec 32) : Int := builtinFfs word - 1

def tlsfFls (word : BitVec 32) : Int :=
  let bit := if word ≠ 0 then 32 - builtinClz word else 0
  bit - 1

def tlsfFlsSizet (size : Word) : Int :=
  let high : BitVec 32 := (size >>> 32).setWidth 32
  if high ≠ 0 then 32 + tlsfFls high else tlsfFls (size.setWidth 32)

/-! ### Constants -/

def slIndexCountLog2 : Nat := 5

def alignSizeLog2 : Nat := 3

def alignSize : Nat := 1 <<< alignSizeLog2

def flIndexMax : Nat := 32

def slIndexCount : Nat := 1 <<< slIndexCountLog2

def flIndexShift : Nat := slIndexCountLog2 + alignSizeLog2

def flIndexCount : Nat := flIndexMax - flIndexShift + 1

def smallBlockSize : Nat := 1 <<< flIndexShift

def blockHeaderFreeBit : Word := 1#64 <<< 0

def blockHeaderPrevFreeBit : Word := 1#64 <<< 1

def blockHeaderOverhead : Word := 8

/-- `sizeof(block_header_t)`. -/
def sizeofBlockHeader : Word := 32

def blockStartOffset : Word := 8 + 8

def blockSizeMin : Word := sizeofBlockHeader - 8

def blockSizeMax : Word := 1#64 <<< flIndexMax

/-- `sizeof(control_t)`: the null block, the two bitmaps and the heads of the lists. -/
def sizeofControl : Word := 32 + 4 + 4 * 25 + 8 * (25 * 32)

/-! ### The fields of a block header -/

def sizeField (m : Mem) (block : Word) : Word := load64 m (block + 8)

def setSizeField (m : Mem) (block size : Word) : Mem := store64 m (block + 8) size

def prevPhysBlock (m : Mem) (block : Word) : Word := load64 m block

def setPrevPhysBlock (m : Mem) (block prev : Word) : Mem := store64 m block prev

def nextFree (m : Mem) (block : Word) : Word := load64 m (block + 16)

def setNextFree (m : Mem) (block next : Word) : Mem := store64 m (block + 16) next

def prevFree (m : Mem) (block : Word) : Word := load64 m (block + 24)

def setPrevFree (m : Mem) (block prev : Word) : Mem := store64 m (block + 24) prev

/-! ### The fields of the control structure -/

def blockNull (control : Word) : Word := control

def flBitmap (m : Mem) (control : Word) : BitVec 32 := load32 m (control + 32)

def setFlBitmap (m : Mem) (control : Word) (map : BitVec 32) : Mem := store32 m (control + 32) map

def slBitmap (m : Mem) (control : Word) (fl : Nat) : BitVec 32 :=
  load32 m (control + BitVec.ofNat 64 (36 + 4 * fl))

def setSlBitmap (m : Mem) (control : Word) (fl : Nat) (map : BitVec 32) : Mem :=
  store32 m (control + BitVec.ofNat 64 (36 + 4 * fl)) map

def blocks (m : Mem) (control : Word) (fl sl : Nat) : Word :=
  load64 m (control + BitVec.ofNat 64 (136 + 8 * (slIndexCount * fl + sl)))

def setBlocks (m : Mem) (control : Word) (fl sl : Nat) (block : Word) : Mem :=
  store64 m (control + BitVec.ofNat 64 (136 + 8 * (slIndexCount * fl + sl))) block

/-! ### Blocks -/

def blockSize (m : Mem) (block : Word) : Word :=
  sizeField m block &&& ~~~(blockHeaderFreeBit ||| blockHeaderPrevFreeBit)

def blockSetSize (m : Mem) (block size : Word) : Mem :=
  let oldsize := sizeField m block
  setSizeField m block (size ||| (oldsize &&& (blockHeaderFreeBit ||| blockHeaderPrevFreeBit)))

def blockIsLast (m : Mem) (block : Word) : Prop := blockSize m block = 0

def blockIsFree (m : Mem) (block : Word) : Prop := sizeField m block &&& blockHeaderFreeBit ≠ 0

def blockSetFree (m : Mem) (block : Word) : Mem :=
  setSizeField m block (sizeField m block ||| blockHeaderFreeBit)

def blockSetUsed (m : Mem) (block : Word) : Mem :=
  setSizeField m block (sizeField m block &&& ~~~blockHeaderFreeBit)

def blockIsPrevFree (m : Mem) (block : Word) : Prop :=
  sizeField m block &&& blockHeaderPrevFreeBit ≠ 0

def blockSetPrevFree (m : Mem) (block : Word) : Mem :=
  setSizeField m block (sizeField m block ||| blockHeaderPrevFreeBit)

def blockSetPrevUsed (m : Mem) (block : Word) : Mem :=
  setSizeField m block (sizeField m block &&& ~~~blockHeaderPrevFreeBit)

instance (m : Mem) (block : Word) : Decidable (blockIsLast m block) :=
  inferInstanceAs (Decidable (_ = _))

instance (m : Mem) (block : Word) : Decidable (blockIsFree m block) :=
  inferInstanceAs (Decidable (_ ≠ _))

instance (m : Mem) (block : Word) : Decidable (blockIsPrevFree m block) :=
  inferInstanceAs (Decidable (_ ≠ _))

def blockFromPtr (ptr : Word) : Word := ptr - blockStartOffset

def blockToPtr (block : Word) : Word := block + blockStartOffset

def offsetToBlock (ptr size : Word) : Word := ptr + size

def blockPrev (m : Mem) (block : Word) : Option Word := do
  tlsfAssert (blockIsPrevFree m block)
  return prevPhysBlock m block

def blockNext (m : Mem) (block : Word) : Option Word := do
  let next := offsetToBlock (blockToPtr block) (blockSize m block - blockHeaderOverhead)
  tlsfAssert (¬blockIsLast m block)
  return next

/-- The neighbour, and the memory in which it knows the block. -/
def blockLinkNext (m : Mem) (block : Word) : Option (Word × Mem) := do
  let next ← blockNext m block
  return (next, setPrevPhysBlock m next block)

def blockMarkAsFree (m : Mem) (block : Word) : Option Mem := do
  let (next, m) ← blockLinkNext m block
  let m := blockSetPrevFree m next
  return blockSetFree m block

def blockMarkAsUsed (m : Mem) (block : Word) : Option Mem := do
  let next ← blockNext m block
  let m := blockSetPrevUsed m next
  return blockSetUsed m block

/-! ### Sizes -/

def alignUp (x align : Word) : Option Word := do
  tlsfAssert (align &&& (align - 1) = 0)
  return (x + (align - 1)) &&& ~~~(align - 1)

def alignDown (x align : Word) : Option Word := do
  tlsfAssert (align &&& (align - 1) = 0)
  return x - (x &&& (align - 1))

def alignPtr (ptr align : Word) : Option Word := do
  let aligned := (ptr + (align - 1)) &&& ~~~(align - 1)
  tlsfAssert (align &&& (align - 1) = 0)
  return aligned

def adjustRequestSize (size align : Word) : Option Word :=
  if size ≠ 0 then do
    let aligned ← alignUp size align
    if aligned < blockSizeMax then
      return if blockSizeMin < aligned then aligned else blockSizeMin
    else
      return 0
  else
    some 0

/-- The first-level and the second-level index. -/
def mappingInsert (size : Word) : Nat × Nat :=
  if size < BitVec.ofNat 64 smallBlockSize then
    (0, (size.setWidth 32 : BitVec 32).toNat / (smallBlockSize / slIndexCount))
  else
    let fl := (tlsfFlsSizet size).toNat
    let sl : BitVec 32 :=
      (size >>> (fl - slIndexCountLog2)).setWidth 32 ^^^ 1#32 <<< slIndexCountLog2
    (fl - (flIndexShift - 1), sl.toNat)

/-- This version rounds up to the next class. -/
def mappingSearch (size : Word) : Nat × Nat :=
  if BitVec.ofNat 64 smallBlockSize ≤ size then
    let round := 1#64 <<< ((tlsfFlsSizet size).toNat - slIndexCountLog2) - 1
    mappingInsert (size + round)
  else
    mappingInsert size

/-! ### The free lists -/

/-- The block with its two indices.  It is `NULL` when there is none. -/
def searchSuitableBlock (m : Mem) (control : Word) (fl sl : Nat) : Option (Word × Nat × Nat) := do
  let slMap := slBitmap m control fl &&& (BitVec.allOnes 32 <<< sl)
  if slMap = 0 then
    let flMap := flBitmap m control &&& (BitVec.allOnes 32 <<< (fl + 1))
    if flMap = 0 then
      return (0, fl, sl)
    else
      let fl := (tlsfFfs flMap).toNat
      let slMap := slBitmap m control fl
      tlsfAssert (slMap ≠ 0)
      let sl := (tlsfFfs slMap).toNat
      return (blocks m control fl sl, fl, sl)
  else
    tlsfAssert (slMap ≠ 0)
    let sl := (tlsfFfs slMap).toNat
    return (blocks m control fl sl, fl, sl)

def removeFreeBlock (m : Mem) (control block : Word) (fl sl : Nat) : Option Mem := do
  let prev := prevFree m block
  let next := nextFree m block
  tlsfAssert (prev ≠ 0)
  tlsfAssert (next ≠ 0)
  let m := setPrevFree m next prev
  let m := setNextFree m prev next
  if blocks m control fl sl = block then
    let m := setBlocks m control fl sl next
    if next = blockNull control then
      let m := setSlBitmap m control fl (slBitmap m control fl &&& ~~~(1#32 <<< sl))
      if slBitmap m control fl = 0 then
        return setFlBitmap m control (flBitmap m control &&& ~~~(1#32 <<< fl))
      else
        return m
    else
      return m
  else
    return m

def insertFreeBlock (m : Mem) (control block : Word) (fl sl : Nat) : Option Mem := do
  let current := blocks m control fl sl
  tlsfAssert (current ≠ 0)
  tlsfAssert (block ≠ 0)
  let m := setNextFree m block current
  let m := setPrevFree m block (blockNull control)
  let m := setPrevFree m current block
  let aligned ← alignPtr (blockToPtr block) (BitVec.ofNat 64 alignSize)
  tlsfAssert (blockToPtr block = aligned)
  let m := setBlocks m control fl sl block
  let m := setFlBitmap m control (flBitmap m control ||| (1#32 <<< fl))
  return setSlBitmap m control fl (slBitmap m control fl ||| (1#32 <<< sl))

def blockRemove (m : Mem) (control block : Word) : Option Mem :=
  let (fl, sl) := mappingInsert (blockSize m block)
  removeFreeBlock m control block fl sl

def blockInsert (m : Mem) (control block : Word) : Option Mem :=
  let (fl, sl) := mappingInsert (blockSize m block)
  insertFreeBlock m control block fl sl

/-! ### Splitting and merging -/

def blockCanSplit (m : Mem) (block size : Word) : Prop :=
  sizeofBlockHeader + size ≤ blockSize m block

instance (m : Mem) (block size : Word) : Decidable (blockCanSplit m block size) :=
  inferInstanceAs (Decidable (_ ≤ _))

def blockSplit (m : Mem) (block size : Word) : Option (Word × Mem) := do
  let remaining := offsetToBlock (blockToPtr block) (size - blockHeaderOverhead)
  let remainSize := blockSize m block - (size + blockHeaderOverhead)
  let aligned ← alignPtr (blockToPtr remaining) (BitVec.ofNat 64 alignSize)
  tlsfAssert (blockToPtr remaining = aligned)
  tlsfAssert (blockSize m block = remainSize + size + blockHeaderOverhead)
  let m := blockSetSize m remaining remainSize
  tlsfAssert (blockSizeMin ≤ blockSize m remaining)
  let m := blockSetSize m block size
  let m ← blockMarkAsFree m remaining
  return (remaining, m)

def blockAbsorb (m : Mem) (prev block : Word) : Option Mem := do
  tlsfAssert (¬blockIsLast m prev)
  let m := setSizeField m prev (sizeField m prev + (blockSize m block + blockHeaderOverhead))
  let (_, m) ← blockLinkNext m prev
  return m

def blockMergePrev (m : Mem) (control block : Word) : Option (Word × Mem) :=
  if blockIsPrevFree m block then do
    let prev ← blockPrev m block
    tlsfAssert (prev ≠ 0)
    tlsfAssert (blockIsFree m prev)
    let m ← blockRemove m control prev
    let m ← blockAbsorb m prev block
    return (prev, m)
  else
    some (block, m)

def blockMergeNext (m : Mem) (control block : Word) : Option Mem := do
  let next ← blockNext m block
  tlsfAssert (next ≠ 0)
  if blockIsFree m next then
    tlsfAssert (¬blockIsLast m block)
    let m ← blockRemove m control next
    blockAbsorb m block next
  else
    return m

def blockTrimFree (m : Mem) (control block size : Word) : Option Mem := do
  tlsfAssert (blockIsFree m block)
  if blockCanSplit m block size then
    let (remaining, m) ← blockSplit m block size
    let (_, m) ← blockLinkNext m block
    let m := blockSetPrevFree m remaining
    blockInsert m control remaining
  else
    return m

def blockTrimUsed (m : Mem) (control block size : Word) : Option Mem := do
  tlsfAssert (¬blockIsFree m block)
  if blockCanSplit m block size then
    let (remaining, m) ← blockSplit m block size
    let m := blockSetPrevUsed m remaining
    let m ← blockMergeNext m control remaining
    blockInsert m control remaining
  else
    return m

def blockTrimFreeLeading (m : Mem) (control block size : Word) : Option (Word × Mem) :=
  if blockCanSplit m block size then do
    let (remaining, m) ← blockSplit m block (size - blockHeaderOverhead)
    let m := blockSetPrevFree m remaining
    let (_, m) ← blockLinkNext m block
    let m ← blockInsert m control block
    return (remaining, m)
  else
    some (block, m)

def blockLocateFree (m : Mem) (control size : Word) : Option (Word × Mem) := do
  let (block, fl, sl) ←
    if size ≠ 0 then
      let (fl, sl) := mappingSearch size
      if fl < flIndexCount then searchSuitableBlock m control fl sl else some (0, fl, sl)
    else
      some (0, 0, 0)
  if block ≠ 0 then
    tlsfAssert (size ≤ blockSize m block)
    let m ← removeFreeBlock m control block fl sl
    return (block, m)
  else
    return (block, m)

def blockPrepareUsed (m : Mem) (control block size : Word) : Option (Word × Mem) :=
  if block ≠ 0 then do
    tlsfAssert (size ≠ 0)
    let m ← blockTrimFree m control block size
    let m ← blockMarkAsUsed m block
    return (blockToPtr block, m)
  else
    some (0, m)

/-! ### Creating a heap -/

def controlConstruct (m : Mem) (control : Word) : Mem :=
  let m := setNextFree m (blockNull control) (blockNull control)
  let m := setPrevFree m (blockNull control) (blockNull control)
  let m := setFlBitmap m control 0
  (List.range flIndexCount).foldl (fun m i =>
    (List.range slIndexCount).foldl (fun m j => setBlocks m control i j (blockNull control))
      (setSlBitmap m control i 0)) m

/-- The pool, or `NULL` when it was refused. -/
def tlsfAddPool (m : Mem) (tlsf mem bytes : Word) : Option (Word × Mem) := do
  let poolOverhead := 2 * blockHeaderOverhead
  let poolBytes ← alignDown (bytes - poolOverhead) (BitVec.ofNat 64 alignSize)
  if mem.srem (BitVec.ofNat 64 alignSize) ≠ 0 then
    return (0, m)
  else if poolBytes < blockSizeMin ∨ blockSizeMax < poolBytes then
    return (0, m)
  else
    let block := offsetToBlock mem (-blockHeaderOverhead)
    let m := blockSetSize m block poolBytes
    let m := blockSetFree m block
    let m := blockSetPrevUsed m block
    let m ← blockInsert m tlsf block
    let (next, m) ← blockLinkNext m block
    let m := blockSetSize m next 0
    let m := blockSetUsed m next
    let m := blockSetPrevFree m next
    return (mem, m)

def tlsfCreate (m : Mem) (mem : Word) : Word × Mem :=
  if mem.srem (BitVec.ofNat 64 alignSize) ≠ 0 then (0, m) else (mem, controlConstruct m mem)

def tlsfCreateWithPool (m : Mem) (mem bytes : Word) : Option (Word × Mem) := do
  let (tlsf, m) := tlsfCreate m mem
  let (_, m) ← tlsfAddPool m tlsf (mem + sizeofControl) (bytes - sizeofControl)
  return (tlsf, m)

/-! ### The interface -/

def tlsfMalloc (m : Mem) (tlsf size : Word) : Option (Word × Mem) := do
  let adjust ← adjustRequestSize size (BitVec.ofNat 64 alignSize)
  let (block, m) ← blockLocateFree m tlsf adjust
  blockPrepareUsed m tlsf block adjust

/-- The gap from a pointer to the aligned one that `tlsf_memalign` returns.  When it is too small for a
block, the pointer goes on to the next boundary. -/
def memalignGap (ptr align : Word) : Option Word := do
  let gapMinimum := sizeofBlockHeader
  let aligned ← alignPtr ptr align
  let gap := aligned - ptr
  if gap ≠ 0 ∧ gap < gapMinimum then
    let gapRemain := gapMinimum - gap
    let offset := if align < gapRemain then gapRemain else align
    let aligned ← alignPtr (aligned + offset) align
    return aligned - ptr
  else
    return gap

def tlsfMemalign (m : Mem) (tlsf align size : Word) : Option (Word × Mem) := do
  let adjust ← adjustRequestSize size (BitVec.ofNat 64 alignSize)
  let gapMinimum := sizeofBlockHeader
  let sizeWithGap ← adjustRequestSize (adjust + align + gapMinimum) align
  let alignedSize :=
    if adjust ≠ 0 ∧ BitVec.ofNat 64 alignSize < align then sizeWithGap else adjust
  let (block, m) ← blockLocateFree m tlsf alignedSize
  tlsfAssert (sizeofBlockHeader = blockSizeMin + blockHeaderOverhead)
  if block ≠ 0 then
    let gap ← memalignGap (blockToPtr block) align
    if gap ≠ 0 then
      tlsfAssert (gapMinimum ≤ gap)
      let (block, m) ← blockTrimFreeLeading m tlsf block gap
      blockPrepareUsed m tlsf block adjust
    else
      blockPrepareUsed m tlsf block adjust
  else
    blockPrepareUsed m tlsf block adjust

def tlsfFree (m : Mem) (tlsf ptr : Word) : Option Mem :=
  if ptr ≠ 0 then do
    let block := blockFromPtr ptr
    tlsfAssert (¬blockIsFree m block)
    let m ← blockMarkAsFree m block
    let (block, m) ← blockMergePrev m tlsf block
    let m ← blockMergeNext m tlsf block
    blockInsert m tlsf block
  else
    some m

def tlsfRealloc (m : Mem) (tlsf ptr size : Word) : Option (Word × Mem) :=
  if ptr ≠ 0 ∧ size = 0 then do
    let m ← tlsfFree m tlsf ptr
    return (0, m)
  else if ptr = 0 then
    tlsfMalloc m tlsf size
  else do
    let block := blockFromPtr ptr
    let next ← blockNext m block
    let cursize := blockSize m block
    let combined := cursize + blockSize m next + blockHeaderOverhead
    let adjust ← adjustRequestSize size (BitVec.ofNat 64 alignSize)
    tlsfAssert (¬blockIsFree m block)
    if cursize < adjust ∧ (¬blockIsFree m next ∨ combined < adjust) then
      let (p, m) ← tlsfMalloc m tlsf size
      if p ≠ 0 then
        let minsize := if cursize < size then cursize else size
        let m := (Klibc.memcpy p ptr minsize ⟨m, []⟩).1.mem
        let m ← tlsfFree m tlsf ptr
        return (p, m)
      else
        return (p, m)
    else if cursize < adjust then
      let m ← blockMergeNext m tlsf block
      let m ← blockMarkAsUsed m block
      let m ← blockTrimUsed m tlsf block adjust
      return (ptr, m)
    else
      let m ← blockTrimUsed m tlsf block adjust
      return (ptr, m)

end AncoreOS.Heap
