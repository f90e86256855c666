import AncoreOS.Drivers.Io

/-!
# The ATA driver

`drivers/storage/ata.c`.  Each reader stands twice in the source, and the copies
differ in where the base port comes from.  The plain readers and
`ata_read_sector_auto` are functions of the base port here (`ataRead28At`,
`ataRead48At`, `ataReadAutoAt`); the `_manual` readers and
`ata_read_sector_semiauto` are written out, and `ataReadSector28bitManual_eq` and
the lemmas after it say that they are the same functions.

The counters of the source's loops are bounded by their arguments, so each loop
is a recursion on the number of its rounds: a sector of `size` bytes takes
`(size + 1) / 2` words, and the chunks of `255` sectors are `(count + 254) / 255`.
An index into a buffer is an `int` in the source: it is cut to 32 bits and
extended with its sign.
-/

namespace AncoreOS.Drivers

open ByteMemory

def ataPrimaryIo : BitVec 16 := 0x1F0
def ataSecondaryIo : BitVec 16 := 0x170

def ataRegData : BitVec 16 := 0
def ataRegError : BitVec 16 := 1
def ataRegSeccount : BitVec 16 := 2
def ataRegLbaLow : BitVec 16 := 3
def ataRegLbaMid : BitVec 16 := 4
def ataRegLbaHigh : BitVec 16 := 5
def ataRegDriveHead : BitVec 16 := 6
def ataRegCommand : BitVec 16 := 7
def ataRegStatus : BitVec 16 := 7

def ataCmdReadSectors : BitVec 8 := 0x20
def ataCmdReadSectorsExt : BitVec 8 := 0x24
def ataCmdWriteSectors : BitVec 8 := 0x30
def ataCmdWriteSectorsExt : BitVec 8 := 0x34
def ataCmdCacheFlush : BitVec 8 := 0xE7
def ataCmdCacheFlushExt : BitVec 8 := 0xEA

/-- `ata_get_io_and_head`: the base port and the drive/head register of a drive. -/
def ataGetIoAndHead (drive : BitVec 8) : BitVec 16 × BitVec 8 :=
  (if drive < 2 then ataPrimaryIo else ataSecondaryIo,
    0xE0 ||| (if drive &&& 1 ≠ 0 then 0x10 else 0x00))

section Driver

variable {σ : Type*} (B : Bus σ)

/-- The polls of `ata_wait_ready`, with the number of rounds left. -/
def ataPoll (ioBase : BitVec 16) (needsDrq : Bool) : Nat → Io σ → Int × Io σ
  | 0, io => (-1, io)
  | n + 1, io =>
    let (status, io) := io.inb B (ioBase + ataRegStatus)
    let io := { io with ataStatus := status }
    if status &&& 0x01 ≠ 0 then
      let (error, io) := io.inb B (ioBase + ataRegError)
      (-2, { io with ataError := error })
    else if status &&& 0x80 = 0 ∧ (needsDrq = false ∨ status &&& 0x08 ≠ 0) then
      (0, io)
    else
      ataPoll ioBase needsDrq n io

def ataWaitReady (ioBase : BitVec 16) (needsDrq : Bool) (io : Io σ) : Int × Io σ :=
  ataPoll B ioBase needsDrq 100000 io

/-- `for (int i = 0; i < n; i++) inb(io_base + ATA_REG_STATUS);` -/
def ataStatusReads (ioBase : BitVec 16) : Nat → Io σ → Io σ
  | 0, io => io
  | n + 1, io => ataStatusReads ioBase n (io.inb B (ioBase + ataRegStatus)).2

/-! ### Addresses and commands -/

def ataWrite48bitLba (ioBase : BitVec 16) (lba : Word) (sectorCount : BitVec 16) (io : Io σ) :
    Io σ :=
  let io := io.outb B (ioBase + ataRegSeccount) ((sectorCount >>> 8).setWidth 8)
  let io := io.outb B (ioBase + ataRegLbaLow) ((lba >>> 24).setWidth 8)
  let io := io.outb B (ioBase + ataRegLbaMid) ((lba >>> 32).setWidth 8)
  let io := io.outb B (ioBase + ataRegLbaHigh) ((lba >>> 40).setWidth 8)
  let io := io.outb B (ioBase + ataRegSeccount) (sectorCount.setWidth 8)
  let io := io.outb B (ioBase + ataRegLbaLow) (lba.setWidth 8)
  let io := io.outb B (ioBase + ataRegLbaMid) ((lba >>> 8).setWidth 8)
  io.outb B (ioBase + ataRegLbaHigh) ((lba >>> 16).setWidth 8)

/-- The register writes of a 28-bit command. -/
def ataIssue28 (ioBase : BitVec 16) (driveHead : BitVec 8) (lba : BitVec 32)
    (sectorCount command : BitVec 8) (io : Io σ) : Io σ :=
  let io := io.outb B (ioBase + ataRegDriveHead) driveHead
  let io := io.outb B (ioBase + ataRegSeccount) sectorCount
  let io := io.outb B (ioBase + ataRegLbaLow) (lba.setWidth 8)
  let io := io.outb B (ioBase + ataRegLbaMid) ((lba >>> 8).setWidth 8)
  let io := io.outb B (ioBase + ataRegLbaHigh) ((lba >>> 16).setWidth 8)
  io.outb B (ioBase + ataRegCommand) command

/-- The register accesses of a 48-bit command. -/
def ataIssue48 (ioBase : BitVec 16) (driveHead : BitVec 8) (lba : Word)
    (sectorCount : BitVec 16) (command : BitVec 8) (io : Io σ) : Io σ :=
  let io := io.outb B (ioBase + ataRegDriveHead) driveHead
  let io := ataStatusReads B ioBase 4 io
  let io := ataWrite48bitLba B ioBase lba sectorCount io
  io.outb B (ioBase + ataRegCommand) command

/-! ### The data phase -/

/-- `&buf[k]` for an `int` index. -/
def bufIndex (buf : Word) (k : Nat) : Word := buf + (BitVec.ofNat 32 k).signExtend 64

/-- The inner loop of the readers, from byte `i` of sector `s` on. -/
def ataReadWords (ioBase : BitVec 16) (buf : Word) (size s : Nat) : Nat → Nat → Io σ → Io σ
  | 0, _, io => io
  | n + 1, i, io =>
    let (word, io) := io.inw B (ioBase + ataRegData)
    let io := io.fill (bufIndex buf (s * size + i)) (bufIndex buf (s * size + i + 1)) word
    ataReadWords ioBase buf size s n (i + 2) io

/-- The sector loop of the readers, from sector `s` on. -/
def ataReadLoop (ioBase : BitVec 16) (buf : Word) (size : Nat) : Nat → Nat → Io σ → Int × Io σ
  | 0, _, io => (0, io)
  | n + 1, s, io =>
    checked (ataWaitReady B ioBase true io) (fun _ => -2) fun io =>
    ataReadLoop ioBase buf size n (s + 1) (ataReadWords B ioBase buf size s ((size + 1) / 2) 0 io)

/-- The inner loop of the writers, from byte `i` of sector `s` on. -/
def ataWriteWords (ioBase : BitVec 16) (buf : Word) (size s : Nat) : Nat → Nat → Io σ → Io σ
  | 0, _, io => io
  | n + 1, i, io =>
    let word := (io.mem (bufIndex buf (s * size + i))).setWidth 16 |||
      (io.mem (bufIndex buf (s * size + i + 1))).setWidth 16 <<< 8
    ataWriteWords ioBase buf size s n (i + 2) (io.outw B (ioBase + ataRegData) word)

/-- The sector loop of the writers, from sector `s` on. -/
def ataWriteLoop (ioBase : BitVec 16) (buf : Word) (size : Nat) : Nat → Nat → Io σ → Int × Io σ
  | 0, _, io => (0, io)
  | n + 1, s, io =>
    checked (ataWaitReady B ioBase true io) (fun _ => -2) fun io =>
    ataWriteLoop ioBase buf size n (s + 1) (ataWriteWords B ioBase buf size s ((size + 1) / 2) 0 io)

/-! ### The readers -/

def ataRead28At (ioBase : BitVec 16) (lba : BitVec 32) (sectorCount : BitVec 8) (buffer : Word)
    (drive : BitVec 8) (size : BitVec 16) (io : Io σ) : Int × Io σ :=
  if lba.toNat ≥ 2 ^ 28 then (-3, io) else
  let driveHead := (ataGetIoAndHead drive).2 ||| ((lba >>> 24).setWidth 8 &&& 0x0F)
  checked (ataWaitReady B ioBase false io) (fun _ => -1) fun io =>
  let io := ataIssue28 B ioBase driveHead lba sectorCount ataCmdReadSectors io
  ataReadLoop B ioBase buffer size.toNat sectorCount.toNat 0 io

def ataRead48At (ioBase : BitVec 16) (lba : Word) (sectorCount : BitVec 16) (buffer : Word)
    (drive : BitVec 8) (size : BitVec 16) (io : Io σ) : Int × Io σ :=
  let driveHead := (ataGetIoAndHead drive).2 ||| 0x40
  checked (ataWaitReady B ioBase false io) (fun _ => -1) fun io =>
  let io := ataIssue48 B ioBase driveHead lba sectorCount ataCmdReadSectorsExt io
  ataReadLoop B ioBase buffer size.toNat sectorCount.toNat 0 io

def ataReadSector28bit (lba : BitVec 32) (sectorCount : BitVec 8) (buffer : Word)
    (drive : BitVec 8) (size : BitVec 16) (io : Io σ) : Int × Io σ :=
  ataRead28At B (ataGetIoAndHead drive).1 lba sectorCount buffer drive size io

def ataReadSector48bit (lba : Word) (sectorCount : BitVec 16) (buffer : Word)
    (drive : BitVec 8) (size : BitVec 16) (io : Io σ) : Int × Io σ :=
  ataRead48At B (ataGetIoAndHead drive).1 lba sectorCount buffer drive size io

/-- The copies, like the readers above but for the base port that the caller gives. -/
def ataReadSector28bitManual (lba : BitVec 32) (sectorCount : BitVec 8) (buffer : Word)
    (basePmio : BitVec 16) (drive : BitVec 8) (size : BitVec 16) (io : Io σ) : Int × Io σ :=
  if lba.toNat ≥ 2 ^ 28 then (-3, io) else
  let driveHead := (ataGetIoAndHead drive).2 ||| ((lba >>> 24).setWidth 8 &&& 0x0F)
  let ioBase := basePmio
  checked (ataWaitReady B ioBase false io) (fun _ => -1) fun io =>
  let io := io.outb B (ioBase + ataRegDriveHead) driveHead
  let io := io.outb B (ioBase + ataRegSeccount) sectorCount
  let io := io.outb B (ioBase + ataRegLbaLow) (lba.setWidth 8)
  let io := io.outb B (ioBase + ataRegLbaMid) ((lba >>> 8).setWidth 8)
  let io := io.outb B (ioBase + ataRegLbaHigh) ((lba >>> 16).setWidth 8)
  let io := io.outb B (ioBase + ataRegCommand) ataCmdReadSectors
  ataReadLoop B ioBase buffer size.toNat sectorCount.toNat 0 io

def ataReadSector48bitManual (lba : Word) (sectorCount : BitVec 16) (buffer : Word)
    (basePmio : BitVec 16) (drive : BitVec 8) (size : BitVec 16) (io : Io σ) : Int × Io σ :=
  let driveHead := (ataGetIoAndHead drive).2 ||| 0x40
  let ioBase := basePmio
  checked (ataWaitReady B ioBase false io) (fun _ => -1) fun io =>
  let io := io.outb B (ioBase + ataRegDriveHead) driveHead
  let io := ataStatusReads B ioBase 4 io
  let io := ataWrite48bitLba B ioBase lba sectorCount io
  let io := io.outb B (ioBase + ataRegCommand) ataCmdReadSectorsExt
  ataReadLoop B ioBase buffer size.toNat sectorCount.toNat 0 io

/-- The chunks of 255 sectors, from the chunk `k` on. -/
def ataReadChunks (ioBase : BitVec 16) (lba : Word) (sectorCount : BitVec 16) (buffer : Word)
    (drive : BitVec 8) (size : BitVec 16) : Nat → Nat → Io σ → Int × Io σ
  | 0, _, io => (0, io)
  | n + 1, k, io =>
    let lbaReading := 255 * k
    let sectorCountReading := min (sectorCount.toNat - lbaReading) 255
    checked (ataRead28At B ioBase ((lba + BitVec.ofNat 64 lbaReading).setWidth 32)
      (BitVec.ofNat 8 sectorCountReading) (buffer + BitVec.ofNat 64 (lbaReading * size.toNat))
      drive size io) (fun res => res) fun io =>
    ataReadChunks ioBase lba sectorCount buffer drive size n (k + 1) io

/-- `ata_read_sector_auto`.  After the chunks the source goes on to the 48-bit command. -/
def ataReadAutoAt (ioBase : BitVec 16) (lba : Word) (sectorCount : BitVec 16) (buffer : Word)
    (drive : BitVec 8) (size : BitVec 16) (io : Io σ) : Int × Io σ :=
  if lba.toNat < 2 ^ 28 ∧ sectorCount.toNat ≤ 255 then
    ataRead28At B ioBase (lba.setWidth 32) (sectorCount.setWidth 8) buffer drive size io
  else if (lba + sectorCount.setWidth 64).toNat < 2 ^ 28 then
    checked (ataReadChunks B ioBase lba sectorCount buffer drive size
      ((sectorCount.toNat + 254) / 255) 0 io) (fun res => res) fun io =>
    ataRead48At B ioBase lba sectorCount buffer drive size io
  else
    ataRead48At B ioBase lba sectorCount buffer drive size io

def ataReadSectorAuto (lba : Word) (sectorCount : BitVec 16) (buffer : Word)
    (drive : BitVec 8) (size : BitVec 16) (io : Io σ) : Int × Io σ :=
  ataReadAutoAt B (ataGetIoAndHead drive).1 lba sectorCount buffer drive size io

/-- The chunks of `ata_read_sector_semiauto`. -/
def ataReadChunksManual (lba : Word) (sectorCount : BitVec 16) (buffer : Word)
    (basePmio : BitVec 16) (drive : BitVec 8) (size : BitVec 16) : Nat → Nat → Io σ → Int × Io σ
  | 0, _, io => (0, io)
  | n + 1, k, io =>
    let lbaReading := 255 * k
    let sectorCountReading := min (sectorCount.toNat - lbaReading) 255
    checked (ataReadSector28bitManual B ((lba + BitVec.ofNat 64 lbaReading).setWidth 32)
      (BitVec.ofNat 8 sectorCountReading) (buffer + BitVec.ofNat 64 (lbaReading * size.toNat))
      basePmio drive size io) (fun res => res) fun io =>
    ataReadChunksManual lba sectorCount buffer basePmio drive size n (k + 1) io

def ataReadSectorSemiauto (lba : Word) (sectorCount : BitVec 16) (buffer : Word)
    (basePmio : BitVec 16) (drive : BitVec 8) (size : BitVec 16) (io : Io σ) : Int × Io σ :=
  if lba.toNat < 2 ^ 28 ∧ sectorCount.toNat ≤ 255 then
    ataReadSector28bitManual B (lba.setWidth 32) (sectorCount.setWidth 8) buffer basePmio drive
      size io
  else if (lba + sectorCount.setWidth 64).toNat < 2 ^ 28 then
    checked (ataReadChunksManual B lba sectorCount buffer basePmio drive size
      ((sectorCount.toNat + 254) / 255) 0 io) (fun res => res) fun io =>
    ataReadSector48bitManual B lba sectorCount buffer basePmio drive size io
  else
    ataReadSector48bitManual B lba sectorCount buffer basePmio drive size io

/-! ### The writers -/

/-- `ata_flush_cache` and `ata_flush_cache_ext` differ in the command. -/
def ataFlush (command : BitVec 8) (ioBase : BitVec 16) (driveHead : BitVec 8) (io : Io σ) :
    Int × Io σ :=
  let io := io.outb B (ioBase + ataRegDriveHead) driveHead
  let io := ataStatusReads B ioBase 4 io
  let io := io.outb B (ioBase + ataRegCommand) command
  ataWaitReady B ioBase false io

def ataFlushCache (ioBase : BitVec 16) (driveHead : BitVec 8) (io : Io σ) : Int × Io σ :=
  ataFlush B ataCmdCacheFlush ioBase driveHead io

def ataFlushCacheExt (ioBase : BitVec 16) (driveHead : BitVec 8) (io : Io σ) : Int × Io σ :=
  ataFlush B ataCmdCacheFlushExt ioBase driveHead io

def ataWriteSector28bit (lba : BitVec 32) (sectorCount : BitVec 8) (buffer : Word)
    (drive : BitVec 8) (size : BitVec 16) (io : Io σ) : Int × Io σ :=
  if lba.toNat ≥ 2 ^ 28 then (-3, io) else
  let ioBase := (ataGetIoAndHead drive).1
  let driveHead := (ataGetIoAndHead drive).2 ||| ((lba >>> 24).setWidth 8 &&& 0x0F)
  checked (ataWaitReady B ioBase false io) (fun _ => -1) fun io =>
  let io := ataIssue28 B ioBase driveHead lba sectorCount ataCmdWriteSectors io
  checked (ataWriteLoop B ioBase buffer size.toNat sectorCount.toNat 0 io) (fun r => r) fun io =>
  ataFlushCache B ioBase driveHead io

def ataWriteSector48bit (lba : Word) (sectorCount : BitVec 16) (buffer : Word)
    (drive : BitVec 8) (size : BitVec 16) (io : Io σ) : Int × Io σ :=
  let ioBase := (ataGetIoAndHead drive).1
  let driveHead := (ataGetIoAndHead drive).2 ||| 0x40
  checked (ataWaitReady B ioBase false io) (fun _ => -1) fun io =>
  let io := ataIssue48 B ioBase driveHead lba sectorCount ataCmdWriteSectorsExt io
  checked (ataWriteLoop B ioBase buffer size.toNat sectorCount.toNat 0 io) (fun r => r) fun io =>
  ataFlushCacheExt B ioBase driveHead io

def ataWriteSectorAuto (lba : Word) (sectorCount : BitVec 16) (buffer : Word)
    (drive : BitVec 8) (size : BitVec 16) (io : Io σ) : Int × Io σ :=
  if lba.toNat < 2 ^ 28 ∧ sectorCount.toNat ≤ 255 then
    ataWriteSector28bit B (lba.setWidth 32) (sectorCount.setWidth 8) buffer drive size io
  else
    ataWriteSector48bit B lba sectorCount buffer drive size io

end Driver

/-! ### The copies -/

section Manual

variable {σ : Type*} (B : Bus σ) (buffer : Word) (basePmio : BitVec 16) (drive : BitVec 8)
  (size : BitVec 16)

theorem ataReadSector28bitManual_eq (lba : BitVec 32) (sectorCount : BitVec 8) (io : Io σ) :
    ataReadSector28bitManual B lba sectorCount buffer basePmio drive size io =
      ataRead28At B basePmio lba sectorCount buffer drive size io := rfl

theorem ataReadSector48bitManual_eq (lba : Word) (sectorCount : BitVec 16) (io : Io σ) :
    ataReadSector48bitManual B lba sectorCount buffer basePmio drive size io =
      ataRead48At B basePmio lba sectorCount buffer drive size io := rfl

theorem ataReadChunksManual_eq (lba : Word) (sectorCount : BitVec 16) (n : Nat) :
    ∀ (k : Nat) (io : Io σ),
      ataReadChunksManual B lba sectorCount buffer basePmio drive size n k io =
        ataReadChunks B basePmio lba sectorCount buffer drive size n k io := by
  induction n with
  | zero => exact fun k io => rfl
  | succ n ih =>
    intro k io
    rw [ataReadChunksManual, ataReadChunks]
    simp only [ataReadSector28bitManual_eq, ih]

theorem ataReadSectorSemiauto_eq (lba : Word) (sectorCount : BitVec 16) (io : Io σ) :
    ataReadSectorSemiauto B lba sectorCount buffer basePmio drive size io =
      ataReadAutoAt B basePmio lba sectorCount buffer drive size io := by
  simp only [ataReadSectorSemiauto, ataReadAutoAt, ataReadSector28bitManual_eq,
    ataReadSector48bitManual_eq, ataReadChunksManual_eq]

end Manual

/-! ### Places in a buffer -/

theorem bufIndex_eq {k : Nat} (buf : Word) (hk : k < 2 ^ 31) :
    bufIndex buf k = buf + BitVec.ofNat 64 k := by
  have hsign : (BitVec.ofNat 32 k).signExtend 64 = BitVec.ofNat 64 k := by
    rw [BitVec.signExtend_eq_setWidth_of_msb_false]
    · apply BitVec.eq_of_toNat_eq
      rw [BitVec.toNat_setWidth, BitVec.toNat_ofNat, BitVec.toNat_ofNat,
        Nat.mod_eq_of_lt (show k < 2 ^ 32 by omega)]
    · rw [BitVec.msb_eq_false_iff_two_mul_lt, BitVec.toNat_ofNat,
        Nat.mod_eq_of_lt (show k < 2 ^ 32 by omega)]
      omega
  rw [bufIndex, hsign]

theorem offset_ne {buf : Word} {a b : Nat} (hab : a ≠ b) (ha : a < 2 ^ 64) (hb : b < 2 ^ 64) :
    buf + BitVec.ofNat 64 a ≠ buf + BitVec.ofNat 64 b := by
  intro h
  bv_omega

section Waits

variable {σ : Type*} (B : Bus σ) {α : Type*} (f : List IoEvent → α)
  (hf : ∀ port v log, f (.inb port v :: log) = f log) {base : BitVec 16}

include hf in
theorem ataPoll_log (needsDrq : Bool) : ∀ (n : Nat) (io : Io σ),
    f (ataPoll B base needsDrq n io).2.log = f io.log := by
  intro n
  induction n with
  | zero => exact fun io => rfl
  | succ n ih =>
    intro io
    rw [ataPoll]
    dsimp only
    split
    · exact (hf _ _ _).trans (hf _ _ _)
    · split
      · exact hf _ _ _
      · exact (ih _).trans (hf _ _ _)

include hf in
/-- What does not look at reads of a register does not see a wait. -/
theorem ataWaitReady_log {needsDrq : Bool} {io io' : Io σ} {r : Int}
    (h : ataWaitReady B base needsDrq io = (r, io')) : f io'.log = f io.log := by
  have hlog : f (ataWaitReady B base needsDrq io).2.log = f io.log :=
    ataPoll_log B f hf needsDrq 100000 io
  rw [h] at hlog
  exact hlog

end Waits

/-! ### One round at a time -/

section Rounds

variable {σ : Type*} {B : Bus σ} {ioBase : BitVec 16} {buf : Word} {size n s : Nat} {io io' : Io σ}

theorem ataReadLoop_of_wait (h : ataWaitReady B ioBase true io = (0, io')) :
    ataReadLoop B ioBase buf size (n + 1) s io =
      ataReadLoop B ioBase buf size n (s + 1)
        (ataReadWords B ioBase buf size s ((size + 1) / 2) 0 io') := by
  rw [ataReadLoop, checked_of_zero h]

theorem ataWriteLoop_of_wait (h : ataWaitReady B ioBase true io = (0, io')) :
    ataWriteLoop B ioBase buf size (n + 1) s io =
      ataWriteLoop B ioBase buf size n (s + 1)
        (ataWriteWords B ioBase buf size s ((size + 1) / 2) 0 io') := by
  rw [ataWriteLoop, checked_of_zero h]

variable {drive : BitVec 8} {sz : BitVec 16}

theorem ataRead28At_of_wait {lba : BitVec 32} {count : BitVec 8} (hlba : lba.toNat < 2 ^ 28)
    (h : ataWaitReady B ioBase false io = (0, io')) :
    ataRead28At B ioBase lba count buf drive sz io =
      ataReadLoop B ioBase buf sz.toNat count.toNat 0 (ataIssue28 B ioBase
        ((ataGetIoAndHead drive).2 ||| ((lba >>> 24).setWidth 8 &&& 0x0F)) lba count
        ataCmdReadSectors io') := by
  rw [ataRead28At, if_neg (not_le.mpr hlba)]
  exact checked_of_zero h

theorem ataRead48At_of_wait {lba : Word} {count : BitVec 16}
    (h : ataWaitReady B ioBase false io = (0, io')) :
    ataRead48At B ioBase lba count buf drive sz io =
      ataReadLoop B ioBase buf sz.toNat count.toNat 0 (ataIssue48 B ioBase
        ((ataGetIoAndHead drive).2 ||| 0x40) lba count ataCmdReadSectorsExt io') := by
  rw [ataRead48At]
  exact checked_of_zero h

theorem ataWriteSector28bit_of_wait {io'' : Io σ} {lba : BitVec 32} {count : BitVec 8}
    (hlba : lba.toNat < 2 ^ 28)
    (h : ataWaitReady B (ataGetIoAndHead drive).1 false io = (0, io'))
    (hloop : ataWriteLoop B (ataGetIoAndHead drive).1 buf sz.toNat count.toNat 0
      (ataIssue28 B (ataGetIoAndHead drive).1
        ((ataGetIoAndHead drive).2 ||| ((lba >>> 24).setWidth 8 &&& 0x0F)) lba count
        ataCmdWriteSectors io') = (0, io'')) :
    ataWriteSector28bit B lba count buf drive sz io = ataFlushCache B (ataGetIoAndHead drive).1
      ((ataGetIoAndHead drive).2 ||| ((lba >>> 24).setWidth 8 &&& 0x0F)) io'' := by
  rw [ataWriteSector28bit, if_neg (not_le.mpr hlba)]
  exact (checked_of_zero h).trans (checked_of_zero hloop)

theorem ataWriteSector48bit_of_wait {io'' : Io σ} {lba : Word} {count : BitVec 16}
    (h : ataWaitReady B (ataGetIoAndHead drive).1 false io = (0, io'))
    (hloop : ataWriteLoop B (ataGetIoAndHead drive).1 buf sz.toNat count.toNat 0
      (ataIssue48 B (ataGetIoAndHead drive).1 ((ataGetIoAndHead drive).2 ||| 0x40) lba count
        ataCmdWriteSectorsExt io') = (0, io'')) :
    ataWriteSector48bit B lba count buf drive sz io = ataFlushCacheExt B (ataGetIoAndHead drive).1
      ((ataGetIoAndHead drive).2 ||| 0x40) io'' := by
  rw [ataWriteSector48bit]
  exact (checked_of_zero h).trans (checked_of_zero hloop)

end Rounds

end AncoreOS.Drivers
