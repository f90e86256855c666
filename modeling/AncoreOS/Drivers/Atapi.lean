import AncoreOS.Drivers.Ata

/-!
# The ATAPI driver

The readers of `drivers/storage/atapi.c`.  A PACKET command announces six words on
the data port, and these are the `READ(10)` command of `scsi.h`, most significant
byte first.  `atapi_read_sector` and `atapi_read_sector_manual` are copies that differ in
where the base port comes from; the first is a function of the base port here
(`atapiReadAt`), the second is written out (`atapiReadSectorManual_eq`).

The buffer is one of 16-bit words here, and its index is computed in 32 bits.
-/

namespace AncoreOS.Drivers

open ByteMemory

def ataRegFeatures : BitVec 16 := 1

def atapiCmdPacket : BitVec 8 := 0xA0

/-- `build_read10_atapi_cmd`. -/
def buildRead10AtapiCmd (lba : BitVec 32) (sectorCount : BitVec 16) : List (BitVec 8) :=
  [0x28, 0, (lba >>> 24).setWidth 8, (lba >>> 16).setWidth 8, (lba >>> 8).setWidth 8,
    lba.setWidth 8, 0, (sectorCount >>> 8).setWidth 8, sectorCount.setWidth 8, 0, 0, 0]

section Driver

variable {σ : Type*} (B : Bus σ)

/-- `outsw` of a packet: pairs of bytes, the first one low. -/
def outsw (port : BitVec 16) : List (BitVec 8) → Io σ → Io σ
  | lo :: hi :: rest, io => outsw port rest (io.outw B port (lo.setWidth 16 ||| hi.setWidth 16 <<< 8))
  | _, io => io

/-- `&buf[k]` for an index of a `uint16_t *` that is computed in 32 bits. -/
def wordIndex (buf : Word) (k : Nat) : Word := buf + 2 * (BitVec.ofNat 32 k).setWidth 64

/-- The inner loop, from the word `i` of sector `s` on. -/
def atapiReadWords (ioBase : BitVec 16) (buf : Word) (half s : Nat) : Nat → Nat → Io σ → Io σ
  | 0, _, io => io
  | n + 1, i, io =>
    let (word, io) := io.inw B (ioBase + ataRegData)
    let io := io.fill (wordIndex buf (s * half + i)) (wordIndex buf (s * half + i) + 1) word
    atapiReadWords ioBase buf half s n (i + 1) io

/-- The sector loop, from sector `s` on; `half` is `sector_size / 2`. -/
def atapiReadLoop (ioBase : BitVec 16) (buf : Word) (half : Nat) : Nat → Nat → Io σ → Int × Io σ
  | 0, _, io => (0, io)
  | n + 1, s, io =>
    checked (ataWaitReady B ioBase true io) (fun _ => -3) fun io =>
    atapiReadLoop ioBase buf half n (s + 1) (atapiReadWords B ioBase buf half s half 0 io)

/-- The wait for the packet; a failure reads the status and the error once more. -/
def atapiWaitPacket (ioBase : BitVec 16) (io : Io σ) : Int × Io σ :=
  let (r, io) := ataWaitReady B ioBase true io
  if r ≠ 0 then
    let (status, io) := io.inb B (ioBase + ataRegStatus)
    let (error, io) := io.inb B (ioBase + ataRegError)
    (r, { io with ataStatus := status, ataError := error })
  else (0, io)

/-- The register writes of the PACKET command, for at most 2048 bytes at a time. -/
def atapiIssue (ioBase : BitVec 16) (io : Io σ) : Io σ :=
  let io := io.outb B (ioBase + ataRegFeatures) 0
  let io := io.outb B (ioBase + ataRegSeccount) 0
  let io := io.outb B (ioBase + ataRegLbaLow) 0
  let io := io.outb B (ioBase + ataRegLbaMid) 0
  let io := io.outb B (ioBase + ataRegLbaHigh) 8
  io.outb B (ioBase + ataRegCommand) atapiCmdPacket

def atapiReadAt (ioBase : BitVec 16) (lba : BitVec 32) (sectorCount : BitVec 16) (buffer : Word)
    (drive : BitVec 8) (sectorSize : BitVec 32) (io : Io σ) : Int × Io σ :=
  let io := io.outb B (ioBase + ataRegDriveHead) (ataGetIoAndHead drive).2
  checked (ataWaitReady B ioBase false io) (fun _ => -1) fun io =>
  let io := atapiIssue B ioBase io
  checked (atapiWaitPacket B ioBase io) (fun _ => -2) fun io =>
  let io := outsw B (ioBase + ataRegData) (buildRead10AtapiCmd lba sectorCount) io
  atapiReadLoop B ioBase buffer (sectorSize.toNat / 2) sectorCount.toNat 0 io

def atapiReadSector (lba : BitVec 32) (sectorCount : BitVec 16) (buffer : Word) (drive : BitVec 8)
    (sectorSize : BitVec 32) (io : Io σ) : Int × Io σ :=
  atapiReadAt B (ataGetIoAndHead drive).1 lba sectorCount buffer drive sectorSize io

def atapiReadSectorManual (lba : BitVec 32) (sectorCount : BitVec 16) (buffer : Word)
    (drive : BitVec 8) (pmioBase : BitVec 16) (sectorSize : BitVec 32) (io : Io σ) : Int × Io σ :=
  let driveHead := (ataGetIoAndHead drive).2
  let ioBase := pmioBase
  let io := io.outb B (ioBase + ataRegDriveHead) driveHead
  checked (ataWaitReady B ioBase false io) (fun _ => -1) fun io =>
  let io := io.outb B (ioBase + ataRegFeatures) 0
  let io := io.outb B (ioBase + ataRegSeccount) 0
  let io := io.outb B (ioBase + ataRegLbaLow) 0
  let io := io.outb B (ioBase + ataRegLbaMid) 0
  let io := io.outb B (ioBase + ataRegLbaHigh) 8
  let io := io.outb B (ioBase + ataRegCommand) atapiCmdPacket
  let (r, io) := ataWaitReady B ioBase true io
  if r ≠ 0 then
    let (status, io) := io.inb B (ioBase + ataRegStatus)
    let (error, io) := io.inb B (ioBase + ataRegError)
    (-2, { io with ataStatus := status, ataError := error })
  else
  let io := outsw B (ioBase + ataRegData) (buildRead10AtapiCmd lba sectorCount) io
  atapiReadLoop B ioBase buffer (sectorSize.toNat / 2) sectorCount.toNat 0 io

/-- The two ways to leave the wait for the packet. -/
theorem checked_atapiWaitPacket (ioBase : BitVec 16) (io : Io σ) (rest : Io σ → Int × Io σ) :
    checked (atapiWaitPacket B ioBase io) (fun _ => -2) rest =
      let (r, io) := ataWaitReady B ioBase true io
      if r ≠ 0 then
        let (status, io) := io.inb B (ioBase + ataRegStatus)
        let (error, io) := io.inb B (ioBase + ataRegError)
        (-2, { io with ataStatus := status, ataError := error })
      else rest io := by
  unfold checked atapiWaitPacket
  rcases ataWaitReady B ioBase true io with ⟨r, io'⟩
  by_cases hr : r = 0
  · simp [hr]
  · simp [hr]

theorem atapiReadSectorManual_eq (lba : BitVec 32) (sectorCount : BitVec 16) (buffer : Word)
    (drive : BitVec 8) (pmioBase : BitVec 16) (sectorSize : BitVec 32) (io : Io σ) :
    atapiReadSectorManual B lba sectorCount buffer drive pmioBase sectorSize io =
      atapiReadAt B pmioBase lba sectorCount buffer drive sectorSize io := by
  simp only [atapiReadSectorManual, atapiReadAt, checked_atapiWaitPacket, atapiIssue]

end Driver

end AncoreOS.Drivers
