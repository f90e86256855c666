import AncoreOS.Drivers.Ata

/-!
# The copies of the ATA driver

`identify_ata` and `identify_ata_manual`, and the result about all copies in
`drivers/storage/ata.c`: at the standard base port of the drive they cannot be told
apart, whatever the hardware answers.  A `Bus` gives its answers from a state of its
own, so a sequence of answers that is fixed beforehand is one of its cases.
-/

namespace AncoreOS.Drivers

open ByteMemory

def ataCmdIdentify : BitVec 8 := 0xEC

section Driver

variable {σ : Type*} (B : Bus σ)

/-- The loop that reads words into an array of `uint16_t`, from the element `i` on. -/
def identifyWords (ioBase : BitVec 16) (data : Word) : Nat → Nat → Io σ → Io σ
  | 0, _, io => io
  | n + 1, i, io =>
    let (word, io) := io.inw B (ioBase + ataRegData)
    let a := data + BitVec.ofNat 64 (2 * i)
    identifyWords ioBase data n (i + 1) (io.fill a (a + 1) word)

def identifyAta (drive : BitVec 8) (identifyData : Word) (io : Io σ) : Int × Io σ :=
  let (ioBase, driveHead) := ataGetIoAndHead drive
  let io := io.outb B (ioBase + ataRegDriveHead) driveHead
  let io := ataStatusReads B ioBase 4 io
  let io := io.outb B (ioBase + ataRegSeccount) 0
  let io := io.outb B (ioBase + ataRegLbaLow) 0
  let io := io.outb B (ioBase + ataRegLbaMid) 0
  let io := io.outb B (ioBase + ataRegLbaHigh) 0
  let io := io.outb B (ioBase + ataRegCommand) ataCmdIdentify
  checked (ataWaitReady B ioBase true io) (fun _ => -1) fun io =>
  let io := identifyWords B ioBase identifyData 256 0 io
  (if load io.mem identifyData 2 = 0 then -2 else 0, io)

def identifyAtaManual (drive : BitVec 8) (identifyData : Word) (pmioBase : BitVec 16) (io : Io σ) :
    Int × Io σ :=
  let driveHead := (ataGetIoAndHead drive).2
  let ioBase := pmioBase
  let io := io.outb B (ioBase + ataRegDriveHead) driveHead
  let io := ataStatusReads B ioBase 4 io
  let io := io.outb B (ioBase + ataRegSeccount) 0
  let io := io.outb B (ioBase + ataRegLbaLow) 0
  let io := io.outb B (ioBase + ataRegLbaMid) 0
  let io := io.outb B (ioBase + ataRegLbaHigh) 0
  let io := io.outb B (ioBase + ataRegCommand) ataCmdIdentify
  checked (ataWaitReady B ioBase true io) (fun _ => -1) fun io =>
  let io := identifyWords B ioBase identifyData 256 0 io
  (if load io.mem identifyData 2 = 0 then -2 else 0, io)

end Driver

/-- **The copies agree.**  From every state both run through the same port accesses, which
`log` records in order, return the same code and leave the same memory. -/
theorem ata_copies_agree {σ : Type*} (B : Bus σ) (drive : BitVec 8) (size : BitVec 16)
    (buffer : Word) (io : Io σ) :
    let base := (ataGetIoAndHead drive).1
    (∀ lba count, ataReadSectorSemiauto B lba count buffer base drive size io =
      ataReadSectorAuto B lba count buffer drive size io) ∧
    (∀ lba count, ataReadSector28bitManual B lba count buffer base drive size io =
      ataReadSector28bit B lba count buffer drive size io) ∧
    (∀ lba count, ataReadSector48bitManual B lba count buffer base drive size io =
      ataReadSector48bit B lba count buffer drive size io) ∧
    identifyAtaManual B drive buffer base io = identifyAta B drive buffer io := by
  refine ⟨fun lba count => ?_, fun lba count => ?_, fun lba count => ?_, ?_⟩
  · rw [ataReadSectorSemiauto_eq, ataReadSectorAuto]
  · rw [ataReadSector28bitManual_eq, ataReadSector28bit]
  · rw [ataReadSector48bitManual_eq, ataReadSector48bit]
  · rfl

end AncoreOS.Drivers
