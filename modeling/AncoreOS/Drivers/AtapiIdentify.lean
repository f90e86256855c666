import AncoreOS.Drivers.AtaIdentify
import AncoreOS.Drivers.AtaReady
import AncoreOS.Drivers.Sata

/-!
# The copies of the ATAPI driver

The identify commands of `drivers/storage/atapi.c` and their `_manual` copies.
`identify_atapi_useful_manual` has lost a wait: it reads the answer right after it has
sent the packet, where `identify_atapi_useful` first waits for the drive to have it.  So
the two part as soon as a drive takes the packet (`TakesPacket`), and
`atapi_copies_agree_iff` says that this is the only difference between the copies.
-/

namespace AncoreOS.Drivers

open ByteMemory

def atapiCmdIdentify : BitVec 8 := 0xA1

/-- `sizeof(read10_capabillity_buffer_t)`. -/
def capacitySize : Nat := 8

section Driver

variable {σ : Type*} (B : Bus σ)

/-- `ata_io_wait`: `n` reads of the alternate status register. -/
def ataIoWait (ioBase : BitVec 16) : Nat → Io σ → Io σ
  | 0, io => io
  | n + 1, io => ataIoWait ioBase n (io.inb B (ioBase + 0x206)).2

def identifyAtapi (drive : BitVec 8) (identifyData : Word) (io : Io σ) : Int × Io σ :=
  let (ioBase, driveHead) := ataGetIoAndHead drive
  let io := io.outb B (ioBase + ataRegDriveHead) driveHead
  let io := ataIoWait B ioBase 4 io
  let io := io.outb B (ioBase + ataRegFeatures) 0
  let io := io.outb B (ioBase + ataRegSeccount) 0
  let io := io.outb B (ioBase + ataRegLbaLow) 0
  let io := io.outb B (ioBase + ataRegLbaMid) 0
  let io := io.outb B (ioBase + ataRegLbaHigh) 0
  let io := io.outb B (ioBase + ataRegCommand) atapiCmdIdentify
  checked (ataWaitReady B ioBase true io) (fun _ => -1) fun io =>
  (0, identifyWords B ioBase identifyData 256 0 io)

def identifyAtapiManual (drive : BitVec 8) (identifyData : Word) (pmioBase : BitVec 16)
    (io : Io σ) : Int × Io σ :=
  let driveHead := (ataGetIoAndHead drive).2
  let ioBase := pmioBase
  let io := io.outb B (ioBase + ataRegDriveHead) driveHead
  let io := ataIoWait B ioBase 4 io
  let io := io.outb B (ioBase + ataRegFeatures) 0
  let io := io.outb B (ioBase + ataRegSeccount) 0
  let io := io.outb B (ioBase + ataRegLbaLow) 0
  let io := io.outb B (ioBase + ataRegLbaMid) 0
  let io := io.outb B (ioBase + ataRegLbaHigh) 0
  let io := io.outb B (ioBase + ataRegCommand) atapiCmdIdentify
  checked (ataWaitReady B ioBase true io) (fun _ => -1) fun io =>
  (0, identifyWords B ioBase identifyData 256 0 io)

/-- The register writes of the PACKET command for the capacity, which announce the size of
the answer. -/
def capacityRequest (ioBase : BitVec 16) (io : Io σ) : Io σ :=
  let io := io.outb B (ioBase + ataRegFeatures) 0
  let io := io.outb B (ioBase + ataRegSeccount) 0
  let io := io.outb B (ioBase + ataRegLbaLow) 0
  let io := io.outb B (ioBase + ataRegLbaMid) (BitVec.ofNat 8 capacitySize)
  let io := io.outb B (ioBase + ataRegLbaHigh) (BitVec.ofNat 8 (capacitySize >>> 8))
  io.outb B (ioBase + ataRegCommand) atapiCmdPacket

/-- `uint8_t packet[12] = {0}`, with the command for the capacity in it. -/
def capacityPacket : List (BitVec 8) := buildReadCapacityAtapiCmd (List.replicate 12 0)

/-- The answer is read as words and its two fields are turned round. -/
def capacityAnswer (ioBase : BitVec 16) (buffer : Word) (io : Io σ) : Io σ :=
  let io := identifyWords B ioBase buffer (capacitySize / 2) 0 io
  swapField buffer (swapField (buffer + 4) io)

def identifyAtapiUseful (buffer : Word) (drive : BitVec 8) (io : Io σ) : Int × Io σ :=
  let (ioBase, driveHead) := ataGetIoAndHead drive
  let io := io.outb B (ioBase + ataRegDriveHead) driveHead
  checked (ataWaitReady B ioBase false io) (fun _ => -1) fun io =>
  let io := capacityRequest B ioBase io
  checked (atapiWaitPacket B ioBase io) (fun _ => -2) fun io =>
  let io := outsw B (ioBase + ataRegData) capacityPacket io
  checked (ataWaitReady B ioBase true io) (fun _ => -3) fun io =>
  (0, capacityAnswer B ioBase buffer io)

/-- There is no wait between the packet and the answer. -/
def identifyAtapiUsefulManual (buffer : Word) (drive : BitVec 8) (pmioBase : BitVec 16)
    (io : Io σ) : Int × Io σ :=
  let driveHead := (ataGetIoAndHead drive).2
  let ioBase := pmioBase
  let io := io.outb B (ioBase + ataRegDriveHead) driveHead
  checked (ataWaitReady B ioBase false io) (fun _ => -1) fun io =>
  let io := capacityRequest B ioBase io
  checked (atapiWaitPacket B ioBase io) (fun _ => -2) fun io =>
  let io := outsw B (ioBase + ataRegData) capacityPacket io
  (0, capacityAnswer B ioBase buffer io)

end Driver

/-! ### What the copies have in common -/

/-- Two calls went through the same port accesses, returned the same code and left the same
memory. -/
structure SameCall {σ : Type*} (r r' : Int × Io σ) : Prop where
  code : r.1 = r'.1
  accesses : r.2.log = r'.2.log
  memory : r.2.mem = r'.2.mem

theorem SameCall.of_eq {σ : Type*} {r r' : Int × Io σ} (h : r = r') : SameCall r r' := by
  rw [h]
  exact ⟨rfl, rfl, rfl⟩

section Agree

variable {σ : Type*} (B : Bus σ) (base : BitVec 16)

/-- The drive after writes to its registers. -/
def written (d : σ) (writes : List (BitVec 16 × BitVec 8)) : σ :=
  writes.foldl (fun d w => B.outb d (base + w.1) w.2) d

def capacityWrites : List (BitVec 16 × BitVec 8) :=
  [(ataRegFeatures, 0), (ataRegSeccount, 0), (ataRegLbaLow, 0),
    (ataRegLbaMid, BitVec.ofNat 8 capacitySize),
    (ataRegLbaHigh, BitVec.ofNat 8 (capacitySize >>> 8)), (ataRegCommand, atapiCmdPacket)]

/-- A drive in the state `d` takes the packet: it gets ready when it is selected, and then
asks for data when it is given the PACKET command. -/
def TakesPacket (head : BitVec 8) (d : σ) : Prop :=
  ∃ j, ReadyAt B base false (B.outb d (base + ataRegDriveHead) head) j ∧
  ∃ k, ReadyAt B base true (written B base (polled B base
    (B.outb d (base + ataRegDriveHead) head) (j + 1)) capacityWrites) k

variable {B base}

/-- The words of the answer and their stores: two events each. -/
theorem length_identifyWords (data : Word) : ∀ (n i : Nat) (io : Io σ),
    (identifyWords B base data n i io).log.length = 2 * n + io.log.length := by
  intro n
  induction n with
  | zero => exact fun i io => (Nat.zero_add _).symm
  | succ n ih =>
    intro i io
    rw [identifyWords]
    dsimp only
    rw [ih]
    simp only [Io.fill, Io.inw, List.length_cons]
    omega

theorem length_capacityAnswer (buffer : Word) (io : Io σ) :
    (capacityAnswer B base buffer io).log.length = 8 + io.log.length := by
  unfold capacityAnswer swapField
  rw [poke_log, poke_log, length_identifyWords]
  rfl

/-- The wait in front of the answer is seen from outside. -/
theorem not_same_of_wait (buffer : Word) (io : Io σ) :
    ¬SameCall (checked (ataWaitReady B base true io) (fun _ => -3) fun io =>
      (0, capacityAnswer B base buffer io)) (0, capacityAnswer B base buffer io) := by
  intro h
  rcases @checked_ataWaitReady _ B base true (fun _ => -3)
    (fun io => (0, capacityAnswer B base buffer io)) io with ⟨k, hk, hrun⟩ | ⟨_, r, _, hrun⟩
  · have hwait : io.log.length < (afterPolls B base k io).log.length := by
      have := @length_lt_ataWaitReady _ B base true io
      rwa [ataWaitReady_of_readyAt hk] at this
    have hlength := congrArg List.length h.accesses
    rw [hrun] at hlength
    simp only [length_capacityAnswer] at hlength
    omega
  · have hcode := h.code
    rw [hrun] at hcode
    exact absurd hcode (show (-3 : Int) ≠ 0 by decide)

/-- `identify_atapi_useful` and its copy agree as long as no packet is taken. -/
theorem useful_same_iff (buffer : Word) (drive : BitVec 8) (io : Io σ) :
    SameCall (identifyAtapiUseful B buffer drive io)
        (identifyAtapiUsefulManual B buffer drive (ataGetIoAndHead drive).1 io) ↔
      ¬TakesPacket B (ataGetIoAndHead drive).1 (ataGetIoAndHead drive).2 io.dev := by
  unfold identifyAtapiUseful identifyAtapiUsefulManual
  generalize ataGetIoAndHead drive = channel
  obtain ⟨base, head⟩ := channel
  dsimp only
  by_cases hj : ∃ j, ReadyAt B base false (io.outb B (base + ataRegDriveHead) head).dev j
  · obtain ⟨j, hj⟩ := hj
    have hselect := ataWaitReady_of_readyAt hj
    rw [checked_of_zero hselect, checked_of_zero hselect, checked_atapiWaitPacket,
      checked_atapiWaitPacket]
    generalize hio : capacityRequest B base (afterPolls B base j
      (io.outb B (base + ataRegDriveHead) head)) = io₁
    have hdev : io₁.dev = written B base (polled B base
        (B.outb io.dev (base + ataRegDriveHead) head) (j + 1)) capacityWrites := by
      rw [← hio]
      rfl
    by_cases hk : ∃ k, ReadyAt B base true io₁.dev k
    · obtain ⟨k, hk⟩ := hk
      rw [ataWaitReady_of_readyAt hk]
      refine iff_of_false (not_same_of_wait buffer _) (not_not.mpr ⟨j, hj, k, ?_⟩)
      rw [← hdev]
      exact hk
    · refine iff_of_true (SameCall.of_eq ?_) ?_
      · -- the wait for the packet fails in both
        have hr : (ataWaitReady B base true io₁).1 ≠ 0 := fun h =>
          hk (ataWaitReady_eq_zero_iff.mp h)
        dsimp only
        rw [if_pos hr, if_pos hr]
      · rintro ⟨j', hj', k, hk'⟩
        rw [hj'.2.unique hj.2, ← hdev] at hk'
        exact hk ⟨k, hk'⟩
  · refine iff_of_true (SameCall.of_eq ?_) fun ⟨j, h, _⟩ => hj ⟨j, h⟩
    -- the drive is not there for either
    have hr : (ataWaitReady B base false (io.outb B (base + ataRegDriveHead) head)).1 ≠ 0 :=
      fun h => hj (ataWaitReady_eq_zero_iff.mp h)
    rw [checked_of_ne rfl hr, checked_of_ne rfl hr]

/-- **Which drives cannot tell the copies of the ATAPI driver apart.** -/
theorem atapi_copies_agree_iff (drive : BitVec 8) (io : Io σ) :
    ((∀ lba count buffer size, SameCall (atapiReadSector B lba count buffer drive size io)
        (atapiReadSectorManual B lba count buffer drive (ataGetIoAndHead drive).1 size io)) ∧
      (∀ data, SameCall (identifyAtapi B drive data io)
        (identifyAtapiManual B drive data (ataGetIoAndHead drive).1 io)) ∧
      ∀ buffer, SameCall (identifyAtapiUseful B buffer drive io)
        (identifyAtapiUsefulManual B buffer drive (ataGetIoAndHead drive).1 io)) ↔
      ¬TakesPacket B (ataGetIoAndHead drive).1 (ataGetIoAndHead drive).2 io.dev := by
  constructor
  · exact fun ⟨_, _, h⟩ => (useful_same_iff 0 drive io).mp (h 0)
  · intro h
    refine ⟨fun lba count buffer size => ?_, fun data => SameCall.of_eq rfl,
      fun buffer => (useful_same_iff buffer drive io).mpr h⟩
    rw [atapiReadSectorManual_eq, atapiReadSector]
    exact SameCall.of_eq rfl

end Agree

/-! ### A drive that takes its time -/

/-- A drive that counts the words of the packet.  When it has all six it is busy for one read
of the status; a word read meanwhile is not the answer. -/
def exampleCdrom : Bus Nat where
  inb d port := if port = 0x1F7 then (if d = 6 then 0x80 else 0x58, if d = 6 then 7 else d) else (0, d)
  outb d _ _ := d
  inw d _ := (if d = 7 then 0x0800 else 0xFFFF, d)
  outw d _ _ := d + 1

def exampleCdromIo : Io Nat := ⟨0, fun _ => 0, 0, 0, []⟩

theorem exampleCdrom_not_same :
    ¬SameCall (identifyAtapiUseful exampleCdrom 0x1000 0 exampleCdromIo)
      (identifyAtapiUsefulManual exampleCdrom 0x1000 0 (ataGetIoAndHead 0).1 exampleCdromIo) := by
  rw [useful_same_iff, not_not]
  exact ⟨0, ⟨by decide, firstGo_zero.mpr ⟨by decide, by decide⟩⟩,
    0, by decide, firstGo_zero.mpr ⟨by decide, by decide⟩⟩

/-- The copy stores what the busy drive shows. -/
example : (identifyAtapiUseful exampleCdrom 0x1000 0 exampleCdromIo).2.mem 0x1000 = 0x08 ∧
    (identifyAtapiUsefulManual exampleCdrom 0x1000 0 0x1F0 exampleCdromIo).2.mem 0x1000 = 0xFF := by
  decide

end AncoreOS.Drivers
