import AncoreOS.Drivers.AtaSelect

/-!
# Runs of ATA calls on a channel

`AtaCall` is a call of one of the functions of `ata.c` that write data commands.  Whether
its commands are polled depends on the drives alone (`AtaCall.Polls`), and
`commands_polled_iff` says so for every list of calls, from every state of the channel.
-/

namespace AncoreOS.Drivers

open ByteMemory

inductive AtaFunction
  | read28
  | read48
  | read28Manual
  | read48Manual
  | readAuto
  | readSemiauto
  | write28
  | write48
  | writeAuto
  deriving DecidableEq, Repr

/-- The 28-bit functions take the low bits of the address and of the count. -/
structure AtaCall where
  function : AtaFunction
  lba : Word
  count : BitVec 16
  buffer : Word
  basePmio : BitVec 16
  drive : BitVec 8
  size : BitVec 16

namespace AtaCall

section Call

variable {σ : Type*} (B : Bus σ) (c : AtaCall)

def run (io : Io σ) : Int × Io σ :=
  match c.function with
  | .read28 =>
    ataReadSector28bit B (c.lba.setWidth 32) (c.count.setWidth 8) c.buffer c.drive c.size io
  | .read48 => ataReadSector48bit B c.lba c.count c.buffer c.drive c.size io
  | .read28Manual =>
    ataReadSector28bitManual B (c.lba.setWidth 32) (c.count.setWidth 8) c.buffer c.basePmio c.drive
      c.size io
  | .read48Manual => ataReadSector48bitManual B c.lba c.count c.buffer c.basePmio c.drive c.size io
  | .readAuto => ataReadSectorAuto B c.lba c.count c.buffer c.drive c.size io
  | .readSemiauto => ataReadSectorSemiauto B c.lba c.count c.buffer c.basePmio c.drive c.size io
  | .write28 =>
    ataWriteSector28bit B (c.lba.setWidth 32) (c.count.setWidth 8) c.buffer c.drive c.size io
  | .write48 => ataWriteSector48bit B c.lba c.count c.buffer c.drive c.size io
  | .writeAuto => ataWriteSectorAuto B c.lba c.count c.buffer c.drive c.size io

/-- The base port that the call works with. -/
def base : BitVec 16 :=
  match c.function with
  | .read28Manual | .read48Manual | .readSemiauto => c.basePmio
  | .read28 | .read48 | .readAuto | .write28 | .write48 | .writeAuto => (ataGetIoAndHead c.drive).1

/-- The first command of the call is a 48-bit one. -/
def ext : Bool :=
  match c.function with
  | .read28 | .read28Manual | .write28 => false
  | .read48 | .read48Manual | .write48 => true
  | .readAuto | .readSemiauto => ReadsExt c.lba c.count
  | .writeAuto => ¬(c.lba.toNat < 2 ^ 28 ∧ c.count.toNat ≤ 255)

/-- The call gives no command, or a 48-bit command to a drive that has been seen idle. -/
def Polls (d : σ) : Prop :=
  if c.ext then ShownIdle B c.base ((ataGetIoAndHead c.drive).2 ||| 0x40) d
  else 2 ^ 28 ≤ (c.lba.setWidth 32).toNat ∨ NeverReady B c.base d

/-- **What one call does to the log.** -/
theorem run_polled_iff (io : Io σ) :
    CommandsPolled c.base (c.run B io).2.log ↔
      CommandsPolled c.base io.log ∧ c.Polls B io.dev := by
  obtain ⟨function, lba, count, buffer, basePmio, drive, size⟩ := c
  cases function with
  | read28 => exact read28At_polled_iff B buffer drive size _ _ io
  | read48 => exact read48At_polled_iff B buffer drive size lba count io
  | read28Manual => exact read28At_polled_iff B buffer drive size _ _ io
  | read48Manual => exact read48At_polled_iff B buffer drive size lba count io
  | readAuto =>
    simp only [run, Polls, ext, decide_eq_true_eq]
    exact readAutoAt_polled_iff B buffer drive size lba count io
  | readSemiauto =>
    simp only [run, Polls, ext, decide_eq_true_eq, ataReadSectorSemiauto_eq]
    exact readAutoAt_polled_iff B buffer drive size lba count io
  | write28 => exact write28_polled_iff B buffer drive size _ _ io rfl
  | write48 => exact write48_polled_iff B buffer drive size lba count io rfl
  | writeAuto =>
    simp only [run, Polls, ext, decide_eq_true_eq, ataWriteSectorAuto]
    by_cases hsmall : lba.toNat < 2 ^ 28 ∧ count.toNat ≤ 255
    · rw [if_pos hsmall, if_neg (not_not.mpr hsmall)]
      exact write28_polled_iff B buffer drive size _ _ io rfl
    · rw [if_neg hsmall, if_pos hsmall]
      exact write48_polled_iff B buffer drive size lba count io rfl

end Call

end AtaCall

section Run

variable {σ : Type*} (B : Bus σ)

/-- Whatever a call returns, another may follow. -/
def runCalls : List AtaCall → Io σ → Io σ
  | [], io => io
  | c :: calls, io => runCalls calls (c.run B io).2

def EachPolls : List AtaCall → Io σ → Prop
  | [], _ => True
  | c :: calls, io => c.Polls B io.dev ∧ EachPolls calls (c.run B io).2

theorem eachPolls_singleton (c : AtaCall) (io : Io σ) :
    EachPolls B [c] io ↔ c.Polls B io.dev := and_iff_left trivial

theorem runCalls_polled_iff {base : BitVec 16} (calls : List AtaCall)
    (hbase : ∀ c ∈ calls, c.base = base) : ∀ io : Io σ,
    CommandsPolled base (runCalls B calls io).log ↔
      CommandsPolled base io.log ∧ EachPolls B calls io := by
  induction calls with
  | nil => exact fun io => (and_iff_left trivial).symm
  | cons c calls ih =>
    intro io
    have hc : c.base = base := hbase c List.mem_cons_self
    rw [runCalls, ih fun c' hc' => hbase c' (List.mem_cons_of_mem c hc')]
    have hcall := c.run_polled_iff B io
    rw [hc] at hcall
    rw [hcall, and_assoc]
    rfl

end Run

/-- **Which runs poll the drives that they command.** -/
theorem commands_polled_iff {δ : Type*} (D : DriveSide δ) (base : BitVec 16)
    (calls : List AtaCall) (hbase : ∀ c ∈ calls, c.base = base) (io : Io (Channel δ)) :
    CommandsPolled base (runCalls (channelBus D base) calls { io with log := [] }).log ↔
      EachPolls (channelBus D base) calls { io with log := [] } :=
  (runCalls_polled_iff _ calls hbase _).trans (and_iff_right trivial)

/-! ### Two drives that always show the same -/

/-- A drive is its status. -/
def exampleSide : DriveSide (BitVec 8) where
  status d := d
  show8 _ _ := 0
  show16 _ _ := 0
  step d _ _ := d

def exampleChannel (master slave : BitVec 8) : Io (Channel (BitVec 8)) where
  dev := ⟨false, fun s => if s then slave else master⟩
  mem := fun _ => 0
  ataStatus := 0
  ataError := 0
  log := []

/-- A sector of the slave of the primary channel. -/
def exampleCall (function : AtaFunction) : AtaCall := ⟨function, 0, 1, 0x1000, 0x1F0, 1, 512⟩

theorem polled_exampleSide (base : BitVec 16) (c : Channel (BitVec 8)) (k : Nat) :
    polled (channelBus exampleSide base) base c k = c :=
  Function.iterate_fixed rfl k

theorem statusAt_exampleSide (base : BitVec 16) (c : Channel (BitVec 8)) (k : Nat) :
    statusAt (channelBus exampleSide base) base c k = c.drive := by
  rw [statusAt, polled_exampleSide, channelBus_status]
  rfl

theorem exampleCall_base (function : AtaFunction) :
    ∀ c ∈ [exampleCall function], c.base = 0x1F0 := by
  intro c hc
  rw [List.mem_singleton.mp hc]
  cases function <;> rfl

/-- A 48-bit read, from two idle drives. -/
theorem commands_polled_idle :
    CommandsPolled 0x1F0 (runCalls (channelBus exampleSide 0x1F0) [exampleCall .read48]
      { exampleChannel 0x40 0x40 with log := [] }).log := by
  rw [commands_polled_iff exampleSide 0x1F0 [exampleCall .read48] (exampleCall_base .read48),
    eachPolls_singleton]
  refine fun k _ => ⟨0, by decide, ?_⟩
  rw [show (exampleCall .read48).base = 0x1F0 from rfl, statusAt_exampleSide, polled_exampleSide]
  rfl

/-- The master is idle, and the slave is busy when its command is written. -/
theorem exampleCall_not_polled :
    ¬CommandsPolled 0x1F0 (runCalls (channelBus exampleSide 0x1F0) [exampleCall .read28]
      { exampleChannel 0x40 0x80 with log := [] }).log := by
  rw [runCalls_polled_iff _ [exampleCall .read28] (exampleCall_base .read28), eachPolls_singleton]
  have hready : ReadyAt (channelBus exampleSide 0x1F0) 0x1F0 false
      (exampleChannel 0x40 0x80).dev 0 := by
    refine ⟨by decide, firstGo_zero.mpr ?_⟩
    rw [statusAt_exampleSide]
    decide
  rintro ⟨-, hlba | hnever⟩
  · exact absurd hlba (by decide)
  · exact hnever 0 hready

end AncoreOS.Drivers
