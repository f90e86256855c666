import AncoreOS.Drivers.AtaDrive

/-!
# What the driver tells a drive

The log of a call, read with the rules of the drive: `ataRecord` keeps the register
file and the data commands that were started, each with the number of words that
went through the data port and the addresses that were filled from it.

The results hold for every device: they say what a call that returns `0` has done,
whatever the device answered.
-/

namespace AncoreOS.Drivers

open ByteMemory

theorem port_sub (base reg : BitVec 16) : base + reg - base = reg := by bv_omega

/-! ### The registers of a command -/

/-- The drive that `ata_get_io_and_head` selects on the channel. -/
def driveSlave (drive : BitVec 8) : Bool := decide (drive &&& 1 ≠ 0)

theorem driveHead_eq (drive : BitVec 8) :
    (ataGetIoAndHead drive).2 = if driveSlave drive then 0xF0 else 0xE0 := by
  revert drive
  decide

theorem head28 (drive x : BitVec 8) :
    ((ataGetIoAndHead drive).2 ||| (x &&& 0x0F)).toNat % 16 = x.toNat % 16 ∧
      ((ataGetIoAndHead drive).2 ||| (x &&& 0x0F)).getLsbD 4 = driveSlave drive := by
  rw [driveHead_eq]
  generalize driveSlave drive = slave
  revert slave x
  decide

theorem head48 (drive : BitVec 8) :
    ((ataGetIoAndHead drive).2 ||| 0x40).getLsbD 4 = driveSlave drive := by
  rw [driveHead_eq]
  generalize driveSlave drive = slave
  revert slave
  decide

def readOrWrite28 (write : Bool) : BitVec 8 := if write then ataCmdWriteSectors else ataCmdReadSectors

def readOrWrite48 (write : Bool) : BitVec 8 :=
  if write then ataCmdWriteSectorsExt else ataCmdReadSectorsExt

/-- The command that the 28-bit readers and writers mean. -/
def command28 (write : Bool) (drive : BitVec 8) (lba : BitVec 32) (count : BitVec 8) : AtaCommand :=
  ⟨false, write, driveSlave drive, lba.toNat, if count = 0 then 256 else count.toNat⟩

/-- The command that the 48-bit readers and writers give: the address is cut. -/
def command48 (write : Bool) (drive : BitVec 8) (lba : Word) (count : BitVec 16) : AtaCommand :=
  ⟨true, write, driveSlave drive, lba.toNat % 2 ^ 48, if count = 0 then 65536 else count.toNat⟩

theorem command28_told (write : Bool) (drive : BitVec 8) (lba : BitVec 32) (count : BitVec 8) :
    count.toNat ≤ (command28 write drive lba count).told := by
  have hcount := count.isLt
  unfold command28
  dsimp only
  split
  · omega
  · exact le_refl _

theorem command48_told (write : Bool) (drive : BitVec 8) (lba : Word) (count : BitVec 16) :
    count.toNat ≤ (command48 write drive lba count).told := by
  have hcount := count.isLt
  unfold command48
  dsimp only
  split
  · omega
  · exact le_refl _

namespace Taskfile

/-- The register writes of `ataIssue28`. -/
def set28 (t : Taskfile) (head : BitVec 8) (lba : BitVec 32) (count : BitVec 8) : Taskfile :=
  ((((t.write ataRegDriveHead head).write ataRegSeccount count).write ataRegLbaLow
    (lba.setWidth 8)).write ataRegLbaMid ((lba >>> 8).setWidth 8)).write ataRegLbaHigh
    ((lba >>> 16).setWidth 8)

/-- The register writes of `ataIssue48`. -/
def set48 (t : Taskfile) (head : BitVec 8) (lba : Word) (count : BitVec 16) : Taskfile :=
  ((((((((t.write ataRegDriveHead head).write ataRegSeccount ((count >>> 8).setWidth 8)).write
    ataRegLbaLow ((lba >>> 24).setWidth 8)).write ataRegLbaMid ((lba >>> 32).setWidth 8)).write
    ataRegLbaHigh ((lba >>> 40).setWidth 8)).write ataRegSeccount (count.setWidth 8)).write
    ataRegLbaLow (lba.setWidth 8)).write ataRegLbaMid ((lba >>> 8).setWidth 8)).write
    ataRegLbaHigh ((lba >>> 16).setWidth 8)

theorem command_readOrWrite28 (t : Taskfile) (write : Bool) :
    t.command (readOrWrite28 write) = some ⟨false, write, t.slave, t.lba28, t.told28⟩ := by
  cases write
  · rfl
  · rfl

theorem command_readOrWrite48 (t : Taskfile) (write : Bool) :
    t.command (readOrWrite48 write) = some ⟨true, write, t.slave, t.lba48, t.told48⟩ := by
  cases write
  · rfl
  · rfl

/-- **The 28-bit register writes are the command they are meant to be.** -/
theorem command_set28 (t : Taskfile) (write : Bool) (drive : BitVec 8) {lba : BitVec 32}
    (hlba : lba.toNat < 2 ^ 28) (count : BitVec 8) :
    (t.set28 ((ataGetIoAndHead drive).2 ||| ((lba >>> 24).setWidth 8 &&& 0x0F)) lba count).command
      (readOrWrite28 write) = some (command28 write drive lba count) := by
  obtain ⟨hmod, hslave⟩ := head28 drive ((lba >>> 24).setWidth 8)
  generalize (ataGetIoAndHead drive).2 ||| ((lba >>> 24).setWidth 8 &&& 0x0F) = head at hmod hslave
  have hnat : (lba.setWidth 8).toNat + 2 ^ 8 * ((lba >>> 8).setWidth 8).toNat +
      2 ^ 16 * ((lba >>> 16).setWidth 8).toNat + 2 ^ 24 * (((lba >>> 24).setWidth 8).toNat % 16) =
      lba.toNat := by
    simp only [BitVec.toNat_setWidth, BitVec.toNat_ushiftRight, Nat.shiftRight_eq_div_pow]
    omega
  simp only [command_readOrWrite28, set28, write_seccount, write_lbaLow, write_lbaMid, write_lbaHigh,
    write_driveHead, slave, lba28, told28, TwoDeep.write, hslave, hmod]
  rw [hnat]
  rfl

/-- **The 48-bit register writes are the command they are meant to be**, up to the
48 bits of the address. -/
theorem command_set48 (t : Taskfile) (write : Bool) (drive : BitVec 8) (lba : Word)
    (count : BitVec 16) :
    (t.set48 ((ataGetIoAndHead drive).2 ||| 0x40) lba count).command (readOrWrite48 write) =
      some (command48 write drive lba count) := by
  have hslave := head48 drive
  generalize (ataGetIoAndHead drive).2 ||| 0x40 = head at hslave
  have hnat : (lba.setWidth 8).toNat + 2 ^ 8 * ((lba >>> 8).setWidth 8).toNat +
      2 ^ 16 * ((lba >>> 16).setWidth 8).toNat + 2 ^ 24 * ((lba >>> 24).setWidth 8).toNat +
      2 ^ 32 * ((lba >>> 32).setWidth 8).toNat + 2 ^ 40 * ((lba >>> 40).setWidth 8).toNat =
      lba.toNat % 2 ^ 48 := by
    simp only [BitVec.toNat_setWidth, BitVec.toNat_ushiftRight, Nat.shiftRight_eq_div_pow]
    omega
  have hsplit : (count.setWidth 8).toNat + 2 ^ 8 * ((count >>> 8).setWidth 8).toNat =
      count.toNat := by
    have := count.isLt
    simp only [BitVec.toNat_setWidth, BitVec.toNat_ushiftRight, Nat.shiftRight_eq_div_pow]
    omega
  have hzero : ((count >>> 8).setWidth 8 = (0 : BitVec 8) ∧ count.setWidth 8 = (0 : BitVec 8)) ↔
      count = 0 := by
    have h8 : (0 : BitVec 8).toNat = 0 := rfl
    have h16 : (0 : BitVec 16).toNat = 0 := rfl
    rw [BitVec.toNat_eq, BitVec.toNat_eq, BitVec.toNat_eq, ← hsplit, h8, h16]
    omega
  simp only [command_readOrWrite48, set48, write_seccount, write_lbaLow, write_lbaMid, write_lbaHigh,
    write_driveHead, slave, lba48, told48, TwoDeep.write, hslave, hzero]
  rw [hnat, hsplit]
  rfl

end Taskfile

/-! ### Reading the log -/

/-- A data command, the number of words moved after it, and the addresses that were
filled, in order. -/
structure AtaRun where
  command : AtaCommand
  moved : Nat
  fills : List (Word × Word)
  deriving DecidableEq, Repr

/-- The runs are latest first, as the log is. -/
structure AtaRecord where
  tf : Taskfile
  runs : List AtaRun

def AtaRun.move (r : AtaRun) : AtaRun := { r with moved := r.moved + 1 }

def AtaRecord.event (base : BitVec 16) (r : AtaRecord) : IoEvent → AtaRecord
  | .outb port v =>
    if port - base = ataRegCommand then
      { r with runs := ((r.tf.command v).map (⟨·, 0, []⟩)).toList ++ r.runs }
    else { r with tf := r.tf.write (port - base) v }
  | .inw port _ =>
    if port - base = ataRegData then { r with runs := r.runs.modifyHead AtaRun.move } else r
  | .outw port _ =>
    if port - base = ataRegData then { r with runs := r.runs.modifyHead AtaRun.move } else r
  | .fill lo hi =>
    { r with runs := r.runs.modifyHead (fun run => { run with fills := run.fills ++ [(lo, hi)] }) }
  | .inb _ _ | .readl _ _ | .writel _ _ | .dma _ => r

/-- What a log says to a drive at the base port `base`. -/
def ataRecord (base : BitVec 16) : List IoEvent → AtaRecord
  | [] => ⟨⟨⟨0, 0⟩, ⟨0, 0⟩, ⟨0, 0⟩, ⟨0, 0⟩, 0⟩, []⟩
  | e :: log => (ataRecord base log).event base e

section Device

variable {σ : Type*} (B : Bus σ) {base : BitVec 16}

theorem ataRecord_outb (io : Io σ) {reg : BitVec 16} (v : BitVec 8) (hreg : reg ≠ ataRegCommand) :
    ataRecord base (io.outb B (base + reg) v).log =
      { ataRecord base io.log with tf := (ataRecord base io.log).tf.write reg v } := by
  simp only [Io.outb, ataRecord, AtaRecord.event, port_sub, if_neg hreg]

theorem ataRecord_command (io : Io σ) (v : BitVec 8) :
    ataRecord base (io.outb B (base + ataRegCommand) v).log =
      { ataRecord base io.log with
        runs := (((ataRecord base io.log).tf.command v).map (⟨·, 0, []⟩)).toList ++
          (ataRecord base io.log).runs } := by
  simp only [Io.outb, ataRecord, AtaRecord.event, port_sub, if_true]

/-! ### Waits and commands -/

theorem ataWaitReady_record {needsDrq : Bool} {io : Io σ} {r : Int} {io' : Io σ}
    (h : ataWaitReady B base needsDrq io = (r, io')) :
    ataRecord base io'.log = ataRecord base io.log :=
  ataWaitReady_log B (ataRecord base) (fun _ _ _ => rfl) h

theorem ataStatusReads_record : ∀ (n : Nat) (io : Io σ),
    ataRecord base (ataStatusReads B base n io).log = ataRecord base io.log := by
  intro n
  induction n with
  | zero => exact fun io => rfl
  | succ n ih => exact fun io => ih _

variable (base) in
theorem ataIssue28_record (write : Bool) (drive : BitVec 8) {lba : BitVec 32}
    (hlba : lba.toNat < 2 ^ 28) (count : BitVec 8) (io : Io σ) :
    (ataRecord base (ataIssue28 B base
      ((ataGetIoAndHead drive).2 ||| ((lba >>> 24).setWidth 8 &&& 0x0F)) lba count
      (readOrWrite28 write) io).log).runs =
      ⟨command28 write drive lba count, 0, []⟩ :: (ataRecord base io.log).runs := by
  have hcommand := (ataRecord base io.log).tf.command_set28 write drive hlba count
  simp only [ataIssue28, ataRecord_command,
    ataRecord_outb _ _ _ (show ataRegDriveHead ≠ ataRegCommand by decide),
    ataRecord_outb _ _ _ (show ataRegSeccount ≠ ataRegCommand by decide),
    ataRecord_outb _ _ _ (show ataRegLbaLow ≠ ataRegCommand by decide),
    ataRecord_outb _ _ _ (show ataRegLbaMid ≠ ataRegCommand by decide),
    ataRecord_outb _ _ _ (show ataRegLbaHigh ≠ ataRegCommand by decide)]
  rw [Taskfile.set28] at hcommand
  rw [hcommand]
  rfl

variable (base) in
theorem ataIssue48_record (write : Bool) (drive : BitVec 8) (lba : Word) (count : BitVec 16)
    (io : Io σ) :
    (ataRecord base (ataIssue48 B base ((ataGetIoAndHead drive).2 ||| 0x40) lba count
      (readOrWrite48 write) io).log).runs =
      ⟨command48 write drive lba count, 0, []⟩ :: (ataRecord base io.log).runs := by
  have hcommand := (ataRecord base io.log).tf.command_set48 write drive lba count
  simp only [ataIssue48, ataWrite48bitLba, ataRecord_command, ataStatusReads_record,
    ataRecord_outb _ _ _ (show ataRegDriveHead ≠ ataRegCommand by decide),
    ataRecord_outb _ _ _ (show ataRegSeccount ≠ ataRegCommand by decide),
    ataRecord_outb _ _ _ (show ataRegLbaLow ≠ ataRegCommand by decide),
    ataRecord_outb _ _ _ (show ataRegLbaMid ≠ ataRegCommand by decide),
    ataRecord_outb _ _ _ (show ataRegLbaHigh ≠ ataRegCommand by decide)]
  rw [Taskfile.set48] at hcommand
  rw [hcommand]
  rfl

/-! ### The data phase -/

/-- The addresses that the inner loop of the readers fills. -/
def wordFills (buf : Word) (size s : Nat) : Nat → Nat → List (Word × Word)
  | 0, _ => []
  | n + 1, i =>
    (bufIndex buf (s * size + i), bufIndex buf (s * size + i + 1)) :: wordFills buf size s n (i + 2)

/-- The addresses that the sector loop of the readers fills. -/
def readFills (buf : Word) (size : Nat) : Nat → Nat → List (Word × Word)
  | 0, _ => []
  | n + 1, s => wordFills buf size s ((size + 1) / 2) 0 ++ readFills buf size n (s + 1)

variable {c : AtaCommand} {m : Nat} {fs : List (Word × Word)} {rest : List AtaRun} (buf : Word)
  (size : Nat)

theorem ataReadWords_record (s : Nat) : ∀ (n i m : Nat) (fs : List (Word × Word)) (io : Io σ),
    (ataRecord base io.log).runs = ⟨c, m, fs⟩ :: rest →
    (ataRecord base (ataReadWords B base buf size s n i io).log).runs =
      ⟨c, m + n, fs ++ wordFills buf size s n i⟩ :: rest := by
  intro n
  induction n with
  | zero =>
    intro i m fs io h
    rw [wordFills, List.append_nil]
    exact h
  | succ n ih =>
    intro i m fs io h
    rw [ataReadWords]
    dsimp only
    rw [ih (i + 2) (m + 1) (fs ++ [(bufIndex buf (s * size + i), bufIndex buf (s * size + i + 1))])]
    · rw [wordFills, List.append_assoc, List.singleton_append, Nat.add_assoc, Nat.add_comm 1 n]
    · simp only [Io.fill, Io.inw, ataRecord, AtaRecord.event, port_sub, if_true, h,
        List.modifyHead_cons, AtaRun.move]

theorem ataWriteWords_record (s : Nat) : ∀ (n i m : Nat) (io : Io σ),
    (ataRecord base io.log).runs = ⟨c, m, fs⟩ :: rest →
    (ataRecord base (ataWriteWords B base buf size s n i io).log).runs = ⟨c, m + n, fs⟩ :: rest := by
  intro n
  induction n with
  | zero => exact fun i m io h => h
  | succ n ih =>
    intro i m io h
    rw [ataWriteWords, ih (i + 2) (m + 1)]
    · rw [Nat.add_assoc, Nat.add_comm 1 n]
    · simp only [Io.outw, ataRecord, AtaRecord.event, port_sub, if_true, h, List.modifyHead_cons,
        AtaRun.move]

theorem ataReadLoop_record : ∀ (n s m : Nat) (fs : List (Word × Word)) (io io' : Io σ),
    (ataRecord base io.log).runs = ⟨c, m, fs⟩ :: rest →
    ataReadLoop B base buf size n s io = (0, io') →
    (ataRecord base io'.log).runs =
      ⟨c, m + n * ((size + 1) / 2), fs ++ readFills buf size n s⟩ :: rest := by
  intro n
  induction n with
  | zero =>
    rintro s m fs io io' h hrun
    obtain rfl : io = io' := (Prod.mk.inj hrun).2
    rw [readFills, List.append_nil, Nat.zero_mul]
    exact h
  | succ n ih =>
    intro s m fs io io' h hrun
    rw [ataReadLoop] at hrun
    obtain ⟨io₁, hwait, hrest⟩ := of_checked_eq_zero (fun _ _ => by decide) hrun
    rw [← ataWaitReady_record B hwait] at h
    have hwords := ataReadWords_record B buf size s ((size + 1) / 2) 0 m fs io₁ h
    rw [ih (s + 1) _ _ _ io' hwords hrest, readFills, List.append_assoc, Nat.succ_mul,
      Nat.add_assoc, Nat.add_comm (n * _)]

theorem ataWriteLoop_record : ∀ (n s m : Nat) (io io' : Io σ),
    (ataRecord base io.log).runs = ⟨c, m, fs⟩ :: rest →
    ataWriteLoop B base buf size n s io = (0, io') →
    (ataRecord base io'.log).runs = ⟨c, m + n * ((size + 1) / 2), fs⟩ :: rest := by
  intro n
  induction n with
  | zero =>
    rintro s m io io' h hrun
    obtain rfl : io = io' := (Prod.mk.inj hrun).2
    rw [Nat.zero_mul]
    exact h
  | succ n ih =>
    intro s m io io' h hrun
    rw [ataWriteLoop] at hrun
    obtain ⟨io₁, hwait, hrest⟩ := of_checked_eq_zero (fun _ _ => by decide) hrun
    rw [← ataWaitReady_record B hwait] at h
    have hwords := ataWriteWords_record B buf size s ((size + 1) / 2) 0 m io₁ h
    rw [ih (s + 1) _ _ io' hwords hrest, Nat.succ_mul, Nat.add_assoc, Nat.add_comm (n * _)]

/-! ### The readers and the writers -/

variable {drive : BitVec 8} {io io' : Io σ}

theorem ataRead28At_record {lba : BitVec 32} {count : BitVec 8} {sz : BitVec 16}
    (h : ataRead28At B base lba count buf drive sz io = (0, io')) :
    lba.toNat < 2 ^ 28 ∧ (ataRecord base io'.log).runs =
      ⟨command28 false drive lba count, count.toNat * ((sz.toNat + 1) / 2),
        readFills buf sz.toNat count.toNat 0⟩ :: (ataRecord base io.log).runs := by
  rw [ataRead28At] at h
  split at h
  · exact absurd (Prod.mk.inj h).1 (by decide)
  · rename_i hlba
    have hlba : lba.toNat < 2 ^ 28 := not_le.mp hlba
    obtain ⟨io₁, hwait, hloop⟩ := of_checked_eq_zero (fun _ _ => by decide) h
    have hruns := ataReadLoop_record B buf sz.toNat count.toNat 0 0 [] _ io'
      (ataIssue28_record B base false drive hlba count io₁) hloop
    rw [Nat.zero_add, List.nil_append, ataWaitReady_record B hwait] at hruns
    exact ⟨hlba, hruns⟩

theorem ataRead48At_record {lba : Word} {count sz : BitVec 16}
    (h : ataRead48At B base lba count buf drive sz io = (0, io')) :
    (ataRecord base io'.log).runs =
      ⟨command48 false drive lba count, count.toNat * ((sz.toNat + 1) / 2),
        readFills buf sz.toNat count.toNat 0⟩ :: (ataRecord base io.log).runs := by
  rw [ataRead48At] at h
  obtain ⟨io₁, hwait, hloop⟩ := of_checked_eq_zero (fun _ _ => by decide) h
  have hruns := ataReadLoop_record B buf sz.toNat count.toNat 0 0 [] _ io'
    (ataIssue48_record B base false drive lba count io₁) hloop
  rw [Nat.zero_add, List.nil_append, ataWaitReady_record B hwait] at hruns
  exact hruns

/-- The command of the chunk `k`. -/
def chunkRun (lba : Word) (count : BitVec 16) (buf : Word) (drive : BitVec 8) (sz : BitVec 16)
    (k : Nat) : AtaRun :=
  let n := BitVec.ofNat 8 (min (count.toNat - 255 * k) 255)
  ⟨command28 false drive ((lba + BitVec.ofNat 64 (255 * k)).setWidth 32) n,
    n.toNat * ((sz.toNat + 1) / 2),
    readFills (buf + BitVec.ofNat 64 (255 * k * sz.toNat)) sz.toNat n.toNat 0⟩

/-- The commands of `n` chunks from the chunk `k` on. -/
def chunkRuns (lba : Word) (count : BitVec 16) (buf : Word) (drive : BitVec 8) (sz : BitVec 16) :
    Nat → Nat → List AtaRun
  | 0, _ => []
  | n + 1, k => chunkRuns lba count buf drive sz n (k + 1) ++ [chunkRun lba count buf drive sz k]

theorem ataReadChunks_record {lba : Word} {count sz : BitVec 16} :
    ∀ (n k : Nat) (io io' : Io σ), ataReadChunks B base lba count buf drive sz n k io = (0, io') →
      (ataRecord base io'.log).runs =
        chunkRuns lba count buf drive sz n k ++ (ataRecord base io.log).runs := by
  intro n
  induction n with
  | zero =>
    intro k io io' h
    obtain rfl : io = io' := (Prod.mk.inj h).2
    rfl
  | succ n ih =>
    intro k io io' h
    rw [ataReadChunks] at h
    obtain ⟨io₁, hfirst, hrest⟩ := of_checked_eq_zero (fun _ hr => hr) h
    rw [ih (k + 1) io₁ io' hrest, (ataRead28At_record B _ hfirst).2, chunkRuns, List.append_assoc]
    rfl

/-- The commands of `ata_read_sector_auto` and `ata_read_sector_semiauto`. -/
def readAutoRuns (lba : Word) (count : BitVec 16) (buf : Word) (drive : BitVec 8) (sz : BitVec 16) :
    List AtaRun :=
  if lba.toNat < 2 ^ 28 ∧ count.toNat ≤ 255 then
    [⟨command28 false drive (lba.setWidth 32) (count.setWidth 8),
      (count.setWidth 8).toNat * ((sz.toNat + 1) / 2),
      readFills buf sz.toNat (count.setWidth 8).toNat 0⟩]
  else
    ⟨command48 false drive lba count, count.toNat * ((sz.toNat + 1) / 2),
      readFills buf sz.toNat count.toNat 0⟩ ::
    if (lba + count.setWidth 64).toNat < 2 ^ 28 then
      chunkRuns lba count buf drive sz ((count.toNat + 254) / 255) 0
    else []

/-- **A reader that returns `0` has given exactly these commands**, whatever the device
does. -/
theorem ataReadAutoAt_record {lba : Word} {count sz : BitVec 16}
    (h : ataReadAutoAt B base lba count buf drive sz io = (0, io')) :
    (ataRecord base io'.log).runs =
      readAutoRuns lba count buf drive sz ++ (ataRecord base io.log).runs := by
  unfold ataReadAutoAt at h
  unfold readAutoRuns
  split at h
  · rename_i hsmall
    rw [if_pos hsmall]
    exact (ataRead28At_record B _ h).2
  · rename_i hsmall
    rw [if_neg hsmall]
    split at h
    · rename_i hsum
      rw [if_pos hsum]
      obtain ⟨io₁, hchunks, hrest⟩ := of_checked_eq_zero (fun _ hr => hr) h
      rw [ataRead48At_record B _ hrest, ataReadChunks_record B _ _ _ _ _ hchunks]
      rfl
    · rename_i hsum
      rw [if_neg hsum]
      exact ataRead48At_record B _ h

/-- The sum that the readers compare with `2 ^ 28` is cut to 64 bits. -/
theorem toNat_sum (lba : Word) (count : BitVec 16) :
    (lba + count.setWidth 64).toNat = (lba.toNat + count.toNat) % 2 ^ 64 := by
  have hcount := count.isLt
  rw [BitVec.toNat_add, BitVec.toNat_setWidth, Nat.mod_eq_of_lt (show count.toNat < 2 ^ 64 by omega)]

/-- From every state with `Inv` the readers return `0`, and they keep it. -/
structure ReadsFrom (base : BitVec 16) (drive : BitVec 8) (sz : BitVec 16) (Inv : Io σ → Prop) :
    Prop where
  read28 : ∀ (lba : BitVec 32) (count : BitVec 8) (buf : Word) (io : Io σ), lba.toNat < 2 ^ 28 →
    Inv io → ∃ io', ataRead28At B base lba count buf drive sz io = (0, io') ∧ Inv io'
  read48 : ∀ (lba : Word) (count : BitVec 16) (buf : Word) (io : Io σ),
    Inv io → ∃ io', ataRead48At B base lba count buf drive sz io = (0, io') ∧ Inv io'

section Reads

variable {B} {sz : BitVec 16} {Inv : Io σ → Prop} (hreads : ReadsFrom B base drive sz Inv)
  {lba : Word} {count : BitVec 16}

include hreads in
/-- The chunks below `2 ^ 28` are all read. -/
theorem ReadsFrom.chunks (hsum : lba.toNat + count.toNat < 2 ^ 28) :
    ∀ (n k : Nat) (io : Io σ), 255 * (k + n) < count.toNat + 255 → Inv io →
      ∃ io', ataReadChunks B base lba count buf drive sz n k io = (0, io') ∧ Inv io' := by
  intro n
  induction n with
  | zero => exact fun k io _ hinv => ⟨io, rfl, hinv⟩
  | succ n ih =>
    intro k io hk hinv
    have hlba : ((lba + BitVec.ofNat 64 (255 * k)).setWidth 32).toNat < 2 ^ 28 := by
      rw [BitVec.toNat_setWidth, BitVec.toNat_add, BitVec.toNat_ofNat]
      omega
    obtain ⟨io₁, hrun, hinv₁⟩ := hreads.read28 _
      (BitVec.ofNat 8 (min (count.toNat - 255 * k) 255))
      (buf + BitVec.ofNat 64 (255 * k * sz.toNat)) io hlba hinv
    obtain ⟨io', hrest, hinv'⟩ := ih (k + 1) io₁ (by omega) hinv₁
    refine ⟨io', ?_, hinv'⟩
    rw [ataReadChunks, checked_of_zero hrun]
    exact hrest

include hreads in
theorem ReadsFrom.auto (hinv : Inv io)
    (hsum : lba.toNat < 2 ^ 28 ∨ 2 ^ 28 ≤ (lba + count.setWidth 64).toNat) :
    ∃ io', ataReadAutoAt B base lba count buf drive sz io = (0, io') ∧ Inv io' := by
  have hcount := count.isLt
  unfold ataReadAutoAt
  by_cases hsmall : lba.toNat < 2 ^ 28 ∧ count.toNat ≤ 255
  · rw [if_pos hsmall]
    exact hreads.read28 _ _ _ _ (by rw [BitVec.toNat_setWidth]; omega) hinv
  · rw [if_neg hsmall]
    by_cases hchunks : (lba + count.setWidth 64).toNat < 2 ^ 28
    · have hnat : lba.toNat + count.toNat < 2 ^ 28 := by
        rw [toNat_sum] at hchunks hsum
        omega
      obtain ⟨io₁, hrun, hinv₁⟩ := hreads.chunks buf hnat ((count.toNat + 254) / 255) 0 io
        (by omega) hinv
      rw [if_pos hchunks, checked_of_zero hrun]
      exact hreads.read48 _ _ _ _ hinv₁
    · rw [if_neg hchunks]
      exact hreads.read48 _ _ _ _ hinv

end Reads

variable (base) in
/-- When the sum has wrapped, the first chunk is refused before any command. -/
theorem ataReadAutoAt_refused {lba : Word} {count : BitVec 16} (drive : BitVec 8) (sz : BitVec 16)
    (io : Io σ)
    (hlba : 2 ^ 28 ≤ lba.toNat) (hsum : (lba + count.setWidth 64).toNat < 2 ^ 28) :
    ataReadAutoAt B base lba count buf drive sz io = (-3, io) := by
  have hcount := count.isLt
  have hwrap := hsum
  rw [toNat_sum] at hwrap
  have hfirst : ataReadChunks B base lba count buf drive sz ((count.toNat + 254) / 255 - 1 + 1) 0 io =
      (-3, io) := by
    rw [ataReadChunks]
    refine checked_of_ne (if_pos ?_) (by decide)
    rw [BitVec.toNat_setWidth, BitVec.toNat_add, BitVec.toNat_ofNat]
    omega
  rw [Nat.sub_add_cancel (by omega)] at hfirst
  rw [ataReadAutoAt, if_neg (by omega), if_pos hsum]
  exact checked_of_ne hfirst (by decide)

/-- A flush starts no data command. -/
theorem ataFlush_record {command : BitVec 8} (hcmd : ∀ t : Taskfile, t.command command = none)
    {head : BitVec 8} {r : Int} (h : ataFlush B command base head io = (r, io')) :
    (ataRecord base io'.log).runs = (ataRecord base io.log).runs := by
  rw [ataFlush] at h
  rw [ataWaitReady_record B h, ataRecord_command, hcmd, ataStatusReads_record,
    ataRecord_outb _ _ _ (by decide)]
  rfl

theorem ataWriteSector28bit_record {lba : BitVec 32} {count : BitVec 8} {sz : BitVec 16}
    (h : ataWriteSector28bit B lba count buf drive sz io = (0, io')) :
    lba.toNat < 2 ^ 28 ∧ (ataRecord (ataGetIoAndHead drive).1 io'.log).runs =
      ⟨command28 true drive lba count, count.toNat * ((sz.toNat + 1) / 2), []⟩ ::
        (ataRecord (ataGetIoAndHead drive).1 io.log).runs := by
  rw [ataWriteSector28bit] at h
  split at h
  · exact absurd (Prod.mk.inj h).1 (by decide)
  · rename_i hlba
    have hlba : lba.toNat < 2 ^ 28 := not_le.mp hlba
    obtain ⟨io₁, hwait, hrest⟩ := of_checked_eq_zero (fun _ _ => by decide) h
    obtain ⟨io₂, hloop, hflush⟩ := of_checked_eq_zero (fun _ hr => hr) hrest
    have hruns := ataWriteLoop_record B buf sz.toNat count.toNat 0 0 _ io₂
      (ataIssue28_record B (ataGetIoAndHead drive).1 true drive hlba count io₁) hloop
    rw [Nat.zero_add, ataWaitReady_record B hwait] at hruns
    exact ⟨hlba, (ataFlush_record B (fun _ => rfl) hflush).trans hruns⟩

theorem ataWriteSector48bit_record {lba : Word} {count sz : BitVec 16}
    (h : ataWriteSector48bit B lba count buf drive sz io = (0, io')) :
    (ataRecord (ataGetIoAndHead drive).1 io'.log).runs =
      ⟨command48 true drive lba count, count.toNat * ((sz.toNat + 1) / 2), []⟩ ::
        (ataRecord (ataGetIoAndHead drive).1 io.log).runs := by
  rw [ataWriteSector48bit] at h
  obtain ⟨io₁, hwait, hrest⟩ := of_checked_eq_zero (fun _ _ => by decide) h
  obtain ⟨io₂, hloop, hflush⟩ := of_checked_eq_zero (fun _ hr => hr) hrest
  have hruns := ataWriteLoop_record B buf sz.toNat count.toNat 0 0 _ io₂
    (ataIssue48_record B (ataGetIoAndHead drive).1 true drive lba count io₁) hloop
  rw [Nat.zero_add, ataWaitReady_record B hwait] at hruns
  exact (ataFlush_record B (fun _ => rfl) hflush).trans hruns

end Device

end AncoreOS.Drivers
