import AncoreOS.Drivers.AtaReady
import AncoreOS.Drivers.AtaRecord

/-!
# Which drive is asked whether it is busy

Two drives share the ports of a channel, and the one that the drive/head register names
answers the reads (`channelBus`).  A command goes to this drive, so the drive that was
polled has to be the same.  `ata.c` polls first and selects afterwards: what it has seen
when it writes a command is the readiness of the drive that was selected before.

A 48-bit command has four status reads between the select and the command, which are
there for the delay; their answers are thrown away, but they are reads of the right drive.
`commands_polled_iff` says for every run of calls when all its commands have been preceded
by a read of their own drive with the busy bit clear.
-/

namespace AncoreOS.Drivers

open ByteMemory

/-! ### The channel -/

/-- An access to the registers of a channel, with the offset from the base port. -/
inductive RegAccess
  | inb (reg : BitVec 16)
  | outb (reg : BitVec 16) (v : BitVec 8)
  | inw (reg : BitVec 16)
  | outw (reg v : BitVec 16)

/-- One of the drives of a channel: what it shows, and how an access changes it.  The flag
says whether the drive is the selected one. -/
structure DriveSide (δ : Type*) where
  status : δ → BitVec 8
  show8 : δ → BitVec 16 → BitVec 8
  show16 : δ → BitVec 16 → BitVec 16
  step : δ → Bool → RegAccess → δ

structure Channel (δ : Type*) where
  slave : Bool
  drives : Bool → δ

section Channel

variable {δ : Type*} (D : DriveSide δ)

/-- Both drives notice an access. -/
def Channel.step (c : Channel δ) (a : RegAccess) : Channel δ :=
  { c with drives := fun slave => D.step (c.drives slave) (slave == c.slave) a }

/-- The selected drive. -/
def Channel.drive (c : Channel δ) : δ := c.drives c.slave

def channelBus (base : BitVec 16) : Bus (Channel δ) where
  inb c port := (if port - base = ataRegStatus then D.status c.drive else D.show8 c.drive (port - base),
    c.step D (.inb (port - base)))
  outb c port v :=
    let c' := c.step D (.outb (port - base) v)
    if port - base = ataRegDriveHead then { c' with slave := v.getLsbD 4 } else c'
  inw c port := (D.show16 c.drive (port - base), c.step D (.inw (port - base)))
  outw c port v := c.step D (.outw (port - base) v)

/-- The status is the selected drive's. -/
theorem channelBus_status (base : BitVec 16) (c : Channel δ) :
    ((channelBus D base).inb c (base + ataRegStatus)).1 = D.status c.drive := by
  simp [channelBus]

end Channel

/-! ### Commands and polls in a log -/

def IsDataCommand (v : BitVec 8) : Prop :=
  v = ataCmdReadSectors ∨ v = ataCmdReadSectorsExt ∨ v = ataCmdWriteSectors ∨
    v = ataCmdWriteSectorsExt

instance (v : BitVec 8) : Decidable (IsDataCommand v) := inferInstanceAs (Decidable (_ ∨ _))

/-- Since the latest drive select the status has been read with the busy bit clear. -/
def PolledSinceSelect (base : BitVec 16) : List IoEvent → Prop
  | [] => False
  | .outb port _ :: log => port - base ≠ ataRegDriveHead ∧ PolledSinceSelect base log
  | .inb port v :: log =>
    (port - base = ataRegStatus ∧ v &&& 0x80 = 0) ∨ PolledSinceSelect base log
  | _ :: log => PolledSinceSelect base log

/-- This was so at every data command. -/
def CommandsPolled (base : BitVec 16) : List IoEvent → Prop
  | [] => True
  | .outb port v :: log =>
    (port - base = ataRegCommand → IsDataCommand v → PolledSinceSelect base log) ∧
      CommandsPolled base log
  | _ :: log => CommandsPolled base log

/-- The drive that the latest drive select of a log has chosen. -/
def selectedBy (base : BitVec 16) : List IoEvent → Option Bool
  | [] => none
  | .outb port v :: log =>
    if port - base = ataRegDriveHead then some (v.getLsbD 4) else selectedBy base log
  | _ :: log => selectedBy base log

/-- The drive that answers is the one that the log says was chosen. -/
def AnswersAsSelected {δ : Type*} (base : BitVec 16) (io : Io (Channel δ)) : Prop :=
  ∀ slave, selectedBy base io.log = some slave → io.dev.slave = slave

section Selected

variable {δ : Type*} {D : DriveSide δ} {base : BitVec 16} {io : Io (Channel δ)}
  (h : AnswersAsSelected base io)

include h

theorem AnswersAsSelected.inb (port : BitVec 16) :
    AnswersAsSelected base (io.inb (channelBus D base) port).2 := h

theorem AnswersAsSelected.inw (port : BitVec 16) :
    AnswersAsSelected base (io.inw (channelBus D base) port).2 := h

theorem AnswersAsSelected.outw (port v : BitVec 16) :
    AnswersAsSelected base (io.outw (channelBus D base) port v) := h

theorem AnswersAsSelected.outb (port : BitVec 16) (v : BitVec 8) :
    AnswersAsSelected base (io.outb (channelBus D base) port v) := by
  intro slave hslave
  simp only [Io.outb, selectedBy, channelBus] at hslave ⊢
  split at hslave
  · next hport =>
    rw [if_pos hport]
    exact Option.some.inj hslave
  · next hport =>
    rw [if_neg hport]
    exact h slave hslave

end Selected

/-! ### What a call does to the log -/

section Log

variable {σ : Type*} (B : Bus σ) {base : BitVec 16}

theorem commandsPolled_outb (io : Io σ) {reg : BitVec 16} (v : BitVec 8)
    (hreg : reg ≠ ataRegCommand ∨ ¬IsDataCommand v) :
    CommandsPolled base (io.outb B (base + reg) v).log ↔ CommandsPolled base io.log := by
  simp only [Io.outb, CommandsPolled, port_sub]
  exact and_iff_right fun h hv => hreg.elim (fun hne => absurd h hne) (fun hnot => absurd hv hnot)

theorem commandsPolled_command (io : Io σ) {v : BitVec 8} (hv : IsDataCommand v) :
    CommandsPolled base (io.outb B (base + ataRegCommand) v).log ↔
      PolledSinceSelect base io.log ∧ CommandsPolled base io.log := by
  simp only [Io.outb, CommandsPolled, port_sub]
  exact and_congr_left' ⟨fun h => h trivial hv, fun h _ _ => h⟩

theorem polledSinceSelect_outb (io : Io σ) {reg : BitVec 16} (v : BitVec 8)
    (hreg : reg ≠ ataRegDriveHead) :
    PolledSinceSelect base (io.outb B (base + reg) v).log ↔ PolledSinceSelect base io.log := by
  simp only [Io.outb, PolledSinceSelect, port_sub]
  exact and_iff_right hreg

theorem not_polledSinceSelect_select (io : Io σ) (v : BitVec 8) :
    ¬PolledSinceSelect base (io.outb B (base + ataRegDriveHead) v).log := by
  simp [Io.outb, PolledSinceSelect]

theorem commandsPolled_wait (needsDrq : Bool) (io : Io σ) :
    CommandsPolled base (ataWaitReady B base needsDrq io).2.log = CommandsPolled base io.log :=
  ataWaitReady_log B (CommandsPolled base) (fun _ _ _ => rfl) rfl

theorem commandsPolled_statusReads : ∀ (n : Nat) (io : Io σ),
    CommandsPolled base (ataStatusReads B base n io).log = CommandsPolled base io.log := by
  intro n
  induction n with
  | zero => exact fun io => rfl
  | succ n ih => exact fun io => ih _

/-- Status reads of which one shows a drive that is not busy. -/
theorem polledSinceSelect_statusReads : ∀ (n : Nat) (io : Io σ),
    PolledSinceSelect base (ataStatusReads B base n io).log ↔
      (∃ j < n, statusAt B base io.dev j &&& 0x80 = 0) ∨ PolledSinceSelect base io.log := by
  intro n
  induction n with
  | zero => exact fun io => (or_iff_right (by simp)).symm
  | succ n ih =>
    intro io
    have hsplit : (∃ j < n + 1, statusAt B base io.dev j &&& 0x80 = 0) ↔
        statusAt B base io.dev 0 &&& 0x80 = 0 ∨
          ∃ j < n, statusAt B base (B.inb io.dev (base + ataRegStatus)).2 j &&& 0x80 = 0 := by
      constructor
      · rintro ⟨j, hj, h⟩
        cases j with
        | zero => exact Or.inl h
        | succ j => exact Or.inr ⟨j, Nat.lt_of_succ_lt_succ hj, h⟩
      · rintro (h | ⟨j, hj, h⟩)
        · exact ⟨0, Nat.succ_pos n, h⟩
        · exact ⟨j + 1, Nat.succ_lt_succ hj, h⟩
    rw [ataStatusReads, ih, hsplit, or_comm (a := statusAt B base io.dev 0 &&& 0x80 = 0), or_assoc]
    simp [Io.inb, PolledSinceSelect, statusAt]

theorem commandsPolled_readWords (buf : Word) (size s : Nat) : ∀ (n i : Nat) (io : Io σ),
    CommandsPolled base (ataReadWords B base buf size s n i io).log =
      CommandsPolled base io.log := by
  intro n
  induction n with
  | zero => exact fun i io => rfl
  | succ n ih => exact fun i io => ih _ _

theorem commandsPolled_writeWords (buf : Word) (size s : Nat) : ∀ (n i : Nat) (io : Io σ),
    CommandsPolled base (ataWriteWords B base buf size s n i io).log =
      CommandsPolled base io.log := by
  intro n
  induction n with
  | zero => exact fun i io => rfl
  | succ n ih => exact fun i io => ih _ _

/-- A wait, and whatever follows it when it succeeds. -/
theorem commandsPolled_checked {needsDrq : Bool} {error : Int → Int} {rest : Io σ → Int × Io σ}
    {io : Io σ} (hrest : ∀ io', CommandsPolled base (rest io').2.log = CommandsPolled base io'.log) :
    CommandsPolled base (checked (ataWaitReady B base needsDrq io) error rest).2.log =
      CommandsPolled base io.log := by
  unfold checked
  split
  · exact commandsPolled_wait B needsDrq io
  · rw [hrest, commandsPolled_wait]

theorem commandsPolled_readLoop (buf : Word) (size : Nat) : ∀ (n s : Nat) (io : Io σ),
    CommandsPolled base (ataReadLoop B base buf size n s io).2.log =
      CommandsPolled base io.log := by
  intro n
  induction n with
  | zero => exact fun s io => rfl
  | succ n ih =>
    intro s io
    rw [ataReadLoop]
    refine commandsPolled_checked B fun io' => ?_
    rw [ih, commandsPolled_readWords]

theorem commandsPolled_writeLoop (buf : Word) (size : Nat) : ∀ (n s : Nat) (io : Io σ),
    CommandsPolled base (ataWriteLoop B base buf size n s io).2.log =
      CommandsPolled base io.log := by
  intro n
  induction n with
  | zero => exact fun s io => rfl
  | succ n ih =>
    intro s io
    rw [ataWriteLoop]
    refine commandsPolled_checked B fun io' => ?_
    rw [ih, commandsPolled_writeWords]

theorem commandsPolled_flush {command : BitVec 8} (hcommand : ¬IsDataCommand command)
    (head : BitVec 8) (io : Io σ) :
    CommandsPolled base (ataFlush B command base head io).2.log = CommandsPolled base io.log := by
  rw [ataFlush, commandsPolled_wait, eq_iff_iff, commandsPolled_outb B _ _ (Or.inr hcommand),
    commandsPolled_statusReads, commandsPolled_outb B _ _ (Or.inl (by decide))]

/-- What the writers do after their command. -/
theorem commandsPolled_writeRest {command : BitVec 8} (hcommand : ¬IsDataCommand command)
    (buf : Word) (size n : Nat) (head : BitVec 8) (io : Io σ) :
    CommandsPolled base (checked (ataWriteLoop B base buf size n 0 io) (fun r => r) fun io =>
      ataFlush B command base head io).2.log = CommandsPolled base io.log := by
  rw [← commandsPolled_writeLoop B buf size n 0 io]
  unfold checked
  split
  · rfl
  · exact commandsPolled_flush B hcommand head _

/-! ### The commands -/

/-- A 28-bit command comes right after the select. -/
theorem not_commandsPolled_issue28 (head : BitVec 8) (lba : BitVec 32) (count : BitVec 8)
    {command : BitVec 8} (hcommand : IsDataCommand command) (io : Io σ) :
    ¬CommandsPolled base (ataIssue28 B base head lba count command io).log := by
  rw [ataIssue28, commandsPolled_command B _ hcommand,
    polledSinceSelect_outb B _ _ (show ataRegLbaHigh ≠ ataRegDriveHead by decide),
    polledSinceSelect_outb B _ _ (show ataRegLbaMid ≠ ataRegDriveHead by decide),
    polledSinceSelect_outb B _ _ (show ataRegLbaLow ≠ ataRegDriveHead by decide),
    polledSinceSelect_outb B _ _ (show ataRegSeccount ≠ ataRegDriveHead by decide)]
  exact fun h => not_polledSinceSelect_select B io head h.1

/-- A 48-bit command comes after the select and four status reads. -/
theorem commandsPolled_issue48 (head : BitVec 8) (lba : Word) (count : BitVec 16)
    {command : BitVec 8} (hcommand : IsDataCommand command) (io : Io σ) :
    CommandsPolled base (ataIssue48 B base head lba count command io).log ↔
      (∃ j < 4, statusAt B base (B.outb io.dev (base + ataRegDriveHead) head) j &&& 0x80 = 0) ∧
        CommandsPolled base io.log := by
  rw [ataIssue48, commandsPolled_command B _ hcommand, ataWrite48bitLba]
  simp only [polledSinceSelect_outb B _ _ (show ataRegLbaHigh ≠ ataRegDriveHead by decide),
    polledSinceSelect_outb B _ _ (show ataRegLbaMid ≠ ataRegDriveHead by decide),
    polledSinceSelect_outb B _ _ (show ataRegLbaLow ≠ ataRegDriveHead by decide),
    polledSinceSelect_outb B _ _ (show ataRegSeccount ≠ ataRegDriveHead by decide),
    commandsPolled_outb B _ _ (Or.inl (show ataRegLbaHigh ≠ ataRegCommand by decide)),
    commandsPolled_outb B _ _ (Or.inl (show ataRegLbaMid ≠ ataRegCommand by decide)),
    commandsPolled_outb B _ _ (Or.inl (show ataRegLbaLow ≠ ataRegCommand by decide)),
    commandsPolled_outb B _ _ (Or.inl (show ataRegSeccount ≠ ataRegCommand by decide))]
  rw [polledSinceSelect_statusReads, or_iff_left (not_polledSinceSelect_select B io head),
    commandsPolled_statusReads, commandsPolled_outb B _ _ (Or.inl (by decide))]
  rfl

/-! ### The calls -/

/-- The drive that is selected when a call begins does not get ready. -/
def NeverReady (base : BitVec 16) (d : σ) : Prop := ∀ k, ¬ReadyAt B base false d k

/-- If it does, the drive that the call then selects shows in one of the four reads after the
select that it is not busy. -/
def ShownIdle (base : BitVec 16) (head : BitVec 8) (d : σ) : Prop :=
  ∀ k, ReadyAt B base false d k →
    ∃ j < 4, statusAt B base (B.outb (polled B base d (k + 1)) (base + ataRegDriveHead) head) j &&&
      0x80 = 0

/-- A wait, a 28-bit command, and a rest that takes nothing back. -/
theorem commandsPolled_call28 {head : BitVec 8} {lba : BitVec 32} {count command : BitVec 8}
    (hcommand : IsDataCommand command) {error : Int → Int} {rest : Io σ → Int × Io σ}
    (hrest : ∀ io', CommandsPolled base (rest io').2.log = CommandsPolled base io'.log) (io : Io σ) :
    CommandsPolled base (checked (ataWaitReady B base false io) error fun io =>
        rest (ataIssue28 B base head lba count command io)).2.log ↔
      CommandsPolled base io.log ∧ NeverReady B base io.dev := by
  rcases @checked_ataWaitReady _ B base false error
    (fun io => rest (ataIssue28 B base head lba count command io)) io with
    ⟨k, hk, hrun⟩ | ⟨hnever, r, _, hrun⟩
  · rw [hrun, hrest]
    exact iff_of_false (not_commandsPolled_issue28 B head lba count hcommand _)
      fun h => h.2 k hk
  · rw [hrun]
    show CommandsPolled base (ataWaitReady B base false io).2.log ↔ _
    rw [commandsPolled_wait]
    exact (and_iff_left hnever).symm

theorem commandsPolled_call48 {head : BitVec 8} {lba : Word} {count : BitVec 16}
    {command : BitVec 8} (hcommand : IsDataCommand command) {error : Int → Int}
    {rest : Io σ → Int × Io σ}
    (hrest : ∀ io', CommandsPolled base (rest io').2.log = CommandsPolled base io'.log) (io : Io σ) :
    CommandsPolled base (checked (ataWaitReady B base false io) error fun io =>
        rest (ataIssue48 B base head lba count command io)).2.log ↔
      CommandsPolled base io.log ∧ ShownIdle B base head io.dev := by
  rcases @checked_ataWaitReady _ B base false error
    (fun io => rest (ataIssue48 B base head lba count command io)) io with
    ⟨k, hk, hrun⟩ | ⟨hnever, r, _, hrun⟩
  · have hlog : CommandsPolled base (afterPolls B base k io).log = CommandsPolled base io.log := by
      rw [← commandsPolled_wait B false io, ataWaitReady_of_readyAt hk]
    rw [hrun, hrest, commandsPolled_issue48 B head lba count hcommand, hlog, and_comm]
    refine and_congr_right fun _ => ⟨fun h k' hk' => ?_, fun h => h k hk⟩
    rw [hk'.2.unique hk.2]
    exact h
  · rw [hrun]
    show CommandsPolled base (ataWaitReady B base false io).2.log ↔ _
    rw [commandsPolled_wait]
    exact (and_iff_left fun k hk => absurd hk (hnever k)).symm

variable (buf : Word) (drive : BitVec 8) (size : BitVec 16)

theorem read28At_polled_iff (lba : BitVec 32) (count : BitVec 8) (io : Io σ) :
    CommandsPolled base (ataRead28At B base lba count buf drive size io).2.log ↔
      CommandsPolled base io.log ∧ (2 ^ 28 ≤ lba.toNat ∨ NeverReady B base io.dev) := by
  unfold ataRead28At
  by_cases hlba : lba.toNat ≥ 2 ^ 28
  · rw [if_pos hlba]
    exact (and_iff_left (Or.inl hlba)).symm
  · rw [if_neg hlba, or_iff_right hlba]
    exact commandsPolled_call28 B (Or.inl rfl) (fun io' => commandsPolled_readLoop B buf _ _ 0 io') io

theorem read48At_polled_iff (lba : Word) (count : BitVec 16) (io : Io σ) :
    CommandsPolled base (ataRead48At B base lba count buf drive size io).2.log ↔
      CommandsPolled base io.log ∧
        ShownIdle B base ((ataGetIoAndHead drive).2 ||| 0x40) io.dev :=
  commandsPolled_call48 B (Or.inr (Or.inl rfl))
    (fun io' => commandsPolled_readLoop B buf _ _ 0 io') io

theorem write28_polled_iff (lba : BitVec 32) (count : BitVec 8) (io : Io σ)
    (hbase : (ataGetIoAndHead drive).1 = base) :
    CommandsPolled base (ataWriteSector28bit B lba count buf drive size io).2.log ↔
      CommandsPolled base io.log ∧ (2 ^ 28 ≤ lba.toNat ∨ NeverReady B base io.dev) := by
  subst hbase
  unfold ataWriteSector28bit
  by_cases hlba : lba.toNat ≥ 2 ^ 28
  · rw [if_pos hlba]
    exact (and_iff_left (Or.inl hlba)).symm
  · rw [if_neg hlba, or_iff_right hlba]
    exact commandsPolled_call28 B (Or.inr (Or.inr (Or.inl rfl)))
      (fun io' => commandsPolled_writeRest B (by decide) buf _ _ _ io') io

theorem write48_polled_iff (lba : Word) (count : BitVec 16) (io : Io σ)
    (hbase : (ataGetIoAndHead drive).1 = base) :
    CommandsPolled base (ataWriteSector48bit B lba count buf drive size io).2.log ↔
      CommandsPolled base io.log ∧
        ShownIdle B base ((ataGetIoAndHead drive).2 ||| 0x40) io.dev := by
  subst hbase
  exact commandsPolled_call48 B (Or.inr (Or.inr (Or.inr rfl)))
    (fun io' => commandsPolled_writeRest B (by decide) buf _ _ _ io') io

/-- Without a command the call returns an error. -/
theorem read28At_ne_zero {lba : BitVec 32} {io : Io σ} (count : BitVec 8)
    (h : 2 ^ 28 ≤ lba.toNat ∨ NeverReady B base io.dev) :
    (ataRead28At B base lba count buf drive size io).1 ≠ 0 := by
  unfold ataRead28At
  by_cases hlba : lba.toNat ≥ 2 ^ 28
  · rw [if_pos hlba]
    exact show (-3 : Int) ≠ 0 by decide
  · rw [if_neg hlba]
    have hr : (ataWaitReady B base false io).1 ≠ 0 := fun hzero =>
      (ataWaitReady_eq_zero_iff.mp hzero).elim (h.resolve_left hlba)
    rw [checked_of_ne rfl hr]
    exact show (-1 : Int) ≠ 0 by decide

/-- A 28-bit read, and a rest that takes nothing back. -/
theorem checked_read28At_polled_iff {lba : BitVec 32} {count : BitVec 8} {rest : Io σ → Int × Io σ}
    (hrest : ∀ io', CommandsPolled base (rest io').2.log → CommandsPolled base io'.log)
    (io : Io σ) :
    CommandsPolled base (checked (ataRead28At B base lba count buf drive size io)
        (fun res => res) rest).2.log ↔
      CommandsPolled base io.log ∧ (2 ^ 28 ≤ lba.toNat ∨ NeverReady B base io.dev) := by
  rw [← read28At_polled_iff B buf drive size lba count io]
  constructor
  · intro h
    unfold checked at h
    split at h
    · exact h
    · exact hrest _ h
  · intro h
    have hnone := ((read28At_polled_iff B buf drive size lba count io).mp h).2
    rw [checked_of_ne rfl (read28At_ne_zero B buf drive size count hnone)]
    exact h

theorem commandsPolled_of_chunks {lba : Word} {count : BitVec 16} : ∀ (n k : Nat) (io : Io σ),
    CommandsPolled base (ataReadChunks B base lba count buf drive size n k io).2.log →
      CommandsPolled base io.log := by
  intro n
  induction n with
  | zero => exact fun k io h => h
  | succ n ih =>
    intro k io h
    rw [ataReadChunks] at h
    exact ((checked_read28At_polled_iff B _ drive size (fun io' => ih (k + 1) io') io).mp h).1

/-- The first command of `ata_read_sector_auto` is a 48-bit one. -/
def ReadsExt (lba : Word) (count : BitVec 16) : Prop :=
  ¬(lba.toNat < 2 ^ 28 ∧ count.toNat ≤ 255) ∧ ¬(lba + count.setWidth 64).toNat < 2 ^ 28

instance (lba : Word) (count : BitVec 16) : Decidable (ReadsExt lba count) :=
  inferInstanceAs (Decidable (_ ∧ _))

theorem readAutoAt_polled_iff (lba : Word) (count : BitVec 16) (io : Io σ) :
    CommandsPolled base (ataReadAutoAt B base lba count buf drive size io).2.log ↔
      CommandsPolled base io.log ∧
        if ReadsExt lba count then ShownIdle B base ((ataGetIoAndHead drive).2 ||| 0x40) io.dev
        else 2 ^ 28 ≤ (lba.setWidth 32).toNat ∨ NeverReady B base io.dev := by
  unfold ataReadAutoAt
  by_cases hsmall : lba.toNat < 2 ^ 28 ∧ count.toNat ≤ 255
  · rw [if_pos hsmall, if_neg (show ¬ReadsExt lba count from fun h => h.1 hsmall)]
    exact read28At_polled_iff B buf drive size _ _ io
  by_cases hsum : (lba + count.setWidth 64).toNat < 2 ^ 28
  · rw [if_neg hsmall, if_pos hsum, if_neg (show ¬ReadsExt lba count from fun h => h.2 hsum)]
    -- there is a first chunk, and it starts at the address itself
    have hchunks : ∃ n, (count.toNat + 254) / 255 = n + 1 := by
      refine Nat.exists_eq_succ_of_ne_zero fun hzero => hsmall ⟨?_, by omega⟩
      have hcount : count = 0 := BitVec.eq_of_toNat_eq (show count.toNat = 0 by omega)
      rw [hcount] at hsum
      simpa using hsum
    obtain ⟨n, hn⟩ := hchunks
    rw [hn, ataReadChunks, checked_assoc]
    have hrest : ∀ io' : Io σ, CommandsPolled base (checked
        (ataReadChunks B base lba count buf drive size n (0 + 1) io') (fun res => res)
        fun io => ataRead48At B base lba count buf drive size io).2.log →
          CommandsPolled base io'.log := by
      intro io' h
      have hchunks : CommandsPolled base
          (ataReadChunks B base lba count buf drive size n (0 + 1) io').2.log := by
        unfold checked at h
        split at h
        · exact h
        · exact ((read48At_polled_iff B buf drive size lba count _).mp h).1
      exact commandsPolled_of_chunks B buf drive size n (0 + 1) io' hchunks
    refine (checked_read28At_polled_iff B _ drive size hrest io).trans ?_
    rw [show lba + BitVec.ofNat 64 (255 * 0) = lba by simp]
  · rw [if_neg hsmall, if_neg hsum, if_pos (show ReadsExt lba count from ⟨hsmall, hsum⟩)]
    exact read48At_polled_iff B buf drive size lba count io

end Log

end AncoreOS.Drivers
