import AncoreOS.Drivers.AtaReady
import AncoreOS.Drivers.DriveRead

/-!
# Data phases of a packet command

Before a PACKET command the driver writes the largest number of bytes of a data phase into
the registers for the middle and the high byte of the address.  A phase begins with the
status read on which the driver goes on, and then it reads a whole sector, whatever size
the drive has given for one.  `atapi_phases_iff` says for which counts and sizes the phases
stay within what has been written, and the sectors are stored whole and in a row.
-/

namespace AncoreOS.Drivers

open ByteMemory

/-! ### Phases in a log -/

/-- The bytes read from the data port since the latest status read. -/
def phaseBytes (base : BitVec 16) : List IoEvent → Nat
  | [] => 0
  | .inb port _ :: log => if port - base = ataRegStatus then 0 else phaseBytes base log
  | .inw port _ :: log =>
    if port - base = ataRegData then phaseBytes base log + 2 else phaseBytes base log
  | _ :: log => phaseBytes base log

/-- All bytes read from the data port. -/
def dataBytes (base : BitVec 16) : List IoEvent → Nat
  | [] => 0
  | .inw port _ :: log =>
    if port - base = ataRegData then dataBytes base log + 2 else dataBytes base log
  | _ :: log => dataBytes base log

/-- What was written to a register last. -/
def lastWritten (base reg : BitVec 16) : List IoEvent → BitVec 8
  | [] => 0
  | .outb port v :: log => if port - base = reg then v else lastWritten base reg log
  | _ :: log => lastWritten base reg log

/-- The byte count limit in the registers. -/
def byteLimit (base : BitVec 16) (log : List IoEvent) : Nat :=
  (lastWritten base ataRegLbaMid log).toNat + 256 * (lastWritten base ataRegLbaHigh log).toNat

/-- No read from the data port has gone beyond the limit. -/
def PhasesWithin (base : BitVec 16) : List IoEvent → Prop
  | [] => True
  | .inw port _ :: log =>
    (port - base = ataRegData → phaseBytes base log + 2 ≤ byteLimit base log) ∧
      PhasesWithin base log
  | _ :: log => PhasesWithin base log

/-- The addresses filled after PACKET commands, in order. -/
def storedAt (base : BitVec 16) (log : List IoEvent) : List Word :=
  (packetRuns base log).reverse.flatMap fun r => r.fills.flatMap fun f => [f.1, f.2]

/-- Whatever the device does, the phases of a call stay within the limit, and when it returns
`0` it has read `total` bytes and has stored them in a row. -/
def ReadsInPhases (base : BitVec 16) (buffer : Word) (total : Nat)
    (call : ∀ σ : Type, Bus σ → Io σ → Int × Io σ) : Prop :=
  ∀ (σ : Type) (B : Bus σ) (io io' : Io σ) (r : Int), call σ B { io with log := [] } = (r, io') →
    PhasesWithin base io'.log ∧
      (r = 0 → dataBytes base io'.log = total ∧
        storedAt base io'.log = (List.range total).map fun n => buffer + BitVec.ofNat 64 n)

section Phases

variable {σ : Type*} (B : Bus σ) {base : BitVec 16} {io io' : Io σ}

/-! ### What does not read data -/

section Invisible

variable {α : Type*} (f : List IoEvent → α)

theorem atapiWaitPacket_log (hf : ∀ port v log, f (.inb port v :: log) = f log) (io : Io σ) :
    f (atapiWaitPacket B base io).2.log = f io.log := by
  have hlog : f (ataWaitReady B base true io).2.log = f io.log := ataWaitReady_log B f hf rfl
  unfold atapiWaitPacket
  dsimp only
  split
  · exact (hf _ _ _).trans ((hf _ _ _).trans hlog)
  · exact hlog

theorem outsw_log (hf : ∀ port v log, f (.outw port v :: log) = f log) (port : BitVec 16)
    (bytes : List (BitVec 8)) : ∀ io : Io σ, f (outsw B port bytes io).log = f io.log := by
  induction bytes using packetWords.induct with
  | case1 lo hi bytes ih =>
    intro io
    rw [outsw, ih]
    exact hf _ _ _
  | case2 bytes hshort =>
    intro io
    rw [outsw]
    exact hshort

end Invisible

theorem lastWritten_outb (reg reg' : BitVec 16) (v : BitVec 8) (io : Io σ) :
    lastWritten base reg (io.outb B (base + reg') v).log =
      if reg' = reg then v else lastWritten base reg io.log := by
  simp only [Io.outb, lastWritten, port_sub]

/-- The driver programs 2048 bytes. -/
theorem byteLimit_issue (io : Io σ) : byteLimit base (atapiIssue B base io).log = 2048 := by
  simp only [byteLimit, atapiIssue, lastWritten_outb]
  rfl

/-- The state in which the packet has been sent. -/
def atapiSent (base : BitVec 16) (bytes : List (BitVec 8)) (io : Io σ) : Io σ :=
  outsw B (base + ataRegData) bytes (atapiWaitPacket B base (atapiIssue B base io)).2

theorem byteLimit_sent (bytes : List (BitVec 8)) (io : Io σ) :
    byteLimit base (atapiSent B base bytes io).log = 2048 := by
  rw [atapiSent, outsw_log B (byteLimit base) (fun _ _ _ => rfl),
    atapiWaitPacket_log B (byteLimit base) (fun _ _ _ => rfl), byteLimit_issue]

theorem dataBytes_sent (bytes : List (BitVec 8)) (io : Io σ) :
    dataBytes base (atapiSent B base bytes io).log = dataBytes base io.log := by
  rw [atapiSent, outsw_log B (dataBytes base) (fun _ _ _ => rfl),
    atapiWaitPacket_log B (dataBytes base) (fun _ _ _ => rfl)]
  rfl

theorem phasesWithin_sent (bytes : List (BitVec 8)) (io : Io σ) :
    PhasesWithin base (atapiSent B base bytes io).log = PhasesWithin base io.log := by
  rw [atapiSent, outsw_log B (PhasesWithin base) (fun _ _ _ => rfl),
    atapiWaitPacket_log B (PhasesWithin base) (fun _ _ _ => rfl)]
  rfl

theorem phasesWithin_wait (needsDrq : Bool) (io : Io σ) :
    PhasesWithin base (ataWaitReady B base needsDrq io).2.log = PhasesWithin base io.log :=
  ataWaitReady_log B (PhasesWithin base) (fun _ _ _ => rfl) rfl

/-- A phase is empty when the driver goes on. -/
theorem phaseBytes_of_wait {needsDrq : Bool} (h : ataWaitReady B base needsDrq io = (0, io')) :
    phaseBytes base io'.log = 0 := by
  obtain ⟨k, hk⟩ := ataWaitReady_eq_zero_iff.mp (show (ataWaitReady B base needsDrq io).1 = 0 by rw [h])
  rw [ataWaitReady_of_readyAt hk] at h
  rw [← (Prod.mk.inj h).2]
  simp [afterPolls, List.range_succ, phaseBytes]

/-! ### The words of a phase -/

variable (buf : Word) (half : Nat)

theorem dataBytes_words (s : Nat) : ∀ (n i : Nat) (io : Io σ),
    dataBytes base (atapiReadWords B base buf half s n i io).log = dataBytes base io.log + 2 * n := by
  intro n
  induction n with
  | zero => exact fun i io => rfl
  | succ n ih =>
    intro i io
    rw [atapiReadWords, ih]
    simp only [Io.fill, Io.inw, dataBytes, port_sub, if_true]
    omega

theorem byteLimit_words (s : Nat) : ∀ (n i : Nat) (io : Io σ),
    byteLimit base (atapiReadWords B base buf half s n i io).log = byteLimit base io.log := by
  intro n
  induction n with
  | zero => exact fun i io => rfl
  | succ n ih => exact fun i io => ih _ _

theorem phasesWithin_words (s : Nat) : ∀ (n i : Nat) (io : Io σ),
    PhasesWithin base (atapiReadWords B base buf half s n i io).log ↔
      PhasesWithin base io.log ∧ (n = 0 ∨ phaseBytes base io.log + 2 * n ≤ byteLimit base io.log) := by
  intro n
  induction n with
  | zero => exact fun i io => (and_iff_left (Or.inl rfl)).symm
  | succ n ih =>
    intro i io
    rw [atapiReadWords, ih]
    have hlimit : ∀ lo hi v, byteLimit base (.fill lo hi :: .inw (base + ataRegData) v :: io.log) =
        byteLimit base io.log := fun _ _ _ => rfl
    simp only [Io.fill, Io.inw, PhasesWithin, phaseBytes, port_sub, if_true, hlimit]
    grind

/-! ### The sectors -/

theorem phasesWithin_loop : ∀ (n s : Nat) (io : Io σ), 2 * half ≤ byteLimit base io.log →
    PhasesWithin base io.log → PhasesWithin base (atapiReadLoop B base buf half n s io).2.log := by
  intro n
  induction n with
  | zero => exact fun s io _ h => h
  | succ n ih =>
    intro s io hlimit h
    rcases hwait : ataWaitReady B base true io with ⟨r, io₁⟩
    rw [← ataWaitReady_log B (PhasesWithin base) (fun _ _ _ => rfl) hwait] at h
    rw [← ataWaitReady_log B (byteLimit base) (fun _ _ _ => rfl) hwait] at hlimit
    rw [atapiReadLoop, hwait]
    by_cases hr : r = 0
    · subst hr
      rw [checked_of_zero rfl]
      refine ih (s + 1) _ (by rwa [byteLimit_words]) ((phasesWithin_words B buf half s half 0 io₁).mpr ?_)
      rw [phaseBytes_of_wait B hwait, Nat.zero_add]
      exact ⟨h, Or.inr hlimit⟩
    · rw [checked_of_ne rfl hr]
      exact h

/-- Later reads take nothing back. -/
theorem phasesWithin_of_loop : ∀ (n s : Nat) (io : Io σ),
    PhasesWithin base (atapiReadLoop B base buf half n s io).2.log → PhasesWithin base io.log := by
  intro n
  induction n with
  | zero => exact fun s io h => h
  | succ n ih =>
    intro s io h
    rw [atapiReadLoop] at h
    rw [← phasesWithin_wait B true io]
    unfold checked at h
    split at h
    · exact h
    · exact ((phasesWithin_words B buf half s half 0 _).mp (ih (s + 1) _ h)).1

theorem le_byteLimit_of_loop {n s : Nat} (h : atapiReadLoop B base buf half (n + 1) s io = (0, io'))
    (hphases : PhasesWithin base io'.log) : 2 * half ≤ byteLimit base io.log := by
  rw [atapiReadLoop] at h
  obtain ⟨io₁, hwait, hrest⟩ := of_checked_eq_zero (fun _ _ => by decide) h
  have hfirst := phasesWithin_of_loop B buf half n (s + 1) _ (by rw [hrest]; exact hphases)
  have hwords := ((phasesWithin_words B buf half s half 0 io₁).mp hfirst).2
  rw [phaseBytes_of_wait B hwait, ataWaitReady_log B (byteLimit base) (fun _ _ _ => rfl) hwait] at hwords
  omega

theorem dataBytes_loop : ∀ (n s : Nat) (io io' : Io σ),
    atapiReadLoop B base buf half n s io = (0, io') →
      dataBytes base io'.log = dataBytes base io.log + 2 * (n * half) := by
  intro n
  induction n with
  | zero =>
    intro s io io' h
    rw [← (Prod.mk.inj h).2, Nat.zero_mul]
    rfl
  | succ n ih =>
    intro s io io' h
    rw [atapiReadLoop] at h
    obtain ⟨io₁, hwait, hrest⟩ := of_checked_eq_zero (fun _ _ => by decide) h
    rw [ih _ _ io' hrest, dataBytes_words,
      ataWaitReady_log B (dataBytes base) (fun _ _ _ => rfl) hwait, Nat.succ_mul n half]
    omega

/-! ### The calls -/

variable {lba : BitVec 32} {count : BitVec 16} {drive : BitVec 8} {size : BitVec 32}

theorem phasesWithin_readAt (hsize : count = 0 ∨ size.toNat ≤ 2048)
    (h : PhasesWithin base io.log) :
    PhasesWithin base (atapiReadAt B base lba count buf drive size io).2.log := by
  have hready : PhasesWithin base (ataWaitReady B base false
      (io.outb B (base + ataRegDriveHead) (ataGetIoAndHead drive).2)).2.log := by
    rw [phasesWithin_wait]
    exact h
  have hsent := (phasesWithin_sent B (buildRead10AtapiCmd lba count) _).mpr hready
  rw [atapiReadAt]
  apply checked_snd (P := fun io : Io σ => PhasesWithin base io.log) hready
  apply checked_snd (P := fun io : Io σ => PhasesWithin base io.log)
  · rw [atapiWaitPacket_log B (PhasesWithin base) (fun _ _ _ => rfl)]
    exact hready
  · rcases hsize with rfl | hsize
    · exact hsent
    · refine phasesWithin_loop B buf _ _ 0 _ ?_ hsent
      refine le_trans ?_ (byteLimit_sent B (buildRead10AtapiCmd lba count) _).ge
      omega

theorem loop_of_readAt (h : atapiReadAt B base lba count buf drive size io = (0, io')) :
    ∃ io₁, dataBytes base io₁.log = dataBytes base io.log ∧ byteLimit base io₁.log = 2048 ∧
      atapiReadLoop B base buf (size.toNat / 2) count.toNat 0 io₁ = (0, io') := by
  rw [atapiReadAt] at h
  obtain ⟨io₁, hwait, hrest⟩ := of_checked_eq_zero (fun _ _ => by decide) h
  obtain ⟨io₂, hpacket, hloop⟩ := of_checked_eq_zero (fun _ _ => by decide) hrest
  have hio₂ : (atapiWaitPacket B base (atapiIssue B base io₁)).2 = io₂ := by rw [hpacket]
  rw [← hio₂] at hloop
  refine ⟨_, ?_, byteLimit_sent B (buildRead10AtapiCmd lba count) io₁, hloop⟩
  rw [dataBytes_sent, ataWaitReady_log B (dataBytes base) (fun _ _ _ => rfl) hwait]
  rfl

end Phases

/-- Words in a row are bytes in a row. -/
theorem atapiFills_bytes (buf : Word) : ∀ n, n ≤ 2 ^ 32 →
    (atapiFills buf 0 n).flatMap (fun f => [f.1, f.2]) =
      (List.range (2 * n)).map fun m => buf + BitVec.ofNat 64 m := by
  intro n
  induction n with
  | zero => exact fun _ => rfl
  | succ n ih =>
    intro hn
    have hone : atapiFills buf (0 + n) 1 = [(buf + BitVec.ofNat 64 (2 * n), buf + BitVec.ofNat 64 (2 * n + 1))] := by
      simp only [atapiFills, List.range_one, List.map_singleton, Nat.zero_add, Nat.add_zero]
      rw [wordIndex_eq (by omega), BitVec.ofNat_add, BitVec.add_assoc]
      rfl
    rw [atapiFills_add, List.flatMap_append, ih (by omega), hone, Nat.mul_succ, List.range_succ,
      List.range_succ, List.map_append, List.map_append, List.append_assoc]
    rfl

theorem storedAt_readAt {σ : Type*} {B : Bus σ} {base : BitVec 16} {buf : Word} {lba : BitVec 32}
    {count : BitVec 16} {drive : BitVec 8} {size : BitVec 32} {io io' : Io σ}
    (h : atapiReadAt B base lba count buf drive size { io with log := [] } = (0, io'))
    (hsmall : count.toNat * (size.toNat / 2) ≤ 2 ^ 32) :
    storedAt base io'.log = (List.range (2 * (count.toNat * (size.toNat / 2)))).map
      fun n => buf + BitVec.ofNat 64 n := by
  rw [storedAt, atapiReadAt_packetRuns B buf h, show packetRuns base [] = [] from rfl,
    List.reverse_singleton, List.flatMap_singleton, atapiFills_bytes buf _ hsmall]

/-- **The counts and sizes for which a packet reader keeps to its phases.** -/
theorem readAt_phases_iff (base : BitVec 16) (buf : Word) (lba : BitVec 32) (count : BitVec 16)
    (drive : BitVec 8) (size : BitVec 32) :
    ReadsInPhases base buf (count.toNat * size.toNat)
        (fun _ B io => atapiReadAt B base lba count buf drive size io) ↔
      count = 0 ∨ (size.toNat % 2 = 0 ∧ size.toNat ≤ 2048) := by
  constructor
  · intro h
    by_contra hnot
    obtain ⟨hcount, hsize⟩ := not_or.mp hnot
    have hcount : count.toNat ≠ 0 := fun hzero => hcount (BitVec.eq_of_toNat_eq hzero)
    obtain ⟨io', hrun⟩ := atapiReadAt_ready base lba count buf drive size { emptyIo with log := [] }
    obtain ⟨hphases, htotal⟩ := h Unit readyBus emptyIo io' 0 hrun
    obtain ⟨io₁, hdata, hlimit, hloop⟩ := loop_of_readAt readyBus buf hrun
    -- the whole size is read, so it is even
    have hbytes := dataBytes_loop readyBus buf _ _ _ _ io' hloop
    rw [(htotal rfl).1, hdata, show dataBytes base [] = 0 from rfl, Nat.zero_add,
      Nat.mul_left_comm] at hbytes
    have heven : size.toNat = 2 * (size.toNat / 2) :=
      Nat.eq_of_mul_eq_mul_left (Nat.pos_of_ne_zero hcount) hbytes
    obtain ⟨n, hn⟩ := Nat.exists_eq_succ_of_ne_zero hcount
    rw [hn] at hloop
    have hle := le_byteLimit_of_loop readyBus buf _ hloop hphases
    exact hsize ⟨by omega, by omega⟩
  · intro hcond σ B io io' r hrun
    dsimp only at hrun
    have hcount := count.isLt
    have hwords : count.toNat * size.toNat = 2 * (count.toNat * (size.toNat / 2)) ∧
        count.toNat * (size.toNat / 2) ≤ 2 ^ 32 := by
      rcases hcond with rfl | ⟨heven, hle⟩
      · exact ⟨by simp, by simp⟩
      · have hmul : count.toNat * (size.toNat / 2) ≤ 65535 * 1024 :=
          Nat.mul_le_mul (by omega) (by omega)
        rw [Nat.mul_left_comm, show 2 * (size.toNat / 2) = size.toNat by omega]
        exact ⟨rfl, by omega⟩
    constructor
    · have hphases : PhasesWithin base
          (atapiReadAt B base lba count buf drive size { io with log := [] }).2.log :=
        phasesWithin_readAt B buf (hcond.imp_right And.right) trivial
      rwa [hrun] at hphases
    · rintro rfl
      obtain ⟨io₁, hdata, -, hloop⟩ := loop_of_readAt B buf hrun
      rw [dataBytes_loop B buf _ _ _ _ io' hloop, hdata, storedAt_readAt hrun hwords.2, hwords.1]
      exact ⟨Nat.zero_add _, rfl⟩

/-- **Both packet readers keep to their phases for the same counts and sizes.** -/
theorem atapi_phases_iff (basePmio : BitVec 16) (buf : Word) (lba : BitVec 32) (count : BitVec 16)
    (drive : BitVec 8) (size : BitVec 32) :
    (ReadsInPhases (ataGetIoAndHead drive).1 buf (count.toNat * size.toNat)
        (fun _ B io => atapiReadSector B lba count buf drive size io) ↔
      count = 0 ∨ (size.toNat % 2 = 0 ∧ size.toNat ≤ 2048)) ∧
    (ReadsInPhases basePmio buf (count.toNat * size.toNat)
        (fun _ B io => atapiReadSectorManual B lba count buf drive basePmio size io) ↔
      count = 0 ∨ (size.toNat % 2 = 0 ∧ size.toNat ≤ 2048)) := by
  refine ⟨readAt_phases_iff _ buf lba count drive size, ?_⟩
  simp only [atapiReadSectorManual_eq]
  exact readAt_phases_iff basePmio buf lba count drive size

/-- Sectors of 4096 bytes are read in one phase each. -/
theorem exampleSize_not_in_phases :
    ¬ReadsInPhases (ataGetIoAndHead 0).1 0x1000 (1 * 4096)
      (fun _ B io => atapiReadSector B 0 1 0x1000 0 4096 io) := by
  intro h
  have hcond := (readAt_phases_iff (ataGetIoAndHead 0).1 0x1000 0 1 0 4096).mp h
  exact absurd hcond (by decide)

end AncoreOS.Drivers
