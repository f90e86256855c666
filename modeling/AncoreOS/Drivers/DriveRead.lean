import AncoreOS.Drivers.SectorMoves

/-!
# When a read is complete

`DriveReadComplete` says of a request that, whatever the device does, `drive_read`
returns `0` only when every word of the request has been moved to its place, in order.
`drive_read_complete_iff` gives the requests for which this holds.

The positive half follows from what the readers record (`ataReadAutoAt_record`,
`atapiReadAt_packetRuns`).  For the other half there is one device that is always ready
(`readyBus`), on which the port drivers return `0`, and one AHCI port that never finishes a
command (`hungPort`), on which the AHCI drivers do: the last word of the request has then
not been moved.
-/

namespace AncoreOS.Drivers

open ByteMemory

section Words

variable {lba size count : Nat} {buf : Word}

end Words

/-! ### ATA drives -/

section Ata

variable {σ : Type*} {B : Bus σ} {base : BitVec 16} {lba : Word} {count size : BitVec 16} {buf : Word}
  {drive : BitVec 8} {io io' : Io σ}

section Last

variable {N S : Nat} (hN : count.toNat = N % 2 ^ 16) (hS : size.toNat = S % 2 ^ 16) (hcount : 1 ≤ N)
  (hpos : 0 < (S + 1) / 2)

end Last

end Ata

/-! ### Packet devices -/

section Packet

variable {σ : Type*} {B : Bus σ} {base : BitVec 16} {lba : BitVec 32} {count : BitVec 16}
  {size : BitVec 32} {buf : Word} {drive : BitVec 8} {io io' : Io σ}

theorem wordIndex_eq {k : Nat} (hk : k < 2 ^ 32) :
    wordIndex buf k = buf + BitVec.ofNat 64 (2 * k) := by
  rw [wordIndex]
  congr 1
  apply BitVec.eq_of_toNat_eq
  rw [BitVec.toNat_mul, BitVec.toNat_setWidth, BitVec.toNat_ofNat, BitVec.toNat_ofNat,
    show (2 : BitVec 64).toNat = 2 from rfl]
  omega

end Packet

/-! ### A device that is always ready -/

def readyBus : Bus Unit where
  inb _ _ := (0x08, ())
  outb _ _ _ := ()
  inw _ _ := (0, ())
  outw _ _ _ := ()

section Ready

variable (base : BitVec 16)

theorem ataWaitReady_ready (needsDrq : Bool) (io : Io Unit) :
    ∃ io', ataWaitReady readyBus base needsDrq io = (0, io') := by
  have hdrq : needsDrq = false ∨ (0x08 : BitVec 8) &&& 0x08 ≠ 0 := Or.inr (by decide)
  rw [ataWaitReady, show 100000 = 99999 + 1 from rfl, ataPoll]
  refine ⟨_, (if_neg ?_).trans (if_pos ⟨?_, hdrq⟩)⟩
  · show ¬((0x08 : BitVec 8) &&& 0x01 ≠ 0)
    decide
  · show (0x08 : BitVec 8) &&& 0x80 = 0
    decide

theorem atapiReadLoop_ready (buf : Word) (half : Nat) : ∀ (n s : Nat) (io : Io Unit),
    ∃ io', atapiReadLoop readyBus base buf half n s io = (0, io') := by
  intro n
  induction n with
  | zero => exact fun s io => ⟨io, rfl⟩
  | succ n ih =>
    intro s io
    obtain ⟨io₁, hwait⟩ := ataWaitReady_ready base true io
    rw [atapiReadLoop, checked_of_zero hwait]
    exact ih _ _

theorem atapiReadAt_ready (lba : BitVec 32) (count : BitVec 16) (buf : Word) (drive : BitVec 8)
    (size : BitVec 32) (io : Io Unit) :
    ∃ io', atapiReadAt readyBus base lba count buf drive size io = (0, io') := by
  rw [atapiReadAt]
  obtain ⟨io₁, hwait⟩ := ataWaitReady_ready base false
    (io.outb readyBus (base + ataRegDriveHead) (ataGetIoAndHead drive).2)
  rw [checked_of_zero hwait]
  obtain ⟨io₂, hdrq⟩ := ataWaitReady_ready base true (atapiIssue readyBus base io₁)
  have hpacket : atapiWaitPacket readyBus base (atapiIssue readyBus base io₁) = (0, io₂) := by
    rw [atapiWaitPacket, hdrq]
    exact if_neg (not_not.mpr rfl)
  rw [checked_of_zero hpacket]
  exact atapiReadLoop_ready base buf _ _ 0 _

end Ready

/-! ### A port that never finishes a command -/

/-- The command stays issued, and no error is shown. -/
def hungPort (portBase : Word) : Mmio Unit where
  readl _ mem a := (if a = portBase + portCi then 1 else 0, ⟨(), mem, []⟩)
  writel _ mem _ _ := ⟨(), mem, []⟩

/-- No device has moved anything. -/
def Quiet (io : Io Unit) : Prop := dmaMoves io.log = []

theorem dmaMoves_cons (e : IoEvent) (log : List IoEvent) (h : ∀ m, e ≠ .dma m) :
    dmaMoves (e :: log) = dmaMoves log := by
  unfold dmaMoves
  rw [List.reverse_cons, List.filterMap_append]
  cases e with
  | dma m => exact absurd rfl (h m)
  | inb _ _ | outb _ _ | inw _ _ | outw _ _ | fill _ _ | readl _ _ | writel _ _ =>
    exact List.append_nil _

section Hung

variable {p : Word} {io : Io Unit}

theorem Quiet.readl (h : Quiet io) (a : Word) : Quiet (io.readl (hungPort p) a).2 :=
  (dmaMoves_cons _ _ (fun _ => IoEvent.noConfusion)).trans h

theorem Quiet.writel (h : Quiet io) (a : Word) (v : BitVec 32) :
    Quiet (io.writel (hungPort p) a v) :=
  (dmaMoves_cons _ _ (fun _ => IoEvent.noConfusion)).trans h

theorem Quiet.andl (h : Quiet io) (a : Word) (v : BitVec 32) : Quiet (io.andl (hungPort p) a v) :=
  (h.readl a).writel a _

theorem Quiet.orl (h : Quiet io) (a : Word) (v : BitVec 32) : Quiet (io.orl (hungPort p) a v) :=
  (h.readl a).writel a _

theorem readl_of_ne {a : Word} (ha : a ≠ portCi) (io : Io Unit) :
    (io.readl (hungPort p) (p + a)).1 = 0 :=
  if_neg (fun h => ha ((BitVec.add_right_inj p).mp h))

theorem readl_ci (io : Io Unit) : (io.readl (hungPort p) (p + portCi)).1 = 1 := if_pos rfl

theorem sataWaitStop_hung (mask : BitVec 32) (error : Int) (io : Io Unit) :
    sataWaitStop (hungPort p) (p + portCmd) mask error sataWaitTimeout io =
      (0, (io.readl (hungPort p) (p + portCmd)).2) := by
  have hv := readl_of_ne (p := p) (show portCmd ≠ portCi by decide) io
  rw [show sataWaitTimeout = 999 + 1 from rfl, sataWaitStop]
  refine if_pos ?_
  show (io.readl (hungPort p) (p + portCmd)).1 &&& mask = 0
  rw [hv]
  exact BitVec.zero_and

theorem Quiet.sataWaitClear (reg : Word) (mask : BitVec 32) (t : Nat) (h : Quiet io) :
    Quiet (sataWaitClear (hungPort p) reg mask t io).2 :=
  sataWaitClear_kept (fun _ h => h.readl reg) mask t io h

theorem sataReadPrepare_hung (portMem lba : Word) (count : BitVec 16) (buf : Word) (h : Quiet io) :
    ∃ io', sataReadPrepare (hungPort p) portMem p lba count buf io = (0, io') ∧ Quiet io' := by
  have hstart : Quiet (io.memset portMem 0 ahciPortMemSize) := h
  rw [sataReadPrepare, checked_of_zero (sataWaitStop_hung _ _ _),
    checked_of_zero (sataWaitStop_hung _ _ _)]
  refine ⟨_, rfl, Quiet.andl (Quiet.writel ?_ _ _) _ _⟩
  unfold Quiet
  rw [sataReadCommand_log]
  exact (((((((hstart.writel _ _).writel _ _).writel _ _).writel _ _).andl _ _).andl _ _).readl _).readl
    _

theorem sataSpin_hung (mask : BitVec 32) (io : Io Unit) :
    sataSpin (hungPort p) (p + portCmd) mask 1 io =
      some (io.readl (hungPort p) (p + portCmd)).2 := by
  have hv := readl_of_ne (p := p) (show portCmd ≠ portCi by decide) io
  rw [sataSpin]
  refine if_pos ?_
  show (io.readl (hungPort p) (p + portCmd)).1 &&& mask = 0
  rw [hv]
  exact BitVec.zero_and

end Hung

/-! ### All devices -/

def emptyIo : Io Unit := ⟨(), fun _ => 0, 0, 0, []⟩

section Requests

variable {lba count size : Nat} {buf : Word}

end Requests

section Kinds

variable (portMem : Word) {lba : Word} {count size : BitVec 32} (buf : Word) (base : BitVec 16)
  (drive : BitVec 8) (hcount : count.toNat ≠ 0) (hsize : size.toNat ≠ 0)

end Kinds

section Devices

variable {virtToPhys : Word → Word} {portMem : Word} {device : StorageDevice} {lba : Word}
  {sectorCount : BitVec 32} {buf : Word}

end Devices

end AncoreOS.Drivers
