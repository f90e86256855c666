import AncoreOS.Drivers.SataSearch

/-!
# The registers that the AHCI commands access

`AccessOnly S` says of two moments of a run that every register accessed in between is in
`S`.  It holds across an access of `S` and it composes, so it holds across every loop and
every command of `sata.c` once `S` has the registers of the port.
-/

namespace AncoreOS.Drivers

open ByteMemory

/-- The register that an event accesses. -/
def IoEvent.register : IoEvent → Option Word
  | .readl a _ | .writel a _ => some a
  | _ => none

/-- The register `a` has been accessed. -/
def Accessed {σ : Type*} (a : Word) (io : Io σ) : Prop := ∃ e ∈ io.log, e.register = some a

/-- Every register accessed in between is in `S`. -/
def AccessOnly {σ : Type*} (S : Word → Prop) (io io' : Io σ) : Prop :=
  ∃ es, io'.log = es ++ io.log ∧ ∀ e ∈ es, ∀ a, e.register = some a → S a

/-- A register of a port: `PxCI` at `0x38` is the last one that the driver uses. -/
def PortRegister (portBase a : Word) : Prop := ∃ o ≤ 0x38, a = portBase + BitVec.ofNat 64 o

section Access

variable {σ : Type*} {S : Word → Prop} {M : Mmio σ} {io₀ io : Io σ}

/-! ### Single accesses -/

theorem AccessOnly.of_log_eq (h : io.log = io₀.log) : AccessOnly S io₀ io :=
  ⟨[], h, fun _ he => absurd he List.not_mem_nil⟩

theorem AccessOnly.trans {io' : Io σ} (h : AccessOnly S io₀ io) (h' : AccessOnly S io io') :
    AccessOnly S io₀ io' := by
  obtain ⟨es, hlog, hall⟩ := h
  obtain ⟨es', hlog', hall'⟩ := h'
  refine ⟨es' ++ es, by rw [hlog', hlog, List.append_assoc], fun e he => ?_⟩
  rcases List.mem_append.mp he with he | he
  · exact hall' e he
  · exact hall e he

theorem AccessOnly.accessed {a : Word} (h : AccessOnly S io₀ io) (ha : Accessed a io₀) :
    Accessed a io := by
  obtain ⟨es, hlog, _⟩ := h
  obtain ⟨e, he, hreg⟩ := ha
  refine ⟨e, ?_, hreg⟩
  rw [hlog]
  exact List.mem_append_right es he

theorem Ends.accessed {a : Word} {x : Except (Io σ) (Int × Io σ)}
    (h : Ends (AccessOnly S io₀) (fun r => AccessOnly S io₀ r.2) x) (ha : Accessed a io₀) :
    Ends (Accessed a) (fun r => Accessed a r.2) x :=
  h.mono (fun _ h => h.accessed ha) fun _ h => h.accessed ha

theorem AccessOnly.of_accessed {a : Word} (h : AccessOnly S io₀ io) (hlog₀ : io₀.log = [])
    (ha : Accessed a io) : S a := by
  obtain ⟨es, hlog, hall⟩ := h
  obtain ⟨e, he, hreg⟩ := ha
  rw [hlog, hlog₀, List.append_nil] at he
  exact hall e he a hreg

theorem AccessOnly.of_log_congr {io' : Io σ} (h : AccessOnly S io₀ io) (hlog : io'.log = io.log) :
    AccessOnly S io₀ io' :=
  h.trans (.of_log_eq hlog)

/-- What a device moves by itself accesses no register. -/
theorem AccessOnly.reply (h : AccessOnly S io₀ io) (r : Reply σ) {e : IoEvent}
    (he : ∀ a, e.register = some a → S a) : AccessOnly S io₀ (io.reply r e) := by
  refine h.trans ⟨r.moves.reverse.map .dma ++ [e], ?_, fun e' he' => ?_⟩
  · rw [List.append_assoc]
    rfl
  · rcases List.mem_append.mp he' with hdma | hone
    · obtain ⟨m, _, rfl⟩ := List.mem_map.mp hdma
      exact fun a ha => absurd ha (Option.some_ne_none a).symm
    · rw [List.mem_singleton.mp hone]
      exact he

variable {a : Word}

theorem AccessOnly.readl (ha : S a) (h : AccessOnly S io₀ io) : AccessOnly S io₀ (io.readl M a).2 :=
  h.reply _ fun _ hreg => Option.some.inj hreg ▸ ha

theorem AccessOnly.writel (ha : S a) (v : BitVec 32) (h : AccessOnly S io₀ io) :
    AccessOnly S io₀ (io.writel M a v) :=
  h.reply _ fun _ hreg => Option.some.inj hreg ▸ ha

theorem AccessOnly.andl (ha : S a) (v : BitVec 32) (h : AccessOnly S io₀ io) :
    AccessOnly S io₀ (io.andl M a v) :=
  (h.readl ha).writel ha _

theorem AccessOnly.orl (ha : S a) (v : BitVec 32) (h : AccessOnly S io₀ io) :
    AccessOnly S io₀ (io.orl M a v) :=
  (h.readl ha).writel ha _

theorem accessed_readl : Accessed a (io.readl M a).2 :=
  ⟨.readl a (io.readl M a).1, List.mem_append_right _ List.mem_cons_self, rfl⟩

/-! ### The loops -/

theorem AccessOnly.waitStop {mask : BitVec 32} {error : Int} (ha : S a) (t : Nat)
    (h : AccessOnly S io₀ io) : AccessOnly S io₀ (sataWaitStop M a mask error t io).2 :=
  sataWaitStop_kept (fun _ h => h.readl ha) mask error t io h

theorem AccessOnly.waitClear {mask : BitVec 32} (ha : S a) (t : Nat) (h : AccessOnly S io₀ io) :
    AccessOnly S io₀ (sataWaitClear M a mask t io).2 :=
  sataWaitClear_kept (fun _ h => h.readl ha) mask t io h

theorem AccessOnly.spin {mask : BitVec 32} (ha : S a) : ∀ (fuel : Nat) (io : Io σ),
    AccessOnly S io₀ io →
    Ends (AccessOnly S io₀) (AccessOnly S io₀) (sataSpinFrom M a mask fuel io) := by
  intro fuel
  induction fuel with
  | zero => exact fun io h => h
  | succ fuel ih =>
    intro io h
    rw [sataSpinFrom]
    dsimp only
    split
    · exact h.readl ha
    · exact ih _ (h.readl ha)

section Port

variable {p : Word} (hS : ∀ a, PortRegister p a → S a)
include hS

theorem AccessOnly.waitSlot {mask : BitVec 32} (t : Nat) (h : AccessOnly S io₀ io) :
    AccessOnly S io₀ (sataWaitSlot M p mask t io).2 :=
  sataWaitSlot_kept (fun _ h => h.readl (hS _ ⟨0x38, by decide, rfl⟩))
    (fun _ h => h.readl (hS _ ⟨0x10, by decide, rfl⟩)) mask t io h

theorem AccessOnly.waitCommand (t : Nat) (h : AccessOnly S io₀ io) :
    AccessOnly S io₀ (sataWaitCommand M p t io).2 := by
  rw [sataWaitCommand_eq]
  exact AccessOnly.waitSlot hS t h

/-! ### The commands -/

/-- The addresses of the command list and of the received FIS. -/
theorem AccessOnly.setup (clb clbu fb fbu : BitVec 32) (h : AccessOnly S io₀ io) :
    AccessOnly S io₀ ((((io.writel M (p + portClb) clb).writel M (p + portClbu) clbu).writel M
      (p + portFb) fb).writel M (p + portFbu) fbu) := by
  refine AccessOnly.writel (hS _ ⟨0x0C, by decide, rfl⟩) fbu ?_
  refine AccessOnly.writel (hS _ ⟨0x08, by decide, rfl⟩) fb ?_
  refine AccessOnly.writel (hS _ ⟨0x04, by decide, rfl⟩) clbu ?_
  exact AccessOnly.writel (hS _ ⟨0x00, by decide, rfl⟩) clb h

theorem AccessOnly.identifyWait (h : AccessOnly S io₀ io) :
    AccessOnly S io₀ (sataIdentifyWait M p io).2 := by
  rw [sataIdentifyWait]
  dsimp only
  split
  · exact AccessOnly.waitSlot hS _ h
  · exact AccessOnly.waitSlot hS _ h

theorem AccessOnly.identifyFrom (fuel : Nat) (portMem buffer : Word) (h : AccessOnly S io₀ io) :
    Ends (AccessOnly S io₀) (fun r => AccessOnly S io₀ r.2)
      (sataAhciIdentifyFrom M fuel portMem p buffer io) := by
  have hcmd : S (p + portCmd) := hS _ ⟨0x18, by decide, rfl⟩
  unfold sataAhciIdentifyFrom
  refine (AccessOnly.spin hcmd fuel _ ?_).bind fun io h => ?_
  · exact ((h.setup hS _ _ _ _).andl hcmd _).andl hcmd _
  refine (AccessOnly.spin hcmd fuel _ h).map fun io h => AccessOnly.identifyWait hS ?_
  refine AccessOnly.orl (hS _ ⟨0x38, by decide, rfl⟩) _ (AccessOnly.orl hcmd _ ?_)
  refine AccessOnly.writel (hS _ ⟨0x10, by decide, rfl⟩) _ ?_
  exact h.of_log_congr (identifyCommand_log _ _ _ _)

theorem AccessOnly.readPrepare (portMem lba : Word) (count : BitVec 16) (buffer : Word)
    (h : AccessOnly S io₀ io) :
    AccessOnly S io₀ (sataReadPrepare M portMem p lba count buffer io).2 := by
  have hcmd : S (p + portCmd) := hS _ ⟨0x18, by decide, rfl⟩
  have hcleared : AccessOnly S io₀ (io.memset portMem 0 ahciPortMemSize) := h.of_log_congr rfl
  have hstart := ((hcleared.setup (M := M) hS (portMem.setWidth 32) ((portMem >>> 32).setWidth 32)
    ((portMem + ahciRfis).setWidth 32) (((portMem + ahciRfis) >>> 32).setWidth 32)).andl (M := M) hcmd
    (~~~0x01)).andl (M := M) hcmd (~~~0x10)
  refine checked_snd (AccessOnly.waitStop hcmd _ hstart) ?_
  refine checked_snd (AccessOnly.waitStop hcmd _ (AccessOnly.waitStop hcmd _ hstart)) ?_
  refine AccessOnly.andl hcmd _ (AccessOnly.writel (hS _ ⟨0x10, by decide, rfl⟩) _ ?_)
  refine AccessOnly.of_log_congr ?_ (sataReadCommand_log portMem lba count buffer _)
  exact AccessOnly.waitStop hcmd _ (AccessOnly.waitStop hcmd _ hstart)

theorem AccessOnly.readIssue (count : BitVec 16) (h : AccessOnly S io₀ io) :
    AccessOnly S io₀ (sataReadIssue M p count io).2 := by
  have hcmd : S (p + portCmd) := hS _ ⟨0x18, by decide, rfl⟩
  have hissued := ((h.orl (M := M) hcmd 0x10).orl (M := M) hcmd 1).orl (M := M)
    (hS (p + portCi) ⟨0x38, by decide, rfl⟩) 1
  have hwaited := AccessOnly.waitCommand (M := M) hS
    (sataWaitTimeout + count.toNat * sataWaitTimeoutPerSector) hissued
  rw [sataReadIssue]
  dsimp only
  split
  · exact hwaited
  · split
    · exact hwaited
    · exact hwaited

theorem AccessOnly.readSectorFrom (fuel : Nat) (portMem lba : Word) (count : BitVec 16)
    (buffer : Word) (h : AccessOnly S io₀ io) :
    Ends (AccessOnly S io₀) (fun r => AccessOnly S io₀ r.2)
      (sataAhciReadSectorFrom M fuel portMem p lba count buffer io) := by
  have hprepared := AccessOnly.readPrepare (M := M) hS portMem lba count buffer h
  rw [sataAhciReadSectorFrom]
  dsimp only
  split
  · exact hprepared
  · refine (AccessOnly.spin (hS _ ⟨0x18, by decide, rfl⟩) fuel _ hprepared).map fun io h => ?_
    exact AccessOnly.readIssue hS count h

theorem AccessOnly.satapiFail (h : AccessOnly S io₀ io) : AccessOnly S io₀ (satapiFail M p io).2 := by
  refine AccessOnly.readl (hS _ ⟨0x30, by decide, rfl⟩) ?_
  refine AccessOnly.readl (hS _ ⟨0x20, by decide, rfl⟩) ?_
  exact AccessOnly.readl (hS _ ⟨0x10, by decide, rfl⟩) h

theorem AccessOnly.satapiReadIssue (count : BitVec 16) (h : AccessOnly S io₀ io) :
    AccessOnly S io₀ (satapiReadIssue M p count io).2 := by
  have hcmd : S (p + portCmd) := hS _ ⟨0x18, by decide, rfl⟩
  have hci : S (p + portCi) := hS _ ⟨0x38, by decide, rfl⟩
  have hissued := ((((h.writel (M := M) (hS _ ⟨0x10, by decide, rfl⟩) 0xFFFFFFFF).writel (M := M)
    (hS (p + portSerr) ⟨0x30, by decide, rfl⟩) 0xFFFFFFFF).orl (M := M) hcmd 0x10).orl (M := M) hcmd
    1).writel (M := M) hci 1
  have hwaited := AccessOnly.waitCommand (M := M) hS
    (sataWaitTimeout + count.toNat * sataWaitTimeoutPerSector) hissued
  rw [Drivers.satapiReadIssue]
  dsimp only
  split
  · exact AccessOnly.satapiFail hS hwaited
  · split
    · exact AccessOnly.satapiFail hS hwaited
    · exact AccessOnly.waitClear hci _ hwaited

theorem AccessOnly.readSectorSatapi (virtToPhys : Word → Word) (portMem : Word) (lba : BitVec 32)
    (count : BitVec 16) (buffer : Word) (h : AccessOnly S io₀ io) :
    AccessOnly S io₀ (sataAhciReadSectorSatapi M virtToPhys portMem p lba count buffer io).2 := by
  have hcmd : S (p + portCmd) := hS _ ⟨0x18, by decide, rfl⟩
  have hcleared : AccessOnly S io₀ (io.memset portMem 0 ahciPortMemSize) := h.of_log_congr rfl
  have hstart := (hcleared.setup (M := M) hS ((virtToPhys portMem).setWidth 32)
    ((virtToPhys portMem >>> 32).setWidth 32) ((virtToPhys (portMem + ahciRfis)).setWidth 32)
    ((virtToPhys (portMem + ahciRfis) >>> 32).setWidth 32)).andl (M := M) hcmd (~~~0x11)
  have hwaited : AccessOnly S io₀ (sataWaitClear M (p + portCmd) 0xC000 sataWaitTimeout _).2 :=
    AccessOnly.waitClear hcmd sataWaitTimeout hstart
  rw [sataAhciReadSectorSatapi]
  dsimp only
  split
  · exact h
  · split
    · exact h
    · split
      · exact AccessOnly.satapiFail hS hwaited
      · refine AccessOnly.satapiReadIssue hS count ?_
        exact hwaited.of_log_congr (satapiReadCommand_log virtToPhys portMem lba count buffer _)

end Port

end Access

end AncoreOS.Drivers
