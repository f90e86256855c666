import AncoreOS.Drivers.Sata
import AncoreOS.Mm.Pmm

/-!
# The search for AHCI drives

`sata_search` of `drivers/storage/sata.c` goes through the ports that are implemented, looks
for a device on each, and reads a block from every drive it finds.

A run of it can stay in one of the loops without a counter.  The functions with such a loop
stand here once more, with the state in which they still wait when the fuel is used up
(`.error`), so that nothing that was accessed before is lost.

`heap` is `malloc`: the address that it returns for a size, where the calls are numbered.
-/

namespace AncoreOS.Drivers

open ByteMemory AncoreOS.Mm

def portSig : Word := 0x24
def portSsts : Word := 0x28

section From

variable {σ : Type*} (M : Mmio σ)

/-- `while (*reg & mask);` -/
def sataSpinFrom (reg : Word) (mask : BitVec 32) : Nat → Io σ → Except (Io σ) (Io σ)
  | 0, io => .error io
  | fuel + 1, io =>
    let (v, io) := io.readl M reg
    if v &&& mask = 0 then .ok io else sataSpinFrom reg mask fuel io

def sataAhciIdentifyFrom (fuel : Nat) (portMem portBase buffer : Word) (io : Io σ) :
    Except (Io σ) (Int × Io σ) :=
  let io := io.writel M (portBase + portClb) (portMem.setWidth 32)
  let io := io.writel M (portBase + portClbu) ((portMem >>> 32).setWidth 32)
  let io := io.writel M (portBase + portFb) ((portMem + ahciRfis).setWidth 32)
  let io := io.writel M (portBase + portFbu) (((portMem + ahciRfis) >>> 32).setWidth 32)
  let io := io.andl M (portBase + portCmd) (~~~0x01)
  let io := io.andl M (portBase + portCmd) (~~~0x10)
  (sataSpinFrom M (portBase + portCmd) 0x8000 fuel io).bind fun io =>
  (sataSpinFrom M (portBase + portCmd) 0x4000 fuel io).map fun io =>
  let io := identifyCommand 0xEC portMem buffer io
  let io := io.writel M (portBase + portIs) 0xFFFFFFFF
  let io := io.orl M (portBase + portCmd) 0x11
  sataIdentifyWait M portBase (io.orl M (portBase + portCi) 1)

def sataAhciReadSectorFrom (fuel : Nat) (portMem portBase lba : Word) (sectorCount : BitVec 16)
    (buffer : Word) (io : Io σ) : Except (Io σ) (Int × Io σ) :=
  let (r, io) := sataReadPrepare M portMem portBase lba sectorCount buffer io
  if r ≠ 0 then .ok (r, io)
  else (sataSpinFrom M (portBase + portCmd) 0xC000 fuel io).map (sataReadIssue M portBase sectorCount)

theorem sataSpinFrom_toOption (reg : Word) (mask : BitVec 32) : ∀ (fuel : Nat) (io : Io σ),
    (sataSpinFrom M reg mask fuel io).toOption = sataSpin M reg mask fuel io := by
  intro fuel
  induction fuel with
  | zero => exact fun io => rfl
  | succ fuel ih =>
    intro io
    rw [sataSpinFrom, sataSpin]
    dsimp only
    split
    · rfl
    · exact ih _

theorem toOption_map {ε α β : Type*} (x : Except ε α) (f : α → β) :
    (x.map f).toOption = x.toOption.map f := by
  cases x <;> rfl

theorem toOption_bind {ε α β : Type*} (x : Except ε α) (f : α → Except ε β) :
    (x.bind f).toOption = x.toOption.bind fun a => (f a).toOption := by
  cases x <;> rfl

/-- The calls that return are those of the driver. -/
theorem sataAhciIdentifyFrom_toOption (fuel : Nat) (portMem portBase buffer : Word) (io : Io σ) :
    (sataAhciIdentifyFrom M fuel portMem portBase buffer io).toOption =
      sataAhciIdentify M fuel portMem portBase buffer io := by
  simp only [sataAhciIdentifyFrom, sataAhciIdentify, sataIdentifyStart, toOption_bind, toOption_map,
    sataSpinFrom_toOption, Option.map_bind, Function.comp_def, Option.map_map]

theorem sataAhciReadSectorFrom_toOption (fuel : Nat) (portMem portBase lba : Word)
    (count : BitVec 16) (buffer : Word) (io : Io σ) :
    (sataAhciReadSectorFrom M fuel portMem portBase lba count buffer io).toOption =
      sataAhciReadSector M fuel portMem portBase lba count buffer io := by
  simp only [sataAhciReadSectorFrom, sataAhciReadSector]
  split
  · rfl
  · rw [toOption_map, sataSpinFrom_toOption]

end From

/-! ### The search -/

/-- A read of the first block: the word 117 of the IDENTIFY data, the size of the buffer, and
the count of sectors passed on. -/
structure SearchRead where
  word : BitVec 16
  size : Word
  count : BitVec 16
  deriving DecidableEq, Repr

inductive SearchMessage
  | sataDrive (port : Nat)
  | atapiDrive (port : Nat)
  | enclosure (port : Nat)
  | portMultiplier (port : Nat)
  | unknownType (port : Nat) (sig : BitVec 32)
  | guid (v : BitVec 32)
  deriving DecidableEq, Repr

structure Search (σ : Type*) where
  io : Io σ
  /-- The number of calls of `malloc`. -/
  mallocs : Nat
  reads : List SearchRead
  messages : List SearchMessage

/-- The size of a sector from the word 117. -/
def searchSectorSize (word : BitVec 16) : Word := if word ≠ 0 then word.setWidth 64 else 512

/-- The read that a word leads to. -/
def searchRead (word : BitVec 16) : SearchRead where
  word := word
  size := alignUp 600 (searchSectorSize word)
  count := (alignUp 600 (searchSectorSize word) / searchSectorSize word).setWidth 16

namespace Search

variable {σ : Type*} (heap : Nat → Word → Word)

def malloc (size : Word) (s : Search σ) : Word × Search σ :=
  (heap s.mallocs size, { s with mallocs := s.mallocs + 1 })

def message (m : SearchMessage) (s : Search σ) : Search σ := { s with messages := m :: s.messages }

/-- The state after a call whose result is not looked at. -/
def after (s : Search σ) : Except (Io σ) (Int × Io σ) → Except (Search σ) (Search σ)
  | .error io => .error { s with io := io }
  | .ok (_, io) => .ok { s with io := io }

end Search

section Search

variable {σ : Type*} (M : Mmio σ) (virtToPhys : Word → Word) (heap : Nat → Word → Word) (fuel : Nat)

/-- The branch for SATA drives. -/
def searchSata (portBase : Word) (s : Search σ) : Except (Search σ) (Search σ) :=
  let (identifyBuffer, s) := s.malloc heap 512
  let (portMem, s) := s.malloc heap (BitVec.ofNat 64 ahciPortMemSize)
  (s.after (sataAhciIdentifyFrom M fuel portMem portBase identifyBuffer s.io)).bind fun s =>
  let read := searchRead (BitVec.ofNat 16 (load s.io.mem (identifyBuffer + 2 * 117) 2))
  let (readBuffer, s) := s.malloc heap read.size
  let s := { s with reads := read :: s.reads }
  let (portMem, s) := s.malloc heap (BitVec.ofNat 64 ahciPortMemSize)
  (s.after (sataAhciReadSectorFrom M fuel portMem portBase 0 read.count readBuffer s.io)).map fun s =>
  s.message (.guid (load32 s.io.mem (readBuffer + 4 * 0x8E)))

/-- The branch for ATAPI drives. -/
def searchAtapi (portBase : Word) (s : Search σ) : Except (Search σ) (Search σ) :=
  let (readBuffer, s) := s.malloc heap 2048
  let (portMem, s) := s.malloc heap (BitVec.ofNat 64 ahciPortMemSize)
  (s.after (.ok (sataAhciReadSectorSatapi M virtToPhys portMem portBase 0 1 readBuffer s.io))).map
    fun s => s.message (.guid (load32 s.io.mem (readBuffer + 4 * 0x8E)))

/-- `mmio_base + 0x100 + p * 0x80`. -/
def searchPortBase (mmioBase : BitVec 32) (p : Nat) : Word :=
  (mmioBase + 0x100 + BitVec.ofNat 32 (p * 0x80)).setWidth 64

/-- A round of the loop. -/
def searchPort (mmioBase pi : BitVec 32) (p : Nat) (s : Search σ) : Except (Search σ) (Search σ) :=
  if pi &&& (1 <<< p) = 0 then .ok s else
  let portBase := searchPortBase mmioBase p
  let (ssts, io) := s.io.readl M (portBase + portSsts)
  let s := { s with io := io }
  let det := ssts &&& 0x0F
  let ipm := (ssts >>> 8) &&& 0x0F
  if det ≠ 3 ∨ ipm ≠ 1 then .ok s else
  let (sig, io) := s.io.readl M (portBase + portSig)
  let s := { s with io := io }
  if sig = 0x00000101 then searchSata M heap fuel portBase (s.message (.sataDrive p))
  else if sig = 0xEB140101 then
    searchAtapi M virtToPhys heap portBase (s.message (.atapiDrive p))
  else if sig = 0x96690101 then .ok (s.message (.enclosure p))
  else if sig = 0xC33C0101 then .ok (s.message (.portMultiplier p))
  else .ok (s.message (.unknownType p sig))

def searchPorts (mmioBase pi : BitVec 32) : List Nat → Search σ → Except (Search σ) (Search σ)
  | [], s => .ok s
  | p :: ports, s =>
    (searchPort M virtToPhys heap fuel mmioBase pi p s).bind (searchPorts mmioBase pi ports)

def searchPi (mmioBase : BitVec 32) : Word := (mmioBase + 0x0C).setWidth 64

def sataSearch (mmioBase : BitVec 32) (s : Search σ) : Except (Search σ) (Search σ) :=
  let (pi, io) := s.io.readl M (searchPi mmioBase)
  searchPorts M virtToPhys heap fuel mmioBase pi (List.range 32) { s with io := io }

end Search

/-! ### What a run has reached -/

/-- What holds of an error and of a result. -/
def Ends {ε α : Type*} (P : ε → Prop) (Q : α → Prop) : Except ε α → Prop
  | .error e => P e
  | .ok a => Q a

section Ends

variable {ε α β : Type*} {P P' : ε → Prop} {Q Q' : α → Prop} {R : β → Prop} {x : Except ε α}

theorem Ends.mono (hx : Ends P Q x) (hP : ∀ e, P e → P' e) (hQ : ∀ a, Q a → Q' a) :
    Ends P' Q' x := by
  cases x with
  | error e => exact hP e hx
  | ok a => exact hQ a hx

theorem Ends.bind (hx : Ends P Q x) {f : α → Except ε β} (hf : ∀ a, Q a → Ends P R (f a)) :
    Ends P R (x.bind f) := by
  cases x with
  | error e => exact hx
  | ok a => exact hf a hx

theorem Ends.map (hx : Ends P Q x) {f : α → β} (hf : ∀ a, Q a → R (f a)) : Ends P R (x.map f) := by
  cases x with
  | error e => exact hx
  | ok a => exact hf a hx

end Ends

/-- The state that a run has reached. -/
def reached {σ : Type*} : Except (Search σ) (Search σ) → Search σ
  | .error s | .ok s => s

section Reached

variable {σ : Type*} {P : Search σ → Prop}

theorem Ends.reached {x : Except (Search σ) (Search σ)} (h : Ends P P x) : P (reached x) := by
  cases x with
  | error s => exact h
  | ok s => exact h

theorem Ends.after {P : Io σ → Prop} {x : Except (Io σ) (Int × Io σ)} (h : Ends P (fun r => P r.2) x)
    (s : Search σ) : Ends (fun s' => P s'.io) (fun s' => P s'.io) (s.after x) := by
  cases x with
  | error io => exact h
  | ok r => exact h

variable (M : Mmio σ) (virtToPhys : Word → Word) (heap : Nat → Word → Word) (fuel : Nat)
  (mmioBase pi : BitVec 32)

/-- A run of the loop keeps what a round keeps. -/
theorem ends_searchPorts : ∀ (ports : List Nat) (s : Search σ),
    (∀ p ∈ ports, ∀ s, P s → Ends P P (searchPort M virtToPhys heap fuel mmioBase pi p s)) →
    P s → Ends P P (searchPorts M virtToPhys heap fuel mmioBase pi ports s) := by
  intro ports
  induction ports with
  | nil => exact fun s _ hs => hs
  | cons p ports ih =>
    intro s h hs
    refine (h p List.mem_cons_self s hs).bind fun s' hs' => ?_
    exact ih s' (fun q hq => h q (List.mem_cons_of_mem p hq)) hs'

end Reached

/-! ### A port that is ready -/

section Ready

variable {σ : Type*} {M : Mmio σ} {p : Word}

theorem sataSpinFrom_clear {reg : Word} {mask : BitVec 32} (fuel : Nat) {io : Io σ}
    (h : (io.readl M reg).1 = 0) :
    sataSpinFrom M reg mask (fuel + 1) io = .ok (io.readl M reg).2 := by
  rw [sataSpinFrom]
  exact if_pos (show (io.readl M reg).1 &&& mask = 0 by rw [h]; exact BitVec.zero_and)

/-- Where the engine and the slot read as idle, the identification ends with a poll. -/
theorem sataAhciIdentifyFrom_idle (hcmd : ∀ io : Io σ, (io.readl M (p + portCmd)).1 = 0)
    (hci : ∀ io : Io σ, (io.readl M (p + portCi)).1 = 0) (fuel : Nat) (portMem buffer : Word)
    (io : Io σ) : ∃ io₀ : Io σ, sataAhciIdentifyFrom M (fuel + 1) portMem p buffer io =
      .ok (0, (io₀.readl M (p + portCi)).2) := by
  have hwait : ∀ io : Io σ, sataIdentifyWait M p io = (0, (io.readl M (p + portCi)).2) := by
    intro io
    have hslot : sataWaitSlot M p 0x40000000 sataWaitTimeout io =
        ((BitVec.ofNat 32 sataWaitTimeout, none), (io.readl M (p + portCi)).2) :=
      if_pos (show (io.readl M (p + portCi)).1 &&& 1 = 0 by rw [hci]; exact BitVec.zero_and)
    rw [sataIdentifyWait, hslot]
    rfl
  unfold sataAhciIdentifyFrom
  simp only [sataSpinFrom_clear fuel (hcmd _), Except.bind, Except.map, hwait]
  exact ⟨_, rfl⟩

/-- The round of a port with a SATA drive. -/
theorem searchPort_sata (virtToPhys : Word → Word) (heap : Nat → Word → Word) (fuel : Nat)
    (mmioBase : BitVec 32) {pi : BitVec 32} {n : Nat} (hpi : pi &&& (1 <<< n) ≠ 0)
    (hssts : ∀ io : Io σ, (io.readl M (searchPortBase mmioBase n + portSsts)).1 = 0x103)
    (hsig : ∀ io : Io σ, (io.readl M (searchPortBase mmioBase n + portSig)).1 = 0x101)
    (s : Search σ) : ∃ s' : Search σ, s'.mallocs = s.mallocs ∧
      searchPort M virtToPhys heap fuel mmioBase pi n s =
        searchSata M heap fuel (searchPortBase mmioBase n) s' := by
  refine ⟨{ s with
    io := ((s.io.readl M (searchPortBase mmioBase n + portSsts)).2.readl M
      (searchPortBase mmioBase n + portSig)).2
    messages := .sataDrive n :: s.messages }, rfl, ?_⟩
  rw [searchPort, if_neg hpi]
  simp only [hssts, hsig]
  rfl

end Ready

/-- A controller with one SATA drive, behind the port `p`, and `pi` for the implemented ports.
All other registers read as `0`, and every access changes memory by `f`. -/
def onePort (mmioBase pi : BitVec 32) (p : Nat) (f : Mem → Mem) : Mmio Unit where
  readl _ mem a :=
    (if a = searchPi mmioBase then pi
      else if a = searchPortBase mmioBase p + portSsts then 0x103
      else if a = searchPortBase mmioBase p + portSig then 0x101
      else 0,
      ⟨(), f mem, []⟩)
  writel _ mem _ _ := ⟨(), f mem, []⟩

/-- The buffers of the example lie 64 KiB apart. -/
def exampleHeap (n : Nat) (_ : Word) : Word := 0x10000 * (BitVec.ofNat 64 n + 1)

def exampleSearch : Search Unit where
  io := ⟨(), fun _ => 0, 0, 0, []⟩
  mallocs := 0
  reads := []
  messages := []

end AncoreOS.Drivers
