import AncoreOS.Drivers.Atapi

/-!
# The AHCI driver

The readers and the identification commands of `drivers/storage/sata.c`.  A command is
a piece of memory that the driver fills (`ahci_port_mem_t`: the command list at `0`, the received FIS at `1024`,
the command tables at `1280`) and then announces in the registers of the port.

`portMem` is the address that `malloc` returned, `0` when it returned `NULL`; it is
freed on every way out.  The caches, the delays and the messages of the source leave
nothing behind that the drivers read.  A loop with a counter is a recursion on the
counter: `timeout--` in the condition leaves the loop at `0` with the counter wrapped
around.  A loop without a counter takes `fuel`.
-/

namespace AncoreOS.Drivers

open ByteMemory

def sataWaitTimeout : Nat := 1000
def sataWaitTimeoutPerSector : Nat := 250

def portClb : Word := 0x00
def portClbu : Word := 0x04
def portFb : Word := 0x08
def portFbu : Word := 0x0C
def portIs : Word := 0x10
def portCmd : Word := 0x18
def portTfd : Word := 0x20
def portSerr : Word := 0x30
def portCi : Word := 0x38

/-- `sizeof(ahci_port_mem_t)`. -/
def ahciPortMemSize : Nat := 9472

def ahciRfis : Word := 1024
def ahciCt : Word := 1280

section Memory

variable {σ : Type*}

/-- `prdt_entry[i]` of a command table: the address and the number of bytes minus one
in a field of 22 bits, and the interrupt bit. -/
def prdtEntry (ct : Word) (i : Nat) (dba : Word) (dbc : BitVec 32) (io : Io σ) : Io σ :=
  let entry := ct + 128 + 16 * BitVec.ofNat 64 i
  let io := io.poke entry 4 (dba.setWidth 32).toNat
  let io := io.poke (entry + 4) 4 (dba >>> 32).toNat
  let word := BitVec.ofNat 32 (load io.mem (entry + 12) 4)
  let io := io.poke (entry + 12) 4 ((word &&& ~~~0x003FFFFF) ||| (dbc &&& 0x003FFFFF)).toNat
  io.poke (entry + 12) 4 (BitVec.ofNat 32 (load io.mem (entry + 12) 4) ||| 0x80000000).toNat

/-- The PRDT entries before the last one, from the entry `i` on. -/
def prdtLoop (ct : Word) : Nat → Nat → Word → Io σ → Io σ
  | 0, _, _, io => io
  | n + 1, i, buf, io => prdtLoop ct n (i + 1) (buf + 8192) (prdtEntry ct i buf 8191 io)

/-- The first header of the command list. -/
def cmdHeader (cl ct : Word) (flags prdtLength : Nat) (io : Io σ) : Io σ :=
  let io := io.memset cl 0 32
  let io := io.poke cl 2 flags
  let io := io.poke (cl + 2) 2 prdtLength
  let io := io.poke (cl + 8) 4 (ct.setWidth 32).toNat
  io.poke (cl + 12) 4 (ct >>> 32).toNat

/-- The start of a command FIS. -/
def cmdFis (fis : Word) (command device : Nat) (io : Io σ) : Io σ :=
  let io := io.memset fis 0 20
  let io := io.poke fis 1 0x27
  let io := io.poke (fis + 1) 1 (io.mem (fis + 1) ||| 0x80).toNat
  let io := io.poke (fis + 2) 1 command
  io.poke (fis + 7) 1 device

/-- The command of `sata_ahci_read_sector`: READ DMA EXT. -/
def sataReadCommand (portMem lba : Word) (sectorCount : BitVec 16) (buffer : Word) (io : Io σ) : Io σ :=
  let prdtEntries := (sectorCount.toNat + 15) / 16
  let ct := portMem + ahciCt
  let io := cmdHeader portMem ct 5 prdtEntries io
  let io := io.memset ct 0 144
  let io := prdtLoop ct (prdtEntries - 1) 0 buffer io
  let last := prdtEntries - 1
  let remaining := BitVec.ofNat 32 (sectorCount.toNat - 16 * last)
  let io := prdtEntry ct last (buffer + BitVec.ofNat 64 (8192 * last)) ((remaining <<< 9) - 1) io
  let io := cmdFis ct 0x25 0x40 io
  let io := io.poke (ct + 4) 1 lba.toNat
  let io := io.poke (ct + 5) 1 (lba >>> 8).toNat
  let io := io.poke (ct + 6) 1 (lba >>> 16).toNat
  let io := io.poke (ct + 8) 1 (lba >>> 24).toNat
  let io := io.poke (ct + 9) 1 (lba >>> 32).toNat
  let io := io.poke (ct + 10) 1 (lba >>> 40).toNat
  let io := io.poke (ct + 12) 1 sectorCount.toNat
  io.poke (ct + 13) 1 (sectorCount >>> 8).toNat

/-- `memcpy` of a list of bytes. -/
def pokeBytes (a : Word) : List (BitVec 8) → Io σ → Io σ
  | [], io => io
  | b :: rest, io => pokeBytes (a + 1) rest (io.poke a 1 b.toNat)

/-- The command of `sata_ahci_read_sector_satapi`: a PACKET command with `READ(10)`. -/
def satapiReadCommand (virtToPhys : Word → Word) (portMem : Word) (lba : BitVec 32)
    (sectorCount : BitVec 16) (buffer : Word) (io : Io σ) : Io σ :=
  let ct := portMem + ahciCt
  let byteCount := BitVec.ofNat 32 (sectorCount.toNat * 2048)
  let io := cmdHeader portMem (virtToPhys ct) (5 ||| 32) 1 io
  let io := prdtEntry ct 0 (virtToPhys buffer) (byteCount - 1) io
  let io := io.memset (ct + 64) 0 16
  let io := pokeBytes (ct + 64) (buildRead10AtapiCmd lba sectorCount) io
  cmdFis ct 0xA0 0xA0 io

/-- The command of `sata_ahci_identify` and `sata_ahci_identify_satapi`, IDENTIFY DEVICE
and IDENTIFY PACKET DEVICE.  The memory is used as `malloc` left it. -/
def identifyCommand (command : Nat) (portMem buffer : Word) (io : Io σ) : Io σ :=
  let ct := portMem + ahciCt
  let io := io.poke portMem 2 5
  let io := io.poke (portMem + 2) 2 1
  let io := io.poke (portMem + 8) 4 (ct.setWidth 32).toNat
  let io := io.poke (portMem + 12) 4 (ct >>> 32).toNat
  let io := prdtEntry ct 0 buffer 511 io
  let io := io.memset ct 0 20
  let io := io.poke ct 1 0x27
  let io := io.poke (ct + 1) 1 (io.mem (ct + 1) ||| 0x80).toNat
  io.poke (ct + 2) 1 command

/-- `build_read_capacity_atapi_cmd` sets ten of the twelve bytes of `cmd`. -/
def buildReadCapacityAtapiCmd (cmd : List (BitVec 8)) : List (BitVec 8) :=
  0x25 :: (List.replicate 9 0 ++ cmd.drop 10)

/-- The command of `sata_ahci_identify_satapi_properly`: a PACKET command with
`READ CAPACITY(10)`.  `atapiCmd` is what the array of the packet held before. -/
def capacityCommand (virtToPhys : Word → Word) (atapiCmd : List (BitVec 8)) (portMem buffer : Word)
    (io : Io σ) : Io σ :=
  let ct := portMem + ahciCt
  let io := cmdHeader portMem (virtToPhys ct) (5 ||| 32) 1 io
  let io := prdtEntry ct 0 (virtToPhys buffer) 7 io
  let io := io.memset (ct + 64) 0 16
  let io := pokeBytes (ct + 64) (buildReadCapacityAtapiCmd atapiCmd) io
  cmdFis ct 0xA0 0xA0 io

/-! The commands are written in memory only. -/

@[simp] theorem poke_log (a : Word) (n v : Nat) (io : Io σ) : (io.poke a n v).log = io.log := rfl

@[simp] theorem memset_log (a : Word) (b : BitVec 8) (n : Nat) (io : Io σ) :
    (io.memset a b n).log = io.log := rfl

@[simp] theorem prdtEntry_log (ct : Word) (i : Nat) (dba : Word) (dbc : BitVec 32) (io : Io σ) :
    (prdtEntry ct i dba dbc io).log = io.log := rfl

@[simp] theorem cmdHeader_log (cl ct : Word) (flags prdtLength : Nat) (io : Io σ) :
    (cmdHeader cl ct flags prdtLength io).log = io.log := rfl

@[simp] theorem cmdFis_log (fis : Word) (command device : Nat) (io : Io σ) :
    (cmdFis fis command device io).log = io.log := rfl

@[simp] theorem prdtLoop_log (ct : Word) : ∀ (n i : Nat) (buf : Word) (io : Io σ),
    (prdtLoop ct n i buf io).log = io.log := by
  intro n
  induction n with
  | zero => exact fun i buf io => rfl
  | succ n ih =>
    intro i buf io
    rw [prdtLoop, ih, prdtEntry_log]

@[simp] theorem pokeBytes_log : ∀ (bytes : List (BitVec 8)) (a : Word) (io : Io σ),
    (pokeBytes a bytes io).log = io.log := by
  intro bytes
  induction bytes with
  | nil => exact fun a io => rfl
  | cons b bytes ih =>
    intro a io
    rw [pokeBytes, ih, poke_log]

theorem sataReadCommand_log (portMem lba : Word) (count : BitVec 16) (buf : Word) (io : Io σ) :
    (sataReadCommand portMem lba count buf io).log = io.log := by
  simp only [sataReadCommand, poke_log, cmdFis_log, prdtEntry_log, prdtLoop_log, memset_log,
    cmdHeader_log]

theorem satapiReadCommand_log (virtToPhys : Word → Word) (portMem : Word) (lba : BitVec 32)
    (count : BitVec 16) (buf : Word) (io : Io σ) :
    (satapiReadCommand virtToPhys portMem lba count buf io).log = io.log := by
  rw [satapiReadCommand, cmdFis_log, pokeBytes_log, memset_log, prdtEntry_log, cmdHeader_log]

theorem identifyCommand_log (command : Nat) (portMem buffer : Word) (io : Io σ) :
    (identifyCommand command portMem buffer io).log = io.log := by
  simp only [identifyCommand, poke_log, memset_log, prdtEntry_log]

end Memory

section Driver

variable {σ : Type*} (M : Mmio σ)

/-! ### Waiting -/

/-- `while ((*reg & mask) && timeout--) { if (timeout == 0) return error; }` -/
def sataWaitStop (reg : Word) (mask : BitVec 32) (error : Int) : Nat → Io σ → Int × Io σ
  | 0, io => (0, (io.readl M reg).2)
  | t + 1, io =>
    let (v, io) := io.readl M reg
    if v &&& mask = 0 then (0, io)
    else if t = 0 then (error, io)
    else sataWaitStop reg mask error t io

/-- `while ((*reg & mask) && timeout--);` and the counter afterwards. -/
def sataWaitClear (reg : Word) (mask : BitVec 32) : Nat → Io σ → BitVec 32 × Io σ
  | 0, io =>
    let (v, io) := io.readl M reg
    (if v &&& mask = 0 then 0 else 0xFFFFFFFF, io)
  | t + 1, io =>
    let (v, io) := io.readl M reg
    if v &&& mask = 0 then (BitVec.ofNat 32 (t + 1), io) else sataWaitClear reg mask t io

/-- The wait for the command in slot 0: the counter afterwards, and the interrupt status
if it showed an error. -/
def sataWaitCommand (portBase : Word) : Nat → Io σ → (BitVec 32 × Option (BitVec 32)) × Io σ
  | 0, io =>
    let (ci, io) := io.readl M (portBase + portCi)
    ((if ci &&& 1 = 0 then 0 else 0xFFFFFFFF, none), io)
  | t + 1, io =>
    let (ci, io) := io.readl M (portBase + portCi)
    if ci &&& 1 = 0 then ((BitVec.ofNat 32 (t + 1), none), io)
    else
      let (isr, io) := io.readl M (portBase + portIs)
      if isr &&& 0xC0000000 ≠ 0 then ((BitVec.ofNat 32 t, some isr), io)
      else sataWaitCommand portBase t io

/-- The wait of the identification commands, which test the bits of `mask` alone. -/
def sataWaitSlot (portBase : Word) (mask : BitVec 32) :
    Nat → Io σ → (BitVec 32 × Option (BitVec 32)) × Io σ
  | 0, io =>
    let (ci, io) := io.readl M (portBase + portCi)
    ((if ci &&& 1 = 0 then 0 else 0xFFFFFFFF, none), io)
  | t + 1, io =>
    let (ci, io) := io.readl M (portBase + portCi)
    if ci &&& 1 = 0 then ((BitVec.ofNat 32 (t + 1), none), io)
    else
      let (isr, io) := io.readl M (portBase + portIs)
      if isr &&& mask ≠ 0 then ((BitVec.ofNat 32 t, some isr), io)
      else sataWaitSlot portBase mask t io

/-- `while (*reg & mask);` -/
def sataSpin (reg : Word) (mask : BitVec 32) : Nat → Io σ → Option (Io σ)
  | 0, _ => none
  | fuel + 1, io =>
    let (v, io) := io.readl M reg
    if v &&& mask = 0 then some io else sataSpin reg mask fuel io

/-! What a read of the polled registers keeps, a wait keeps. -/

section Kept

variable {M} {P : Io σ → Prop} {reg : Word} (hreg : ∀ io, P io → P (io.readl M reg).2)

include hreg in
theorem sataWaitStop_kept (mask : BitVec 32) (error : Int) : ∀ (t : Nat) (io : Io σ), P io →
    P (sataWaitStop M reg mask error t io).2 := by
  intro t
  induction t with
  | zero => exact hreg
  | succ t ih =>
    intro io h
    rw [sataWaitStop]
    dsimp only
    split
    · exact hreg io h
    · split
      · exact hreg io h
      · exact ih _ (hreg io h)

include hreg in
theorem sataWaitClear_kept (mask : BitVec 32) : ∀ (t : Nat) (io : Io σ), P io →
    P (sataWaitClear M reg mask t io).2 := by
  intro t
  induction t with
  | zero => exact hreg
  | succ t ih =>
    intro io h
    rw [sataWaitClear]
    dsimp only
    split
    · exact hreg io h
    · exact ih _ (hreg io h)

theorem sataWaitSlot_kept {p : Word} (hci : ∀ io, P io → P (io.readl M (p + portCi)).2)
    (his : ∀ io, P io → P (io.readl M (p + portIs)).2) (mask : BitVec 32) : ∀ (t : Nat) (io : Io σ),
    P io → P (sataWaitSlot M p mask t io).2 := by
  intro t
  induction t with
  | zero => exact hci
  | succ t ih =>
    intro io h
    rw [sataWaitSlot]
    dsimp only
    split
    · exact hci io h
    · split
      · exact his _ (hci io h)
      · exact ih _ (his _ (hci io h))

end Kept

/-- The two waits for a slot differ in the bits they test. -/
theorem sataWaitCommand_eq (p : Word) : ∀ (t : Nat) (io : Io σ),
    sataWaitCommand M p t io = sataWaitSlot M p 0xC0000000 t io := by
  intro t
  induction t with
  | zero => exact fun io => rfl
  | succ t ih =>
    intro io
    rw [sataWaitCommand, sataWaitSlot]
    simp only [ih]

/-! ### The readers -/

/-- `sata_ahci_read_sector` up to the loop without a counter. -/
def sataReadPrepare (portMem portBase lba : Word) (sectorCount : BitVec 16) (buffer : Word)
    (io : Io σ) : Int × Io σ :=
  let io := io.memset portMem 0 ahciPortMemSize
  let io := io.writel M (portBase + portClb) (portMem.setWidth 32)
  let io := io.writel M (portBase + portClbu) ((portMem >>> 32).setWidth 32)
  let io := io.writel M (portBase + portFb) ((portMem + ahciRfis).setWidth 32)
  let io := io.writel M (portBase + portFbu) (((portMem + ahciRfis) >>> 32).setWidth 32)
  let io := io.andl M (portBase + portCmd) (~~~0x01)
  let io := io.andl M (portBase + portCmd) (~~~0x10)
  checked (sataWaitStop M (portBase + portCmd) 0x8000 6 sataWaitTimeout io) (fun r => r) fun io =>
  checked (sataWaitStop M (portBase + portCmd) 0x4000 7 sataWaitTimeout io) (fun r => r) fun io =>
  let io := sataReadCommand portMem lba sectorCount buffer io
  let io := io.writel M (portBase + portIs) 0xFFFFFFFF
  (0, io.andl M (portBase + portCmd) (~~~0x11))

/-- `sata_ahci_read_sector` after the loop without a counter. -/
def sataReadIssue (portBase : Word) (sectorCount : BitVec 16) (io : Io σ) : Int × Io σ :=
  let io := io.orl M (portBase + portCmd) 0x10
  let io := io.orl M (portBase + portCmd) 1
  let io := io.orl M (portBase + portCi) 1
  let ((timeout, error), io) := sataWaitCommand M portBase
    (sataWaitTimeout + sectorCount.toNat * sataWaitTimeoutPerSector) io
  if error.isSome then (8, io) else if timeout = 0 then (9, io) else (0, io)

def sataAhciReadSector (fuel : Nat) (portMem portBase lba : Word) (sectorCount : BitVec 16)
    (buffer : Word) (io : Io σ) : Option (Int × Io σ) :=
  let (r, io) := sataReadPrepare M portMem portBase lba sectorCount buffer io
  if r ≠ 0 then some (r, io)
  else (sataSpin M (portBase + portCmd) 0xC000 fuel io).map (sataReadIssue M portBase sectorCount)

/-- The label `fail` of `sata_ahci_read_sector_satapi`. -/
def satapiFail (portBase : Word) (io : Io σ) : Int × Io σ :=
  let io := (io.readl M (portBase + portIs)).2
  let io := (io.readl M (portBase + portTfd)).2
  let io := (io.readl M (portBase + portSerr)).2
  (-1, io)

/-- `sata_ahci_read_sector_satapi` once the command is in memory. -/
def satapiReadIssue (portBase : Word) (sectorCount : BitVec 16) (io : Io σ) : Int × Io σ :=
  let io := io.writel M (portBase + portIs) 0xFFFFFFFF
  let io := io.writel M (portBase + portSerr) 0xFFFFFFFF
  let io := io.orl M (portBase + portCmd) 0x10
  let io := io.orl M (portBase + portCmd) 1
  let io := io.writel M (portBase + portCi) 1
  let ((timeout, error), io) := sataWaitCommand M portBase
    (sataWaitTimeout + sectorCount.toNat * sataWaitTimeoutPerSector) io
  if error.isSome then satapiFail M portBase io else
  if timeout = 0 then satapiFail M portBase io else
  (0, (sataWaitClear M (portBase + portCi) 1 sataWaitTimeout io).2)

/-- `virtToPhys` is `virt_to_phys` of `vmm.c`. -/
def sataAhciReadSectorSatapi (virtToPhys : Word → Word) (portMem portBase : Word) (lba : BitVec 32)
    (sectorCount : BitVec 16) (buffer : Word) (io : Io σ) : Int × Io σ :=
  if buffer = 0 ∨ sectorCount = 0 then (-1, io) else
  if portMem = 0 then (-1, io) else
  let io := io.memset portMem 0 ahciPortMemSize
  let clPhys := virtToPhys portMem
  let rfisPhys := virtToPhys (portMem + ahciRfis)
  let io := io.writel M (portBase + portClb) (clPhys.setWidth 32)
  let io := io.writel M (portBase + portClbu) ((clPhys >>> 32).setWidth 32)
  let io := io.writel M (portBase + portFb) (rfisPhys.setWidth 32)
  let io := io.writel M (portBase + portFbu) ((rfisPhys >>> 32).setWidth 32)
  let io := io.andl M (portBase + portCmd) (~~~0x11)
  let (timeout, io) := sataWaitClear M (portBase + portCmd) 0xC000 sataWaitTimeout io
  if timeout = 0 then satapiFail M portBase io else
  satapiReadIssue M portBase sectorCount
    (satapiReadCommand virtToPhys portMem lba sectorCount buffer io)

/-! ### Identification -/

/-- `sata_ahci_identify` and its twin up to the command's issue. -/
def sataIdentifyStart (command fuel : Nat) (portMem portBase buffer : Word) (io : Io σ) :
    Option (Io σ) :=
  let io := io.writel M (portBase + portClb) (portMem.setWidth 32)
  let io := io.writel M (portBase + portClbu) ((portMem >>> 32).setWidth 32)
  let io := io.writel M (portBase + portFb) ((portMem + ahciRfis).setWidth 32)
  let io := io.writel M (portBase + portFbu) (((portMem + ahciRfis) >>> 32).setWidth 32)
  let io := io.andl M (portBase + portCmd) (~~~0x01)
  let io := io.andl M (portBase + portCmd) (~~~0x10)
  (sataSpin M (portBase + portCmd) 0x8000 fuel io).bind fun io =>
  (sataSpin M (portBase + portCmd) 0x4000 fuel io).map fun io =>
  let io := identifyCommand command portMem buffer io
  let io := io.writel M (portBase + portIs) 0xFFFFFFFF
  let io := io.orl M (portBase + portCmd) 0x11
  io.orl M (portBase + portCi) 1

/-- The rest of it: the counter is not looked at after the loop. -/
def sataIdentifyWait (portBase : Word) (io : Io σ) : Int × Io σ :=
  let ((_, error), io) := sataWaitSlot M portBase 0x40000000 sataWaitTimeout io
  if error.isSome then (8, io) else (0, io)

def sataAhciIdentify (fuel : Nat) (portMem portBase buffer : Word) (io : Io σ) :
    Option (Int × Io σ) :=
  (sataIdentifyStart M 0xEC fuel portMem portBase buffer io).map (sataIdentifyWait M portBase)

def sataAhciIdentifySatapi (fuel : Nat) (portMem portBase buffer : Word) (io : Io σ) :
    Option (Int × Io σ) :=
  (sataIdentifyStart M 0xA1 fuel portMem portBase buffer io).map (sataIdentifyWait M portBase)

/-- `be32toh`. -/
def be32toh (be : BitVec 32) : BitVec 32 :=
  ((be &&& 0xFF000000) >>> 24) ||| ((be &&& 0x00FF0000) >>> 8) |||
    ((be &&& 0x0000FF00) <<< 8) ||| ((be &&& 0x000000FF) <<< 24)

/-- `p->field = be32toh(p->field)`. -/
def swapField (a : Word) (io : Io σ) : Io σ :=
  io.poke a 4 (be32toh (BitVec.ofNat 32 (load io.mem a 4))).toNat

/-- `sata_ahci_identify_satapi_properly` once the command is in memory. -/
def capacityIssue (portBase buffer : Word) (io : Io σ) : Int × Io σ :=
  let io := io.writel M (portBase + portIs) 0xFFFFFFFF
  let io := io.writel M (portBase + portSerr) 0xFFFFFFFF
  let io := io.orl M (portBase + portCmd) 0x10
  let io := io.orl M (portBase + portCmd) 1
  let io := io.writel M (portBase + portCi) 1
  let (timeout, io) := sataWaitClear M (portBase + portCi) 1 sataWaitTimeout io
  if timeout = 0 then (-1, io) else (0, swapField buffer (swapField (buffer + 4) io))

def sataAhciIdentifySatapiProperly (virtToPhys : Word → Word) (atapiCmd : List (BitVec 8))
    (portMem portBase buffer : Word) (io : Io σ) : Int × Io σ :=
  if buffer = 0 then (-1, io) else
  if portMem = 0 then (-1, io) else
  let io := io.memset portMem 0 ahciPortMemSize
  let clPhys := virtToPhys portMem
  let rfisPhys := virtToPhys (portMem + ahciRfis)
  let io := io.writel M (portBase + portClb) (clPhys.setWidth 32)
  let io := io.writel M (portBase + portClbu) ((clPhys >>> 32).setWidth 32)
  let io := io.writel M (portBase + portFb) (rfisPhys.setWidth 32)
  let io := io.writel M (portBase + portFbu) ((rfisPhys >>> 32).setWidth 32)
  let io := io.andl M (portBase + portCmd) (~~~0x11)
  let (timeout, io) := sataWaitClear M (portBase + portCmd) 0xC000 sataWaitTimeout io
  if timeout = 0 then (-1, io) else
  capacityIssue M portBase buffer (capacityCommand virtToPhys atapiCmd portMem buffer io)

end Driver

end AncoreOS.Drivers
