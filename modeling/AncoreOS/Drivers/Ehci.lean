import AncoreOS.Mm.Pmm

/-!
# The EHCI driver

The transfers of `drivers/hci/ehci.c` and what is built on them.  Each transfer takes a page
from the allocator for a queue head and its transfer descriptors, hangs it into the
asynchronous schedule, waits, takes it out again and frees the page.

`Ehc` is what the driver works with: the registers, the clock and the controller, which
changes memory while a transfer is in progress.  What it changes is confined to the page of
the transfer and the buffer of the caller (`TransferRegion`), and it is looked at whenever
the driver looks at that memory.  The loops that wait for the controller have no bound of
their own but the clock, so they take the number of rounds as `fuel`.

Pages are named by their physical address; `phys_to_virt` adds the offset of the direct map,
and a pointer is read and written where it stands for.  Cache maintenance and the messages
are left out.
-/

namespace AncoreOS.Drivers

open ByteMemory AncoreOS.Mm

/-! ### The machine -/

inductive EhciReg
  | usbcmd
  | usbsts
  | asyncListAddr
  deriving DecidableEq, Repr

/-- The controller, the devices behind it and the clock.  `dma page mem` is the memory after
what the controller has done for the transfer whose queue head is at `page`. -/
structure Ehc (σ : Type*) where
  read : EhciReg → σ → BitVec 32 × σ
  write : EhciReg → BitVec 32 → σ → σ
  getTimeMs : σ → BitVec 32 × σ
  udelay : BitVec 32 → σ → σ
  dma : Word → Mem → σ → Mem × σ

/-- The variables of `ehci.c`, with the allocator and its memory, and with the last value
that was written to `ASYNCLISTADDR`. -/
structure Ehci (σ : Type*) where
  pmm : Pmm
  asyncListHead : Word
  asyncListHeadPhys : Word
  globalTag : BitVec 32
  pidRn : BitVec 32
  asyncListAddr : Option (BitVec 32)
  dev : σ

/-- The memory that a transfer may change. -/
def TransferRegion (page buf : Word) (len : Nat) (x : Word) : Prop :=
  pageOf x = page ∨ InRange buf len x

instance (page buf : Word) (len : Nat) (x : Word) : Decidable (TransferRegion page buf len x) :=
  inferInstanceAs (Decidable (_ ∨ _))

/-- Words written into a page. -/
def pokes (page : Word) (ws : List (Nat × BitVec 32)) (m : Mem) : Mem :=
  ws.foldl (fun m w => store32 m (page + BitVec.ofNat 64 w.1) w.2) m

/-- A structure assignment inside a page, word by word. -/
def copyWords (page : Word) (src dst : Nat) : Nat → Mem → Mem
  | 0, m => m
  | n + 1, m =>
    let m := copyWords page src dst n m
    store32 m (page + BitVec.ofNat 64 (dst + 4 * n))
      (load32 m (page + BitVec.ofNat 64 (src + 4 * n)))

section Driver

variable {σ : Type*} (b : Limine) (C : Ehc σ)

namespace Ehci

def mem (s : Ehci σ) : Mem := s.pmm.mem

def setMem (s : Ehci σ) (m : Mem) : Ehci σ := { s with pmm := { s.pmm with mem := m } }

def free (s : Ehci σ) (page : Word) : Ehci σ := { s with pmm := pfree b s.pmm page }

def delay (s : Ehci σ) (micros : BitVec 32) : Ehci σ := { s with dev := C.udelay micros s.dev }

/-- The controller works on a transfer. -/
def transfer (page buf : Word) (len : Nat) (s : Ehci σ) : Ehci σ :=
  let (m, dev) := C.dma page s.mem s.dev
  { s.setMem (fun x => if TransferRegion page buf len x then m x else s.mem x) with dev := dev }

end Ehci

/-! ### The schedule -/

def ehciInitAsyncList (s : Ehci σ) : Int × Ehci σ :=
  let (page, pmm) := palloc b s.pmm
  if page = 0 then (-1, { s with pmm := pmm })
  else
    let m := fill pmm.mem page 4096 0
    let m := pokes page
      [(0, page.setWidth 32 ||| 0x2), (4, 0), (8, 0x40000000), (12, 0x1), (16, 0x1), (24, 0x40)] m
    (0, { s with
      pmm := { pmm with mem := m }
      asyncListHead := page + b.hhdmOffset
      asyncListHeadPhys := page
      asyncListAddr := some (page.setWidth 32)
      dev := C.write .asyncListAddr (page.setWidth 32) s.dev })

/-- The wait of `ehci_flush_async`, with `timeout_ctr`. -/
def flushWait : Nat → σ → σ
  | 0, dev => (C.read .usbsts dev).2
  | n + 1, dev =>
    let (sts, dev) := C.read .usbsts dev
    if sts &&& (1#32 <<< 15) ≠ 0 then flushWait n (C.udelay 10 dev) else dev

def ehciFlushAsync (dev : σ) : Int × σ :=
  let (cmd, dev) := C.read .usbcmd dev
  let dev := C.write .usbcmd (cmd &&& ~~~(1#32 <<< 5)) dev
  let dev := C.udelay 50 dev
  let dev := flushWait C 10000 dev
  let (sts, dev) := C.read .usbsts dev
  if sts &&& (1#32 <<< 15) ≠ 0 then (-1, dev) else (0, dev)

def ehciRunAsync (s : Ehci σ) : Ehci σ :=
  let addr := s.asyncListHead.setWidth 32
  let dev := C.write .asyncListAddr addr s.dev
  let dev := C.udelay 20 dev
  let (cmd, dev) := C.read .usbcmd dev
  let dev := C.write .usbcmd (cmd ||| (1#32 <<< 5)) dev
  { s with asyncListAddr := some addr, dev := C.udelay 20 dev }

/-! ### Bulk transfers -/

def pidOut : BitVec 32 := 0
def pidIn : BitVec 32 := 1

/-- The queue head at the start of the page and the transfer descriptor at offset 64. -/
def bulkSetup (page bufPhys : Word) (devaddr epAddr : BitVec 8) (len : Word) (dirIn : Bool)
    (m : Mem) : Mem :=
  let m := fill m page 64 0
  let m := fill m (page + 64) 32 0
  let pid := if dirIn then pidIn else pidOut
  let token := (1#32 <<< 7) ||| (len <<< 16).setWidth 32 ||| (3#32 <<< 10) ||| pid <<< 8
  let m := pokes page ([(64, 0x1), (68, 0x1), (72, token), (76, bufPhys.setWidth 32)]) m
  let more := ([1, 2, 3, 4].filter fun i => len.toNat > i * 4096).map fun i =>
    (76 + 4 * i, (bufPhys + BitVec.ofNat 64 (i * 4096)).setWidth 32 &&& ~~~0xFFF)
  let m := pokes page more m
  let epChar := devaddr.setWidth 32 ||| (epAddr &&& 0x0F).setWidth 32 <<< 8 ||| (512#32 <<< 16) |||
    (2#32 <<< 12)
  let m := pokes page [(4, epChar), (8, 1#32 <<< 30), (12, 0)] m
  copyWords page 64 16 8 m

/-- How every exit of `ehci_submit_bulk_simple` ends: the queue head leaves the list and the
page is freed. -/
def bulkUnlink (page buf : Word) (len : Nat) (s : Ehci σ) : Ehci σ :=
  let s := s.transfer C page buf len
  let s := s.setMem (store32 s.mem (b.deref s.asyncListHead) (load32 s.mem page))
  s.free b page

def bulkWait (page buf : Word) (len : Nat) (start timeout : BitVec 32) :
    Nat → Ehci σ → Option (Int × Ehci σ)
  | 0, _ => none
  | fuel + 1, s =>
    let s := s.transfer C page buf len
    let token := load32 s.mem (page + 24)
    if token &&& (1#32 <<< 7) = 0 then some (0, bulkUnlink b C page buf len s)
    else if token &&& 0x7E ≠ 0 then some (-3, bulkUnlink b C page buf len s)
    else
      let (now, dev) := C.getTimeMs s.dev
      let s := { s with dev := dev }
      if now - start > timeout then some (-2, bulkUnlink b C page buf len s)
      else bulkWait page buf len start timeout fuel (s.delay C 100)

def ehciSubmitBulkSimple (fuel : Nat) (devaddr epAddr : BitVec 8) (data len : Word) (dirIn : Bool)
    (timeout : BitVec 32) (s : Ehci σ) : Option (Int × Ehci σ) :=
  if s.asyncListHead = 0 then some (-1, s)
  else
    let (page, pmm) := palloc b s.pmm
    if page = 0 then some (-1, { s with pmm := pmm })
    else
      let buf := b.deref data
      let head := b.deref s.asyncListHead
      let m := bulkSetup page buf devaddr epAddr len dirIn pmm.mem
      let m := store32 m page (load32 m head)
      let m := store32 m head (page.setWidth 32 ||| 0x2)
      let s := { s with pmm := { pmm with mem := m } }
      let (start, dev) := C.getTimeMs s.dev
      bulkWait b C page buf len.toNat start timeout fuel { s with dev := dev }

/-! ### Control transfers -/

/-- `usb_ctrl_setup_t`. -/
structure UsbCtrlSetup where
  bmRequestType : BitVec 8
  bRequest : BitVec 8
  wValue : BitVec 16
  wIndex : BitVec 16
  wLength : BitVec 16

/-- The queue head, and the descriptors for setup, data and status at the offsets 64, 128 and
192. -/
def controlSetup (page : Word) (devaddr : BitVec 8) (setup : UsbCtrlSetup) (data : Word)
    (dataLen : BitVec 16) (m : Mem) : Mem :=
  let m := fill m page 4096 0
  let m := pokes page
    [(64, (page + 128).setWidth 32), (72, 8#32 <<< 16),
      (76, setup.bmRequestType.setWidth 32 ||| setup.bRequest.setWidth 32 <<< 8 |||
        setup.wValue.setWidth 32 <<< 16),
      (80, setup.wIndex.setWidth 32 ||| setup.wLength.setWidth 32 <<< 16)] m
  let m := if data ≠ 0 ∧ dataLen ≠ 0 then
      let buffers := [0, 1, 2, 3, 4].map fun i =>
        (140 + 4 * i, (data + BitVec.ofNat 64 (4096 * i)).setWidth 32)
      pokes page ([(128, (page + 192).setWidth 32),
        (136, (dataLen &&& 0x7FFF).setWidth 32 <<< 16)] ++ buffers) m
    else pokes page [(64, (page + 192).setWidth 32)] m
  let m := pokes page [(192, 0x1), (200, 0), (12, 0)] m
  let m := copyWords page 64 16 8 m
  pokes page [(0, 0x1), (4, devaddr.setWidth 32 <<< 8 ||| (64#32 <<< 16)), (8, 0)] m

/-- How every exit after the page ends: the head is put back and the page is freed. -/
def controlDone (page oldHead : Word) (s : Ehci σ) : Ehci σ :=
  { s with asyncListHead := oldHead, pmm := pfree b s.pmm page }

/-- The length that was transferred. -/
def controlActual (m : Mem) (page : Word) (dataLen : BitVec 16) : Int :=
  let token := load32 m (page + 136)
  if dataLen ≠ 0 ∧ token &&& (15#32 <<< 3) = 0 then
    (dataLen.toNat : Int) - ((token >>> 16) &&& 0x7FFF).toNat
  else dataLen.toNat

def controlWait (page buf : Word) (len : Nat) (dataLen : BitVec 16) (oldHead : Word)
    (start : BitVec 32) : Nat → Ehci σ → Option (Int × Ehci σ)
  | 0, _ => none
  | fuel + 1, s =>
    let s := s.transfer C page buf len
    if load32 s.mem (page + 24) &&& (1#32 <<< 7) ≠ 0 then
      let (now, dev) := C.getTimeMs s.dev
      let s := { s with dev := dev }
      if now.setWidth 64 - start.setWidth 64 > (5000 : Word) then
        some (-4, controlDone b page oldHead s)
      else controlWait page buf len dataLen oldHead start fuel (s.delay C 100)
    else
      let s := s.transfer C page buf len
      some (controlActual s.mem page dataLen, controlDone b page oldHead s)

/-- The bytes of the caller's buffer. -/
def controlLen (data : Word) (dataLen : BitVec 16) : Nat := if data = 0 then 0 else dataLen.toNat

/-- `setup` is `none` for a null pointer. -/
def usbControlTransfer (fuel : Nat) (devaddr : BitVec 8) (setup : Option UsbCtrlSetup) (data : Word)
    (dataLen : BitVec 16) (s : Ehci σ) : Option (Int × Ehci σ) :=
  match setup with
  | none => some (-1, s)
  | some setup =>
    let (page, pmm) := palloc b s.pmm
    if page = 0 then some (-2, { s with pmm := pmm })
    else
      let buf := b.deref data
      let len := controlLen data dataLen
      let m := controlSetup page devaddr setup data dataLen pmm.mem
      let oldHead := s.asyncListHead
      let s := { s with pmm := { pmm with mem := m }, asyncListHead := page + b.hhdmOffset }
      let (r, dev) := ehciFlushAsync C s.dev
      let s := { s with dev := dev }.transfer C page buf len
      if r ≠ 0 then some (-3, controlDone b page oldHead s)
      else
        let s := ehciRunAsync C s
        let (start, dev) := C.getTimeMs s.dev
        controlWait b C page buf len dataLen oldHead start fuel { s with dev := dev }

/-! ### Standard requests -/

def usbReqGetDescriptor : BitVec 8 := 0x06
def usbReqSetAddress : BitVec 8 := 0x05
def usbReqSetConfiguration : BitVec 8 := 0x09

def usbGetDescriptor (fuel : Nat) (kind : BitVec 16) (devaddr : BitVec 8) (descBuf : Word)
    (len : BitVec 16) (s : Ehci σ) : Option (Int × Ehci σ) :=
  usbControlTransfer b C fuel devaddr (some ⟨0x80, usbReqGetDescriptor, kind <<< 8, 0, len⟩) descBuf
    len s

def usbGetDeviceDescriptor (fuel : Nat) := usbGetDescriptor b C fuel 0x01

def usbGetConfigDescriptor (fuel : Nat) := usbGetDescriptor b C fuel 0x02

def usbSetAddress (fuel : Nat) (newAddr : BitVec 8) (s : Ehci σ) : Option (Int × Ehci σ) :=
  (usbControlTransfer b C fuel 0 (some ⟨0x00, usbReqSetAddress, newAddr.setWidth 16, 0, 0⟩) 0 0 s).map
    fun (rc, s) => (rc, if rc = 0 then s.delay C 2000 else s)

def usbSetConfiguration (fuel : Nat) (devaddr configValue : BitVec 8) (s : Ehci σ) :
    Option (Int × Ehci σ) :=
  usbControlTransfer b C fuel devaddr
    (some ⟨0x00, usbReqSetConfiguration, configValue.setWidth 16, 0, 0⟩) 0 0 s

def usbMsdReset (fuel : Nat) (devaddr ifaceNum : BitVec 8) (s : Ehci σ) : Option (Int × Ehci σ) :=
  usbControlTransfer b C fuel devaddr (some ⟨0x21, 0xFF, 0, ifaceNum.setWidth 16, 0⟩) 0 0 s

/-! ### Mass storage -/

structure UsbEndpoint where
  addr : BitVec 8
  maxPacket : BitVec 16
  attrs : BitVec 8
  deriving DecidableEq, Repr

structure UsbDevice where
  address : BitVec 8
  configValue : BitVec 8
  bulkIn : UsbEndpoint
  bulkOut : UsbEndpoint
  ifaceNumber : BitVec 8
  deriving DecidableEq, Repr

def usbClassMassStorage : BitVec 8 := 0x08
def usbSubclassScsi : BitVec 8 := 0x06
def usbProtocolBulkOnly : BitVec 8 := 0x50

/-- One descriptor, at `desc`, and the device after it; the flag is `found_msd`. -/
def parseDescriptor (desc : Nat → BitVec 8) (foundMsd : Bool) (dev : UsbDevice) : Bool × UsbDevice :=
  let len := desc 0
  let type := desc 1
  if type = 0x04 ∧ 9 ≤ len then
    if desc 5 = usbClassMassStorage ∧ desc 6 = usbSubclassScsi ∧ desc 7 = usbProtocolBulkOnly then
      (true, { dev with ifaceNumber := desc 2 })
    else (foundMsd, dev)
  else if type = 0x05 ∧ 7 ≤ len then
    if foundMsd ∧ desc 3 &&& 0x03 = 0x02 then
      let ep : UsbEndpoint := ⟨desc 2, desc 5 ++ desc 4, desc 3⟩
      (foundMsd, if desc 2 &&& 0x80 ≠ 0 then { dev with bulkIn := ep } else { dev with bulkOut := ep })
    else (foundMsd, dev)
  else (foundMsd, dev)

/-- The loop over the descriptors, from offset `i` to `last`.  A descriptor has two bytes or
more, so `last` rounds are enough. -/
def parseDescriptors (buf : Nat → BitVec 8) (last : Nat) :
    Nat → Nat → Bool → UsbDevice → Bool × UsbDevice
  | 0, _, foundMsd, dev => (foundMsd, dev)
  | n + 1, i, foundMsd, dev =>
    if last ≤ i ∨ buf i < 2 then (foundMsd, dev)
    else
      let (foundMsd, dev) := parseDescriptor (fun k => buf (i + k)) foundMsd dev
      parseDescriptors buf last n (i + (buf i).toNat) foundMsd dev

/-- The end of `find_mass_storage_device`, when the page has been freed. -/
def configureMsd (fuel : Nat) (foundMsd : Bool) (dev : UsbDevice) (s : Ehci σ) :
    Option (Int × UsbDevice × Ehci σ) :=
  if !foundMsd then some (-6, dev, s)
  else do
    let (r, s) ← usbSetConfiguration b C fuel dev.address dev.configValue s
    if r ≠ 0 then some (-7, dev, s)
    else
      let s := s.delay C 100000
      let (_, s) ← usbMsdReset b C fuel dev.address dev.ifaceNumber s
      some (0, dev, s.delay C 100000)

def findMassStorageDevice (fuel : Nat) (dev : UsbDevice) (s : Ehci σ) :
    Option (Int × UsbDevice × Ehci σ) :=
  let (page, pmm) := palloc b s.pmm
  if page = 0 then some (-1, dev, { s with pmm := pmm })
  else do
    let descBuf := page + b.hhdmOffset
    let s := { s with pmm := { pmm with mem := fill pmm.mem page 4096 0 }, pidRn := 18 }
    let (res, s) ← usbGetDeviceDescriptor b C fuel 0 descBuf 18 s
    if res ≠ 0 then some (-100 - res, dev, s.free b page)
    else
    let s := { s with pidRn := 19 }
    let (r, s) ← usbSetAddress b C fuel 1 s
    if r ≠ 0 then some (-3, dev, s.free b page)
    else
    let dev := { dev with address := 1 }
    let s := { s with pidRn := 20 }
    let (r, s) ← usbGetConfigDescriptor b C fuel 1 descBuf 9 s
    if r ≠ 0 then some (-4, dev, s.free b page)
    else
    let s := { s with pidRn := 21 }
    -- `wTotalLength`, at most 1024.
    let totalLen := s.mem (page + 3) ++ s.mem (page + 2)
    let totalLen := if totalLen > 1024 then 1024 else totalLen
    let (r, s) ← usbGetConfigDescriptor b C fuel 1 descBuf totalLen s
    if r ≠ 0 then some (-5, dev, s.free b page)
    else
    let s := { s with pidRn := 22 }
    let dev := { dev with configValue := s.mem (page + 5) }
    let buf := fun i : Nat => s.mem (page + BitVec.ofNat 64 i)
    let (foundMsd, dev) := parseDescriptors buf totalLen.toNat totalLen.toNat 9 false dev
    configureMsd b C fuel foundMsd dev (s.free b page)

def cbwSignature : BitVec 32 := 0x43425355
def cswSignature : BitVec 32 := 0x53425355
def scsiRead10 : BitVec 8 := 0x28

def msdSendCbw (fuel : Nat) (dev : UsbDevice) (cbw : Word) (s : Ehci σ) : Option (Int × Ehci σ) :=
  ehciSubmitBulkSimple b C fuel dev.address dev.bulkOut.addr cbw 31 false 1000 s

def msdReceiveCsw (fuel : Nat) (dev : UsbDevice) (csw : Word) (s : Ehci σ) : Option (Int × Ehci σ) :=
  ehciSubmitBulkSimple b C fuel dev.address dev.bulkIn.addr csw 13 true 1000 s

/-- Bytes written into a page. -/
def pokePageBytes (page : Word) (bs : List (Nat × BitVec 8)) (m : Mem) : Mem :=
  bs.foldl (fun m w => Function.update m (page + BitVec.ofNat 64 w.1) w.2) m

/-- The command block wrapper for one sector, at the start of the page. -/
def cbwSetup (page : Word) (tag lba : BitVec 32) (m : Mem) : Mem :=
  let m := fill m page 31 0
  let m := pokes page [(0, cbwSignature), (4, tag), (8, 512)] m
  pokePageBytes page
    [(12, 0x80), (13, 0), (14, 10), (15, scsiRead10), (16, 0), (17, (lba >>> 24).setWidth 8),
      (18, (lba >>> 16).setWidth 8), (19, (lba >>> 8).setWidth 8), (20, lba.setWidth 8), (22, 0),
      (23, 1)] m

/-- The status wrapper is at offset 32 of the page. -/
def msdReadSector (fuel : Nat) (dev : UsbDevice) (lba : BitVec 32) (buf : Word) (s : Ehci σ) :
    Option (Int × Ehci σ) :=
  let (page, pmm) := palloc b s.pmm
  if page = 0 then some (-1, { s with pmm := pmm })
  else do
    let cbw := page + b.hhdmOffset
    let csw := cbw + 32
    let tag := s.globalTag + 1
    let s := { s with pmm := { pmm with mem := cbwSetup page tag lba pmm.mem }, globalTag := tag }
    let (r, s) ← msdSendCbw b C fuel dev cbw s
    if r ≠ 0 then some (-2, s.free b page)
    else
    let (r, s) ← ehciSubmitBulkSimple b C fuel dev.address dev.bulkIn.addr buf 512 true 1000 s
    if r ≠ 0 then some (-3, s.free b page)
    else
    let s := s.setMem (fill s.mem (page + 32) 13 0)
    let (r, s) ← msdReceiveCsw b C fuel dev csw s
    if r ≠ 0 then some (-4, s.free b page)
    else if load32 s.mem (page + 32) ≠ cswSignature then some (-5, s.free b page)
    else if load32 s.mem (page + 36) ≠ load32 s.mem (page + 4) then some (-6, s.free b page)
    else if s.mem (page + 44) ≠ 0 then some (-7, s.free b page)
    else some (0, s.free b page)

end Driver

end AncoreOS.Drivers
