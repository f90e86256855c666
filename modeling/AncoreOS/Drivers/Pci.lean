import AncoreOS.Library.CallTree
import Mathlib.Data.BitVec

/-!
# PCI enumeration

`scan_pci_bus`, `scan_pci_device` and `start_pci_enumeration` of `drivers/pci/pci.c`.
Nothing writes the registers that the scan reads (`ehci_pci_init` sizes the BAR at `0x10` and
puts it back), so the configuration space is a function `cfg` from the value of
`CONFIG_ADDRESS` to the word that `CONFIG_DATA` shows.

Each function is the list of what it does: the configuration reads, the messages and the
calls of drivers in order, and the calls of `scan_pci_bus`, which a PCI-to-PCI bridge leads
to.  `CallTree.run` carries the lists out.
-/

namespace AncoreOS.Drivers

open CallTree

abbrev Cfg := BitVec 32 → BitVec 32

/-- The word that goes to `CONFIG_ADDRESS`. -/
def pciAddress (bus device func offset : BitVec 8) : BitVec 32 :=
  (1#32 <<< 31) ||| (bus.setWidth 32 <<< 16) ||| (device.setWidth 32 <<< 11) |||
    (func.setWidth 32 <<< 8) ||| (offset &&& 0xFC).setWidth 32

def pciRead (cfg : Cfg) (bus device func offset : BitVec 8) : BitVec 32 :=
  cfg (pciAddress bus device func offset)

/-! ### Fields of the header -/

section Fields

variable (cfg : Cfg) (bus device func : BitVec 8)

def vendorId : BitVec 16 := (pciRead cfg bus device func 0x00).setWidth 16

def deviceId : BitVec 16 := (pciRead cfg bus device func 0x00 >>> 16).setWidth 16

def classCode : BitVec 8 := (pciRead cfg bus device func 0x08 >>> 24).setWidth 8

def subclass : BitVec 8 := (pciRead cfg bus device func 0x08 >>> 16).setWidth 8

def progIf : BitVec 8 := (pciRead cfg bus device func 0x08 >>> 8).setWidth 8

def headerType : BitVec 8 := (pciRead cfg bus device func 0x0C >>> 16).setWidth 8

def secondaryBus : BitVec 8 := (pciRead cfg bus device func 0x18 >>> 8).setWidth 8

/-- There is a function that answers. -/
def Present : Prop := vendorId cfg bus device func ≠ 0xFFFF

def MultiFunction : Prop := headerType cfg bus device 0 &&& 0x80 ≠ 0

def IsBridge : Prop :=
  Present cfg bus device func ∧ classCode cfg bus device func = 0x06 ∧
    subclass cfg bus device func = 0x04

instance : Decidable (Present cfg bus device func) := inferInstanceAs (Decidable (_ ≠ _))

instance : Decidable (MultiFunction cfg bus device) := inferInstanceAs (Decidable (_ ≠ _))

instance : Decidable (IsBridge cfg bus device func) := inferInstanceAs (Decidable (_ ∧ _))

end Fields

/-! ### The scan -/

/-- The texts for the first `%s` of the messages. -/
inductive ControllerType
  | unknownStorage
  | ide
  | raid
  | sataAhci
  | sataNonAhci
  | unknownUsb
  | uhci
  | ohci
  | ehci
  | xhci
  deriving DecidableEq, Repr

inductive PciEvent
  | read (bus device func offset : BitVec 8)
  | ahciBase (base : BitVec 32)
  | pidRn (pid : BitVec 32)
  | mapPage (virt phys flags : BitVec 64)
  | sataSearch (mmioBase : BitVec 32)
  | ehciPciInit (bus device func : BitVec 8)
  | controller (type : ControllerType) (bus device func : BitVec 8) (vid did : BitVec 16)
  deriving DecidableEq, Repr

abbrev PciItem := Item PciEvent (BitVec 8)

/-- `PTE_WRITABLE | PTE_CACHE_DISABLE | PTE_WRITE_THROUGH`. -/
def ahciPageFlags : BitVec 64 := 0x02 ||| 0x10 ||| 0x08

section Scan

variable (cfg : Cfg) (bus device func : BitVec 8)

/-- The branch for class `0x01`. -/
def storageController : List PciEvent :=
  let report (type : ControllerType) : PciEvent :=
    .controller type bus device func (vendorId cfg bus device func) (deviceId cfg bus device func)
  if subclass cfg bus device func = 0x01 then [report .ide]
  else if subclass cfg bus device func = 0x04 then [report .raid]
  else if subclass cfg bus device func = 0x06 then
    if progIf cfg bus device func = 0x01 then
      let base := pciRead cfg bus device func 0x24 &&& 0xFFFFFFF0
      [.read bus device func 0x24, .ahciBase base, .pidRn 7,
        .mapPage (base.setWidth 64) (base.setWidth 64) ahciPageFlags, .sataSearch base,
        report .sataAhci]
    else [report .sataNonAhci]
  else [report .unknownStorage]

/-- The branch for class `0x0C`, subclass `0x03`. -/
def usbController : List PciEvent :=
  let report (type : ControllerType) : PciEvent :=
    .controller type bus device func (vendorId cfg bus device func) (deviceId cfg bus device func)
  if progIf cfg bus device func = 0x00 then [report .uhci]
  else if progIf cfg bus device func = 0x10 then [report .ohci]
  else if progIf cfg bus device func = 0x20 then
    [report .ehci, .ehciPciInit bus device func, report .ehci]
  else if progIf cfg bus device func = 0x30 then [report .xhci]
  else [report .unknownUsb]

/-- One round of the loop of `scan_pci_device`. -/
def scanPciFunction : List PciItem :=
  .emit (.read bus device func 0x00) ::
    if vendorId cfg bus device func = 0xFFFF then []
    else
      .emit (.read bus device func 0x08) ::
        if classCode cfg bus device func = 0x01 then
          (storageController cfg bus device func).map .emit
        else if classCode cfg bus device func = 0x0C ∧ subclass cfg bus device func = 0x03 then
          (usbController cfg bus device func).map .emit
        else if classCode cfg bus device func = 0x06 ∧ subclass cfg bus device func = 0x04 then
          [.emit (.read bus device func 0x18), .call (secondaryBus cfg bus device func)]
        else []

/-- `func_limit`. -/
def funcLimit : Nat := if headerType cfg bus device 0 &&& 0x80 ≠ 0 then 8 else 1

/-- The values of a loop variable of type `uint8_t` that starts at `0`. -/
def below (limit : Nat) : List (BitVec 8) := (List.range limit).map (BitVec.ofNat 8)

def scanPciDevice : List PciItem :=
  .emit (.read bus device 0 0x00) ::
    if vendorId cfg bus device 0 = 0xFFFF then []
    else
      .emit (.read bus device 0 0x0C) ::
        (below (funcLimit cfg bus device)).flatMap (scanPciFunction cfg bus device)

def scanPciBus : List PciItem := (below 32).flatMap (scanPciDevice cfg bus)

/-- A round of the loop of `start_pci_enumeration`. -/
def startFunction : List PciItem :=
  .emit (.read 0 0 func 0x00) ::
    if vendorId cfg 0 0 func = 0xFFFF then []
    else [.emit (.read 0 0 func 0x18), .call (secondaryBus cfg 0 0 func)]

def startScript : List PciItem :=
  .emit (.read 0 0 0 0x0C) ::
    if headerType cfg 0 0 0 &&& 0x80 = 0 then [.call 0]
    else (below 8).flatMap (startFunction cfg)

/-- What happens, if calls of `scan_pci_bus` that are nested `depth` deep are enough. -/
def startPciEnumeration (depth : Nat) : Option (List PciEvent) :=
  exec (run (scanPciBus cfg) depth) (startScript cfg)

end Scan

end AncoreOS.Drivers
