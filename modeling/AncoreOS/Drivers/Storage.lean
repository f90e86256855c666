import AncoreOS.Drivers.Sata

/-!
# Reading from a storage device

`drive_read` of `drivers/storage/storage.c` chooses a driver by the first character of
the device record and narrows the request to what the driver takes: the count to 16
bits, for the packet devices the address to 32 bits, and for the ATA drives the sector
size to 16 bits.
-/

namespace AncoreOS.Drivers

open ByteMemory

/-- The back ends of `drive_read`. -/
inductive DriveKind
  | ata
  | atapi
  | ataManual
  | atapiManual
  | sata
  | satapi
  | unknown
  deriving DecidableEq, Repr

def driveKind : Char → DriveKind
  | 'P' => .ata
  | 'Q' => .atapi
  | 'p' => .ataManual
  | 'q' => .atapiManual
  | 'S' => .sata
  | 'T' => .satapi
  | _ => .unknown

/-- `storage_device_t`.  `deviceData` are the bytes of the union. -/
structure StorageDevice where
  typeIdentifier : Char
  deviceData : Word → BitVec 8
  sectorSize : BitVec 32

namespace StorageDevice

variable (device : StorageDevice)

/-- `device_data.pata.drive_number`. -/
def driveNumber : BitVec 8 := device.deviceData 0

/-- `device_data.pata.pmio_base`. -/
def pmioBase : BitVec 16 := BitVec.ofNat 16 (load device.deviceData 4 2)

/-- `device_data.sata.port_base`. -/
def portBase : Word := load64 device.deviceData 0

end StorageDevice

/-- `drive_read`.  `fuel` is for the loop of `sata_ahci_read_sector` without a counter, and
`portMem` the address that the AHCI readers get from `malloc`. -/
def driveRead {σ : Type*} (B : Bus σ) (M : Mmio σ) (fuel : Nat) (virtToPhys : Word → Word)
    (portMem : Word) (device : StorageDevice) (lba : Word) (sectorCount : BitVec 32) (buf : Word)
    (io : Io σ) : Option (Int × Io σ) :=
  let count := sectorCount.setWidth 16
  match driveKind device.typeIdentifier with
  | .ata =>
    some (ataReadSectorAuto B lba count buf device.driveNumber (device.sectorSize.setWidth 16) io)
  | .atapi =>
    some (atapiReadSector B (lba.setWidth 32) count buf device.driveNumber device.sectorSize io)
  | .ataManual =>
    some (ataReadSectorSemiauto B lba count buf device.pmioBase device.driveNumber
      (device.sectorSize.setWidth 16) io)
  | .atapiManual =>
    some (atapiReadSectorManual B (lba.setWidth 32) count buf device.driveNumber device.pmioBase
      device.sectorSize io)
  | .sata => sataAhciReadSector M fuel portMem device.portBase lba count buf io
  | .satapi =>
    some (sataAhciReadSectorSatapi M virtToPhys portMem device.portBase (lba.setWidth 32) count buf
      io)
  | .unknown => some (9, io)

end AncoreOS.Drivers
