import AncoreOS.Drivers.Storage

/-!
# The records of the storage devices

`storage_init` of `drivers/storage/stinit.c` fills `storage_devices` with the records of
`stinit.h`: a character, a pointer to the data that the drive has identified itself with, and
a sector size, 24 bytes in all.  `drive_read` takes a pointer to the record of the same name
of `storage.h`, where the union after the character has 24 bytes for itself and the sector
size comes at byte 32.

So what `drive_read` takes for the drive number is the low byte of the pointer, and what it
takes for the sector size is the low half of the pointer in the *next* record.
`storageInit_devices` gives the records, `asStorageDevice_sectorSize` the field, and
`agrees_iff` says for which pointers the two readings agree.

The identify commands and `malloc` are inputs.  The data that is copied to the block from
`malloc` is read by neither side.
-/

namespace AncoreOS.Drivers

open ByteMemory

/-! ### Registration -/

/-- `storage_device_t` of `stinit.h`. -/
structure StinitDevice where
  typeIdentifier : Char
  deviceData : Word
  sectorSize : Word
  deriving DecidableEq, Repr

/-- `MAX_STORAGE_DEVICES`. -/
def maxStorageDevices : Nat := 1028

inductive StorageMessage
  | maxReached
  | detected (count : Nat)
  | registered (typeIdentifier : Char) (sectorSize : BitVec 32)
  | complete (count : Nat)
  deriving DecidableEq, Repr

/-- `devices` are the first `storage_device_count` entries of `storage_devices`.
`sataTemp` is the entry `0` of `sata_temp_devices` once `sata_temp_count` is `1`; it is
never more.  `mallocs` counts the calls of `malloc`. -/
structure StorageState where
  devices : List StinitDevice
  sataTemp : Option StinitDevice
  mallocs : Nat
  messages : List StorageMessage

def storageStart : StorageState := ⟨[], none, 0, []⟩

/-- What the drives answer: the words of `identify_ata` and the sector size and last sector of
`identify_atapi_useful`, if these return `0`. -/
structure Identify where
  ata : BitVec 8 → Option (List (BitVec 16))
  atapi : BitVec 8 → Option (BitVec 32 × BitVec 32)

/-- The record that `sata_init` makes. -/
def sataDevice : StinitDevice := ⟨'S', 0, 512⟩

def sataInit (s : StorageState) : StorageState :=
  { s with sataTemp := some sataDevice, messages := .detected 1 :: s.messages }

def registerDevice (dev : StinitDevice) (s : StorageState) : StorageState :=
  if maxStorageDevices ≤ s.devices.length then { s with messages := .maxReached :: s.messages }
  else
    let s := sataInit { s with devices := s.devices ++ [dev] }
    { s with messages := .registered dev.typeIdentifier (dev.sectorSize.setWidth 32) :: s.messages }

section Init

variable (I : Identify) (malloc : Nat → Word)

/-- A device with a block for its data. -/
def registerWithData (typeIdentifier : Char) (sectorSize : Word) (s : StorageState) : StorageState :=
  registerDevice ⟨typeIdentifier, malloc s.mallocs, sectorSize⟩ { s with mallocs := s.mallocs + 1 }

def initAta (s : StorageState) (drive : BitVec 8) : StorageState :=
  match I.ata drive with
  | some _ => registerWithData malloc 'P' 512 s
  | none => s

def initAtapi (s : StorageState) (drive : BitVec 8) : StorageState :=
  match I.atapi drive with
  | some (sectorSize, _) => registerWithData malloc 'Q' (sectorSize.setWidth 64) s
  | none => s

def storageInit : StorageState :=
  let s := [0, 1].foldl (initAta I malloc) storageStart
  let s := [0, 1].foldl (initAtapi I malloc) s
  let s := match s.sataTemp with
    | some dev => registerDevice dev s
    | none => s
  { s with messages := .complete s.devices.length :: s.messages }

end Init

/-! ### The bytes of the array -/

/-- Byte `i` of a little-endian word. -/
def byteOf (v : Word) (i : Nat) : BitVec 8 := (v >>> (8 * i)).setWidth 8

/-- The object representation of a record; the padding of `= {0}` is zero. -/
def StinitDevice.byte (dev : StinitDevice) (i : Nat) : BitVec 8 :=
  if i = 0 then BitVec.ofNat 8 dev.typeIdentifier.toNat
  else if 8 ≤ i ∧ i < 16 then byteOf dev.deviceData (i - 8)
  else if 16 ≤ i ∧ i < 24 then byteOf dev.sectorSize (i - 16)
  else 0

/-- The bytes of `storage_devices`. -/
def storageByte (devices : List StinitDevice) (i : Nat) : BitVec 8 :=
  match devices[i / 24]? with
  | some dev => dev.byte (i % 24)
  | none => 0

/-- `&storage_devices[k]`, read as the `storage_device_t` of `storage.h`. -/
def asStorageDevice (devices : List StinitDevice) (k : Nat) : StorageDevice where
  typeIdentifier := Char.ofNat (storageByte devices (24 * k)).toNat
  deviceData i := storageByte devices (24 * k + 8 + i.toNat)
  sectorSize :=
    storageByte devices (24 * k + 35) ++ storageByte devices (24 * k + 34) ++
      storageByte devices (24 * k + 33) ++ storageByte devices (24 * k + 32)

section Bytes

variable {devices : List StinitDevice} {k : Nat} {dev : StinitDevice}

theorem storageByte_add {i : Nat} (hk : devices[k]? = some dev) (hi : i < 24) :
    storageByte devices (24 * k + i) = dev.byte i := by
  unfold storageByte
  rw [show (24 * k + i) / 24 = k by omega, show (24 * k + i) % 24 = i by omega, hk]

theorem low_bytes (v : Word) :
    byteOf v 3 ++ byteOf v 2 ++ byteOf v 1 ++ byteOf v 0 = v.setWidth 32 := by
  unfold byteOf
  ext i hi
  simp only [BitVec.getElem_append, BitVec.getElem_setWidth, BitVec.getLsbD_ushiftRight]
  split
  · simp
  · split
    · congr 1
      omega
    · split
      · congr 1
        omega
      · congr 1
        omega

theorem asStorageDevice_typeIdentifier (hk : devices[k]? = some dev)
    (htype : dev.typeIdentifier = 'P' ∨ dev.typeIdentifier = 'Q') :
    (asStorageDevice devices k).typeIdentifier = dev.typeIdentifier := by
  have hbyte : storageByte devices (24 * k) = BitVec.ofNat 8 dev.typeIdentifier.toNat :=
    storageByte_add (i := 0) hk (by decide)
  show Char.ofNat (storageByte devices (24 * k)).toNat = _
  rw [hbyte]
  rcases htype with h | h <;> rw [h] <;> rfl

/-- The drive number is the low byte of the pointer. -/
theorem asStorageDevice_driveNumber (hk : devices[k]? = some dev) :
    (asStorageDevice devices k).driveNumber = dev.deviceData.setWidth 8 := by
  show storageByte devices (24 * k + 8) = _
  rw [storageByte_add hk (by decide)]
  simp [StinitDevice.byte, byteOf]

/-- The sector size is the low half of the pointer in the next record. -/
theorem asStorageDevice_sectorSize (hk : devices[k + 1]? = some dev) :
    (asStorageDevice devices k).sectorSize = dev.deviceData.setWidth 32 := by
  have hbyte : ∀ i < 4, storageByte devices (24 * k + (32 + i)) = byteOf dev.deviceData i := by
    intro i hi
    rw [show 24 * k + (32 + i) = 24 * (k + 1) + (8 + i) by omega, storageByte_add hk (by omega),
      StinitDevice.byte, if_neg (by omega), if_pos (by omega), Nat.add_sub_cancel_left]
  rw [← low_bytes, ← hbyte 0 (by decide), ← hbyte 1 (by decide), ← hbyte 2 (by decide),
    ← hbyte 3 (by decide)]
  rfl

end Bytes

/-! ### The records of a run -/

/-- A drive that has identified itself, with the sector size to be registered. -/
structure FoundDrive where
  typeIdentifier : Char
  drive : BitVec 8
  sectorSize : Word

def foundAta (I : Identify) (drive : BitVec 8) : Option FoundDrive :=
  (I.ata drive).map fun _ => ⟨'P', drive, 512⟩

def foundAtapi (I : Identify) (drive : BitVec 8) : Option FoundDrive :=
  (I.atapi drive).map fun capacity => ⟨'Q', drive, capacity.1.setWidth 64⟩

/-- The drives in the order of their records. -/
def found (I : Identify) : List FoundDrive :=
  [0, 1].filterMap (foundAta I) ++ [0, 1].filterMap (foundAtapi I)

def FoundDrive.record (malloc : Nat → Word) (i : Nat) (f : FoundDrive) : StinitDevice :=
  ⟨f.typeIdentifier, malloc i, f.sectorSize⟩

/-- The drives `fs` have been registered. -/
structure Registered (malloc : Nat → Word) (fs : List FoundDrive) (s : StorageState) : Prop where
  devices : s.devices = fs.mapIdx (FoundDrive.record malloc)
  mallocs : s.mallocs = fs.length
  sataTemp : s.sataTemp = if fs.isEmpty then none else some sataDevice

section Run

variable {I : Identify} {malloc : Nat → Word}

theorem registerDevice_of_lt {s : StorageState} {d : StinitDevice}
    (h : s.devices.length < maxStorageDevices) :
    (registerDevice d s).devices = s.devices ++ [d] ∧
      (registerDevice d s).mallocs = s.mallocs ∧
      (registerDevice d s).sataTemp = some sataDevice := by
  rw [registerDevice, if_neg (by omega)]
  exact ⟨rfl, rfl, rfl⟩

theorem Registered.register {fs : List FoundDrive} {s : StorageState} (h : Registered malloc fs s)
    (hlt : fs.length < maxStorageDevices) (f : FoundDrive) :
    Registered malloc (fs ++ [f]) (registerWithData malloc f.typeIdentifier f.sectorSize s) := by
  have hlen : s.devices.length = fs.length := by rw [h.devices, List.length_mapIdx]
  obtain ⟨hdevices, hmallocs, htemp⟩ := registerDevice_of_lt
    (s := { s with mallocs := s.mallocs + 1 })
    (d := ⟨f.typeIdentifier, malloc s.mallocs, f.sectorSize⟩) (hlen.trans_lt hlt)
  refine ⟨?_, ?_, ?_⟩
  · rw [registerWithData, hdevices, List.mapIdx_concat, h.devices, h.mallocs]
    rfl
  · rw [registerWithData, hmallocs, List.length_append, h.mallocs]
    rfl
  · rw [registerWithData, htemp]
    simp

/-- One of the two loops: the drives that `g` finds are registered in turn. -/
theorem Registered.loop {g : BitVec 8 → Option FoundDrive}
    {step : StorageState → BitVec 8 → StorageState}
    (hstep : ∀ s drive, step s drive = match g drive with
      | some f => registerWithData malloc f.typeIdentifier f.sectorSize s
      | none => s) :
    ∀ (drives : List (BitVec 8)) (fs : List FoundDrive) (s : StorageState),
      Registered malloc fs s → fs.length + drives.length ≤ maxStorageDevices →
      Registered malloc (fs ++ drives.filterMap g) (drives.foldl step s) := by
  intro drives
  induction drives with
  | nil =>
    intro fs s h _
    rw [List.filterMap_nil, List.append_nil]
    exact h
  | cons drive drives ih =>
    intro fs s h hlen
    rw [List.length_cons] at hlen
    rw [List.foldl_cons, hstep]
    cases hg : g drive with
    | none =>
      rw [List.filterMap_cons_none hg]
      exact ih fs s h (by omega)
    | some f =>
      have hnext := ih (fs ++ [f]) _ (h.register (by omega) f) (by
        rw [List.length_append, List.length_singleton]
        omega)
      rw [List.filterMap_cons_some hg]
      rwa [List.append_assoc] at hnext

theorem found_length_le : (found I).length ≤ 4 := by
  have hata := List.length_filterMap_le (foundAta I) [0, 1]
  have hatapi := List.length_filterMap_le (foundAtapi I) [0, 1]
  rw [found, List.length_append]
  simp only [List.length_cons, List.length_nil] at hata hatapi
  omega

/-- After the loops. -/
theorem registered_found :
    Registered malloc (found I)
      ([0, 1].foldl (initAtapi I malloc) ([0, 1].foldl (initAta I malloc) storageStart)) := by
  have hstart : Registered malloc [] storageStart := ⟨rfl, rfl, rfl⟩
  have hata : Registered malloc ([0, 1].filterMap (foundAta I))
      ([0, 1].foldl (initAta I malloc) storageStart) := by
    refine Registered.loop (fun s drive => ?_) [0, 1] [] _ hstart (by decide)
    unfold initAta foundAta
    cases I.ata drive <;> rfl
  refine Registered.loop (fun s drive => ?_) [0, 1] _ _ hata ?_
  · unfold initAtapi foundAtapi
    cases I.atapi drive <;> rfl
  · have hle := List.length_filterMap_le (foundAta I) [0, 1]
    exact (Nat.add_le_add_right hle _).trans (by decide)

/-- `storage_init` registers the drives it finds and, if there is one, a SATA drive. -/
theorem storageInit_devices :
    (storageInit I malloc).devices =
      (found I).mapIdx (FoundDrive.record malloc) ++
        if (found I).isEmpty then [] else [sataDevice] := by
  let s := [0, 1].foldl (initAtapi I malloc) ([0, 1].foldl (initAta I malloc) storageStart)
  have h : Registered malloc (found I) s := registered_found
  have hlen : s.devices.length < maxStorageDevices := by
    rw [h.devices, List.length_mapIdx]
    exact lt_of_le_of_lt found_length_le (by decide)
  have hrun : (storageInit I malloc).devices = (match s.sataTemp with
    | some dev => registerDevice dev s
    | none => s).devices := rfl
  rw [hrun, h.sataTemp]
  cases hempty : (found I).isEmpty with
  | true =>
    show s.devices = _ ++ []
    rw [List.append_nil]
    exact h.devices
  | false =>
    show (registerDevice sataDevice s).devices = _ ++ [sataDevice]
    rw [(registerDevice_of_lt hlen).1, h.devices]

/-- The pointer in the record after that of the `i`-th drive. -/
def nextPointer (I : Identify) (malloc : Nat → Word) (i : Nat) : Word :=
  if i + 1 < (found I).length then malloc (i + 1) else 0

theorem storageInit_record (i : Fin (found I).length) :
    (storageInit I malloc).devices[i.1]? = some (((found I).get i).record malloc i) := by
  rw [storageInit_devices, List.getElem?_append_left (by rw [List.length_mapIdx]; exact i.2),
    List.getElem?_mapIdx, List.getElem?_eq_getElem i.2]
  rfl

theorem storageInit_next (i : Fin (found I).length) :
    ∃ dev, (storageInit I malloc).devices[i.1 + 1]? = some dev ∧
      dev.deviceData = nextPointer I malloc i := by
  unfold nextPointer
  by_cases hlt : i.1 + 1 < (found I).length
  · exact ⟨_, storageInit_record ⟨i.1 + 1, hlt⟩, by rw [if_pos hlt]; rfl⟩
  · refine ⟨sataDevice, ?_, by rw [if_neg hlt]; rfl⟩
    have hi := i.2
    have hne : (found I).isEmpty = false := by
      rw [List.isEmpty_eq_false_iff, ← List.length_pos_iff]
      omega
    rw [storageInit_devices, hne, List.getElem?_append_right (by rw [List.length_mapIdx]; omega),
      List.length_mapIdx, show i.1 + 1 - (found I).length = 0 by omega]
    rfl

end Run

/-! ### Two readings of one record -/

/-- The sector size that `drive_read` gives to the reader it calls. -/
def StorageDevice.usedSize (device : StorageDevice) : Word :=
  match driveKind device.typeIdentifier with
  | .ata | .ataManual => (device.sectorSize.setWidth 16).setWidth 64
  | _ => device.sectorSize.setWidth 64

/-- `drive_read` calls the reader for the kind of drive that was found, which selects this
drive, with the sector size that was registered. -/
def Agrees (f : FoundDrive) (device : StorageDevice) : Prop :=
  device.typeIdentifier = f.typeIdentifier ∧
    ataGetIoAndHead device.driveNumber = ataGetIoAndHead f.drive ∧ device.usedSize = f.sectorSize

/-- The bits of a sector size that the reader keeps. -/
def sizeMask (typeIdentifier : Char) : Word := if typeIdentifier = 'P' then 0xFFFF else 0xFFFFFFFF

section Agree

variable {I : Identify} {malloc : Nat → Word}

theorem mem_found {f : FoundDrive} (hf : f ∈ found I) :
    (f.typeIdentifier = 'P' ∨ f.typeIdentifier = 'Q') ∧ f.drive < 2 := by
  have hdrive : ∀ d ∈ ([0, 1] : List (BitVec 8)), d < 2 := by decide
  rcases List.mem_append.mp hf with h | h
  · obtain ⟨d, hd, hfound⟩ := List.mem_filterMap.mp h
    obtain ⟨_, _, rfl⟩ := Option.map_eq_some_iff.mp hfound
    exact ⟨Or.inl rfl, hdrive d hd⟩
  · obtain ⟨d, hd, hfound⟩ := List.mem_filterMap.mp h
    obtain ⟨_, _, rfl⟩ := Option.map_eq_some_iff.mp hfound
    exact ⟨Or.inr rfl, hdrive d hd⟩

/-- On the primary channel the drive number is what the selection shows. -/
theorem ataGetIoAndHead_inj : ∀ x d : BitVec 8, d < 2 →
    (ataGetIoAndHead x = ataGetIoAndHead d ↔ x = d) := by
  have hzero : ∀ x : BitVec 8, ataGetIoAndHead x = ataGetIoAndHead 0 ↔ x = 0 := by decide
  have hone : ∀ x : BitVec 8, ataGetIoAndHead x = ataGetIoAndHead 1 ↔ x = 1 := by decide
  intro x d hd
  have hd' : d = 0 ∨ d = 1 := by
    have : ∀ d : BitVec 8, d < 2 → d = 0 ∨ d = 1 := by decide
    exact this d hd
  rcases hd' with rfl | rfl
  · exact hzero x
  · exact hone x

theorem setWidth_mask (v : Word) :
    ((v.setWidth 32).setWidth 16).setWidth 64 = v &&& 0xFFFF ∧
      (v.setWidth 32).setWidth 64 = v &&& 0xFFFFFFFF := by
  constructor
  · apply BitVec.eq_of_toNat_eq
    simp only [BitVec.toNat_setWidth, BitVec.toNat_and]
    have : (0xFFFF : Word).toNat = 2 ^ 16 - 1 := rfl
    rw [this, Nat.and_two_pow_sub_one_eq_mod]
    omega
  · apply BitVec.eq_of_toNat_eq
    simp only [BitVec.toNat_setWidth, BitVec.toNat_and]
    have : (0xFFFFFFFF : Word).toNat = 2 ^ 32 - 1 := rfl
    rw [this, Nat.and_two_pow_sub_one_eq_mod]
    omega

theorem usedSize_eq {device : StorageDevice} {v : Word} (hsize : device.sectorSize = v.setWidth 32)
    (htype : device.typeIdentifier = 'P' ∨ device.typeIdentifier = 'Q') :
    device.usedSize = v &&& sizeMask device.typeIdentifier := by
  unfold StorageDevice.usedSize sizeMask
  rw [hsize]
  rcases htype with h | h
  · rw [h]
    exact (setWidth_mask v).1
  · rw [h]
    exact (setWidth_mask v).2

/-- **The record of a drive is read as it was written** exactly when the pointers happen to
hold the drive number and the sector size. -/
theorem agrees_iff (I : Identify) (malloc : Nat → Word) (i : Fin (found I).length) :
    Agrees ((found I).get i) (asStorageDevice (storageInit I malloc).devices i) ↔
      (malloc i).setWidth 8 = ((found I).get i).drive ∧
        nextPointer I malloc i &&& sizeMask ((found I).get i).typeIdentifier =
          ((found I).get i).sectorSize := by
  obtain ⟨htype, hdrive⟩ := mem_found ((found I).get_mem i)
  have hrecord : (storageInit I malloc).devices[i.1]? = some _ := storageInit_record i
  obtain ⟨next, hnext, hpointer⟩ : ∃ dev, (storageInit I malloc).devices[i.1 + 1]? = some dev ∧ _ :=
    storageInit_next i
  have hkind := asStorageDevice_typeIdentifier hrecord htype
  have hnumber := asStorageDevice_driveNumber hrecord
  have hsize := asStorageDevice_sectorSize hnext
  rw [hpointer] at hsize
  have hused := usedSize_eq hsize (hkind ▸ htype)
  unfold Agrees
  rw [ataGetIoAndHead_inj _ _ hdrive, hused, hkind, hnumber]
  exact and_iff_right rfl

/-- What `drive_read` does with a record that agrees. -/
theorem driveRead_of_agrees {σ : Type*} (B : Bus σ) (M : Mmio σ) (fuel : Nat)
    (virtToPhys : Word → Word) (portMem : Word) {f : FoundDrive} (hf : f ∈ found I)
    {device : StorageDevice} (h : Agrees f device) (lba : Word) (count : BitVec 32) (buf : Word)
    (io : Io σ) :
    driveRead B M fuel virtToPhys portMem device lba count buf io =
      some (if f.typeIdentifier = 'P' then
        ataReadSectorAuto B lba (count.setWidth 16) buf f.drive (f.sectorSize.setWidth 16) io
      else
        atapiReadSector B (lba.setWidth 32) (count.setWidth 16) buf f.drive
          (f.sectorSize.setWidth 32) io) := by
  obtain ⟨htype, hdrive⟩ := mem_found hf
  obtain ⟨hkind, hselect, hsize⟩ := h
  rw [ataGetIoAndHead_inj _ _ hdrive] at hselect
  unfold driveRead
  unfold StorageDevice.usedSize at hsize
  rw [hkind] at hsize ⊢
  rw [← hsize, hselect]
  rcases htype with ht | ht
  · rw [ht]
    simp [driveKind]
  · rw [ht]
    simp [driveKind]

end Agree

/-- One ATA drive, the master of the primary channel. -/
def exampleIdentify : Identify where
  ata drive := if drive = 0 then some [0x0040] else none
  atapi _ := none

/-- A block of the kernel heap. -/
def exampleMalloc : Nat → Word := fun i => 0xFFFFFFFF80100410 + 0x210 * BitVec.ofNat 64 i

/-- The read goes to the drive number `0x10`, on the secondary channel, with sectors of no
bytes. -/
theorem exampleIdentify_not_agrees :
    ¬∀ (I : Identify) (malloc : Nat → Word) (i : Fin (found I).length),
      Agrees ((found I).get i) (asStorageDevice (storageInit I malloc).devices i) := by
  intro h
  have hagree := h exampleIdentify exampleMalloc ⟨0, by decide⟩
  exact absurd hagree.2.1 (by decide)

end AncoreOS.Drivers
