import AncoreOS.Drivers.Ata

/-!
# A drive that follows the ATA rules

The other side of the ports, as the ATA standard describes it and independent of
the driver.  `Taskfile` is the register file of a channel: the sector count and
the three address registers are two deep, so that a 48-bit command finds the
first byte written to each below the second.  `Taskfile.command` reads a command
from it: 28-bit addresses are `head[3:0]:high:mid:low`, and a count of zero means
256 sectors, or 65536 for a 48-bit command.

`AtaDrive` is a channel with two drives, and `ataBus` its answers.  How long the
drive is busy, and the bits of the status register that the standard leaves open
here, are arbitrary (`Timing`); the error bit is never set.
-/

namespace AncoreOS.Drivers

open ByteMemory

/-! ### The registers -/

/-- A register that is two deep. -/
structure TwoDeep where
  prev : BitVec 8
  cur : BitVec 8
  deriving DecidableEq, Repr

def TwoDeep.write (r : TwoDeep) (v : BitVec 8) : TwoDeep := ⟨r.cur, v⟩

structure Taskfile where
  count : TwoDeep
  low : TwoDeep
  mid : TwoDeep
  high : TwoDeep
  head : BitVec 8
  deriving DecidableEq, Repr

/-- A data command, as the drive understands it. -/
structure AtaCommand where
  ext : Bool
  write : Bool
  slave : Bool
  lba : Nat
  told : Nat
  deriving DecidableEq, Repr

namespace Taskfile

/-- A write to the register at an offset from the base port. -/
def write (t : Taskfile) (reg : BitVec 16) (v : BitVec 8) : Taskfile :=
  if reg = ataRegSeccount then { t with count := t.count.write v }
  else if reg = ataRegLbaLow then { t with low := t.low.write v }
  else if reg = ataRegLbaMid then { t with mid := t.mid.write v }
  else if reg = ataRegLbaHigh then { t with high := t.high.write v }
  else if reg = ataRegDriveHead then { t with head := v }
  else t

variable (t : Taskfile) (v : BitVec 8)

@[simp] theorem write_seccount :
    t.write ataRegSeccount v = { t with count := t.count.write v } := rfl

@[simp] theorem write_lbaLow : t.write ataRegLbaLow v = { t with low := t.low.write v } := rfl

@[simp] theorem write_lbaMid : t.write ataRegLbaMid v = { t with mid := t.mid.write v } := rfl

@[simp] theorem write_lbaHigh : t.write ataRegLbaHigh v = { t with high := t.high.write v } := rfl

@[simp] theorem write_driveHead : t.write ataRegDriveHead v = { t with head := v } := rfl

def lba28 (t : Taskfile) : Nat :=
  t.low.cur.toNat + 2 ^ 8 * t.mid.cur.toNat + 2 ^ 16 * t.high.cur.toNat +
    2 ^ 24 * (t.head.toNat % 16)

def lba48 (t : Taskfile) : Nat :=
  t.low.cur.toNat + 2 ^ 8 * t.mid.cur.toNat + 2 ^ 16 * t.high.cur.toNat +
    2 ^ 24 * t.low.prev.toNat + 2 ^ 32 * t.mid.prev.toNat + 2 ^ 40 * t.high.prev.toNat

def told28 (t : Taskfile) : Nat := if t.count.cur = 0 then 256 else t.count.cur.toNat

def told48 (t : Taskfile) : Nat :=
  if t.count.prev = 0 ∧ t.count.cur = 0 then 65536
  else t.count.cur.toNat + 2 ^ 8 * t.count.prev.toNat

def slave (t : Taskfile) : Bool := t.head.getLsbD 4

/-- The data command that a value written to the command register starts. -/
def command (t : Taskfile) (v : BitVec 8) : Option AtaCommand :=
  if v = ataCmdReadSectors then some ⟨false, false, t.slave, t.lba28, t.told28⟩
  else if v = ataCmdWriteSectors then some ⟨false, true, t.slave, t.lba28, t.told28⟩
  else if v = ataCmdReadSectorsExt then some ⟨true, false, t.slave, t.lba48, t.told48⟩
  else if v = ataCmdWriteSectorsExt then some ⟨true, true, t.slave, t.lba48, t.told48⟩
  else none

end Taskfile

/-! ### The channel -/

/-- What is left open about the drive: how many status reads it stays busy, fewer
than the driver waits, and the remaining status bits. -/
structure Timing where
  delay : Nat → Nat
  delay_lt : ∀ n, delay n < 100000
  other : Nat → BitVec 8

/-- A channel with two drives.  `data` is the transfer in progress with the number
of words it has moved, and `media slave lba k` the word `k` of a sector. -/
structure AtaDrive where
  tf : Taskfile
  media : Bool → Nat → Nat → BitVec 16
  busy : Nat
  data : Option (AtaCommand × Nat)
  tick : Nat

namespace AtaDrive

variable (T : Timing) (w : Nat)

/-- While the drive is busy the data request bit means nothing. -/
def status (d : AtaDrive) : BitVec 8 :=
  if d.busy = 0 then (T.other d.tick &&& 0x76) ||| (if d.data.isSome then 0x08 else 0)
  else (T.other d.tick &&& 0x7E) ||| 0x80

/-- The word `n` of a transfer has been moved: between sectors, and after the last
one, the drive may be busy. -/
def moved (d : AtaDrive) (c : AtaCommand) (n : Nat) : AtaDrive :=
  if n + 1 = c.told * w then { d with data := none, busy := T.delay d.tick, tick := d.tick + 1 }
  else if (n + 1) % w = 0 then
    { d with data := some (c, n + 1), busy := T.delay d.tick, tick := d.tick + 1 }
  else { d with data := some (c, n + 1) }

def outb (d : AtaDrive) (reg : BitVec 16) (v : BitVec 8) : AtaDrive :=
  if reg = ataRegCommand then
    { d with
      data := (d.tf.command v).map (·, 0)
      busy := T.delay d.tick
      tick := d.tick + 1 }
  else { d with tf := d.tf.write reg v }

def inb (d : AtaDrive) (reg : BitVec 16) : BitVec 8 × AtaDrive :=
  if reg = ataRegStatus then (d.status T, { d with busy := d.busy - 1, tick := d.tick + 1 })
  else (0, d)

/-- A sector of the drive has `w` words. -/
def inw (d : AtaDrive) (reg : BitVec 16) : BitVec 16 × AtaDrive :=
  match d.data with
  | some (c, n) =>
    if reg = ataRegData ∧ d.busy = 0 ∧ c.write = false then
      (d.media c.slave (c.lba + n / w) (n % w), d.moved T w c n)
    else (0xFFFF, d)
  | none => (0xFFFF, d)

def outw (d : AtaDrive) (reg v : BitVec 16) : AtaDrive :=
  match d.data with
  | some (c, n) =>
    if reg = ataRegData ∧ d.busy = 0 ∧ c.write = true then
      { d with media := fun slave lba k =>
          if slave = c.slave ∧ lba = c.lba + n / w ∧ k = n % w then v else d.media slave lba k
        }.moved T w c n
    else d
  | none => d

end AtaDrive

/-- The channel at the base port `base`, with sectors of `w` words. -/
def ataBus (T : Timing) (w : Nat) (base : BitVec 16) : Bus AtaDrive where
  inb d port := d.inb T (port - base)
  outb d port v := d.outb T (port - base) v
  inw d port := d.inw T w (port - base)
  outw d port v := d.outw T w (port - base) v

end AncoreOS.Drivers
