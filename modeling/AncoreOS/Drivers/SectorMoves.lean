import AncoreOS.Drivers.AtaRecord
import AncoreOS.Drivers.Storage

/-!
# The words that a read moves

A request for `count` sectors of `size` bytes from `lba` on is a list of words: the word
`n` of it is the word `n % wps` of the sector `lba + n / wps`, where a sector has
`wps = (size + 1) / 2` words, and its place is in the slot of this sector in the buffer
(`needed`).  On the other side stands what a log says has been moved: for the ATA drives
and the packet devices the words that the driver stored after each command
(`ataMoves`, `packetMoves`), for AHCI what the device reports (`dmaMoves`).

The order and the places of the words that the loops of the readers store are given in
closed form (`readFills_eq`, `atapiFills`).
-/

namespace AncoreOS.Drivers

open ByteMemory

/-! ### What is asked for -/

/-- The word `n` of a request. -/
def neededAt (lba size : Nat) (buf : Word) (n : Nat) : SectorMove :=
  let wps := (size + 1) / 2
  let offset := n / wps * size + 2 * (n % wps)
  ⟨lba + n / wps, n % wps, buf + BitVec.ofNat 64 offset, buf + BitVec.ofNat 64 (offset + 1)⟩

def needed (lba count size : Nat) (buf : Word) : List SectorMove :=
  (List.range (count * ((size + 1) / 2))).map (neededAt lba size buf)

/-! ### What has been moved -/

/-- The words stored after a command for `told` sectors from `lba` on. -/
def movesOf (wps lba told : Nat) (fills : List (Word × Word)) : List SectorMove :=
  (fills.take (told * wps)).zipIdx.map fun (f, n) => ⟨lba + n / wps, n % wps, f.1, f.2⟩

def AtaRun.moves (wps : Nat) (r : AtaRun) : List SectorMove :=
  movesOf wps r.command.lba r.command.told r.fills

def ataMoves (wps : Nat) (base : BitVec 16) (log : List IoEvent) : List SectorMove :=
  (ataRecord base log).runs.reverse.flatMap (AtaRun.moves wps)

/-- A PACKET command, the words sent to the data port and the addresses filled after it,
in order. -/
structure PacketRun where
  packet : List (BitVec 16)
  fills : List (Word × Word)
  deriving DecidableEq, Repr

/-- The PACKET commands of a log, latest first. -/
def packetRuns (base : BitVec 16) : List IoEvent → List PacketRun
  | [] => []
  | .outb port v :: log =>
    if port - base = ataRegCommand ∧ v = atapiCmdPacket then ⟨[], []⟩ :: packetRuns base log
    else packetRuns base log
  | .outw port v :: log =>
    if port - base = ataRegData then
      (packetRuns base log).modifyHead (fun r => { r with packet := r.packet ++ [v] })
    else packetRuns base log
  | .fill lo hi :: log =>
    (packetRuns base log).modifyHead (fun r => { r with fills := r.fills ++ [(lo, hi)] })
  | _ :: log => packetRuns base log

/-- The address and the count of a `READ(10)` packet. -/
def PacketRun.read10 (r : PacketRun) : Option (Nat × Nat) :=
  match r.packet with
  | [w0, w1, w2, w3, w4, _] =>
    if w0.toNat % 256 = 0x28 then
      some (2 ^ 24 * (w1.toNat % 256) + 2 ^ 16 * (w1.toNat / 256) + 2 ^ 8 * (w2.toNat % 256) +
        w2.toNat / 256, 2 ^ 8 * (w3.toNat / 256) + w4.toNat % 256)
    else none
  | _ => none

def PacketRun.moves (wps : Nat) (r : PacketRun) : List SectorMove :=
  match r.read10 with
  | some (lba, told) => movesOf wps lba told r.fills
  | none => []

def packetMoves (wps : Nat) (base : BitVec 16) (log : List IoEvent) : List SectorMove :=
  (packetRuns base log).reverse.flatMap (PacketRun.moves wps)

/-- What a device behind registers says it has moved. -/
def dmaMoves (log : List IoEvent) : List SectorMove :=
  log.reverse.filterMap fun
    | .dma m => some m
    | _ => none

/-- What has been moved for a device. -/
def StorageDevice.moves (device : StorageDevice) (log : List IoEvent) : List SectorMove :=
  let wps := (device.sectorSize.toNat + 1) / 2
  match driveKind device.typeIdentifier with
  | .ata => ataMoves wps (ataGetIoAndHead device.driveNumber).1 log
  | .ataManual => ataMoves wps device.pmioBase log
  | .atapi => packetMoves wps (ataGetIoAndHead device.driveNumber).1 log
  | .atapiManual => packetMoves wps device.pmioBase log
  | .sata | .satapi | .unknown => dmaMoves log

/-! ### Lists of moves -/

/-- The places of `n` words from the word `k` of the buffer on. -/
def atapiFills (buf : Word) (k n : Nat) : List (Word × Word) :=
  (List.range n).map (fun m => (wordIndex buf (k + m), wordIndex buf (k + m) + 1))

theorem atapiFills_succ (buf : Word) (k n : Nat) :
    atapiFills buf k (n + 1) = (wordIndex buf k, wordIndex buf k + 1) :: atapiFills buf (k + 1) n := by
  unfold atapiFills
  rw [List.range_succ_eq_map, List.map_cons, List.map_map]
  congr 1
  apply List.map_congr_left
  intro m _
  rw [Function.comp_apply, show k + m.succ = k + 1 + m by omega]

theorem atapiFills_add (buf : Word) (k a b : Nat) :
    atapiFills buf k (a + b) = atapiFills buf k a ++ atapiFills buf (k + a) b := by
  unfold atapiFills
  rw [List.range_add, List.map_append, List.map_map]
  congr 1
  apply List.map_congr_left
  intro m _
  rw [Function.comp_apply, Nat.add_assoc]

section Packet

variable {σ : Type*} (B : Bus σ) {base : BitVec 16}

theorem packetRuns_outb (io : Io σ) {reg : BitVec 16} (v : BitVec 8) (hreg : reg ≠ ataRegCommand) :
    packetRuns base (io.outb B (base + reg) v).log = packetRuns base io.log := by
  simp only [Io.outb, packetRuns, port_sub, hreg, false_and, if_false]

theorem packetRuns_outw (io : Io σ) (v : BitVec 16) {packet : List (BitVec 16)}
    {fills : List (Word × Word)} {rest : List PacketRun}
    (h : packetRuns base io.log = ⟨packet, fills⟩ :: rest) :
    packetRuns base (io.outw B (base + ataRegData) v).log = ⟨packet ++ [v], fills⟩ :: rest := by
  simp only [Io.outw, packetRuns, port_sub, if_true, h, List.modifyHead_cons]

theorem ataWaitReady_packetRuns {needsDrq : Bool} {io io' : Io σ} {r : Int}
    (h : ataWaitReady B base needsDrq io = (r, io')) :
    packetRuns base io'.log = packetRuns base io.log :=
  ataWaitReady_log B (packetRuns base) (fun _ _ _ => rfl) h

/-- The words that `outsw` sends. -/
def packetWords : List (BitVec 8) → List (BitVec 16)
  | lo :: hi :: rest => (lo.setWidth 16 ||| hi.setWidth 16 <<< 8) :: packetWords rest
  | _ => []

variable {fills : List (Word × Word)} {rest : List PacketRun}

theorem outsw_packetRuns (bytes : List (BitVec 8)) : ∀ (packet : List (BitVec 16)) (io : Io σ),
    packetRuns base io.log = ⟨packet, fills⟩ :: rest →
    packetRuns base (outsw B (base + ataRegData) bytes io).log =
      ⟨packet ++ packetWords bytes, fills⟩ :: rest := by
  induction bytes using packetWords.induct with
  | case1 lo hi bytes ih =>
    intro packet io h
    rw [outsw, packetWords, ih _ _ (packetRuns_outw B io _ h), List.append_assoc]
    rfl
  | case2 bytes hshort =>
    intro packet io h
    rw [outsw, packetWords, List.append_nil]
    · exact h
    · exact hshort
    · exact hshort

variable (buf : Word) (half : Nat) {packet : List (BitVec 16)}

theorem atapiReadWords_packetRuns (s : Nat) :
    ∀ (n i : Nat) (fills : List (Word × Word)) (io : Io σ),
      packetRuns base io.log = ⟨packet, fills⟩ :: rest →
      packetRuns base (atapiReadWords B base buf half s n i io).log =
        ⟨packet, fills ++ atapiFills buf (s * half + i) n⟩ :: rest := by
  intro n
  induction n with
  | zero =>
    intro i fills io h
    rw [show atapiFills buf (s * half + i) 0 = [] from rfl, List.append_nil]
    exact h
  | succ n ih =>
    intro i fills io h
    rw [atapiReadWords]
    dsimp only
    rw [ih (i + 1) (fills ++ [(wordIndex buf (s * half + i), wordIndex buf (s * half + i) + 1)])]
    · rw [atapiFills_succ, List.append_assoc, List.singleton_append, Nat.add_assoc]
    · simp only [Io.fill, Io.inw, packetRuns, h, List.modifyHead_cons]

theorem atapiReadLoop_packetRuns :
    ∀ (n s : Nat) (fills : List (Word × Word)) (io io' : Io σ),
      packetRuns base io.log = ⟨packet, fills⟩ :: rest →
      atapiReadLoop B base buf half n s io = (0, io') →
      packetRuns base io'.log = ⟨packet, fills ++ atapiFills buf (s * half) (n * half)⟩ :: rest := by
  intro n
  induction n with
  | zero =>
    intro s fills io io' h hrun
    obtain rfl : io = io' := (Prod.mk.inj hrun).2
    rw [Nat.zero_mul, show atapiFills buf (s * half) 0 = [] from rfl, List.append_nil]
    exact h
  | succ n ih =>
    intro s fills io io' h hrun
    rw [atapiReadLoop] at hrun
    obtain ⟨io₁, hwait, hrest⟩ := of_checked_eq_zero (fun _ _ => by decide) hrun
    rw [← ataWaitReady_packetRuns B hwait] at h
    have hwords := atapiReadWords_packetRuns B buf half s half 0 fills io₁ h
    rw [ih (s + 1) _ _ io' hwords hrest, Nat.succ_mul, Nat.succ_mul, Nat.add_comm (n * half) half,
      atapiFills_add, List.append_assoc, Nat.add_zero]

theorem atapiIssue_packetRuns (io : Io σ) :
    packetRuns base (atapiIssue B base io).log = ⟨[], []⟩ :: packetRuns base io.log := by
  have hcommand : ∀ io : Io σ,
      packetRuns base (io.outb B (base + ataRegCommand) atapiCmdPacket).log =
        ⟨[], []⟩ :: packetRuns base io.log := by
    intro io
    simp only [Io.outb, packetRuns, port_sub, and_self, if_true]
  simp only [atapiIssue, hcommand,
    packetRuns_outb _ _ _ (show ataRegFeatures ≠ ataRegCommand by decide),
    packetRuns_outb _ _ _ (show ataRegSeccount ≠ ataRegCommand by decide),
    packetRuns_outb _ _ _ (show ataRegLbaLow ≠ ataRegCommand by decide),
    packetRuns_outb _ _ _ (show ataRegLbaMid ≠ ataRegCommand by decide),
    packetRuns_outb _ _ _ (show ataRegLbaHigh ≠ ataRegCommand by decide)]

theorem atapiWaitPacket_packetRuns {io io' : Io σ} {r : Int}
    (h : atapiWaitPacket B base io = (r, io')) :
    packetRuns base io'.log = packetRuns base io.log := by
  rcases hwait : ataWaitReady B base true io with ⟨r', io₁⟩
  rw [atapiWaitPacket, hwait] at h
  have hlog := ataWaitReady_packetRuns B hwait
  dsimp only at h
  split at h
  · rw [← (Prod.mk.inj h).2]
    exact hlog
  · rw [← (Prod.mk.inj h).2]
    exact hlog

/-- **A packet reader that returns `0` has given exactly this command**, whatever the
device does. -/
theorem atapiReadAt_packetRuns {lba : BitVec 32} {count : BitVec 16} {drive : BitVec 8}
    {size : BitVec 32} {io io' : Io σ}
    (h : atapiReadAt B base lba count buf drive size io = (0, io')) :
    packetRuns base io'.log =
      ⟨packetWords (buildRead10AtapiCmd lba count),
        atapiFills buf 0 (count.toNat * (size.toNat / 2))⟩ :: packetRuns base io.log := by
  rw [atapiReadAt] at h
  obtain ⟨io₁, hwait, hrest⟩ := of_checked_eq_zero (fun _ _ => by decide) h
  obtain ⟨io₂, hpacket, hloop⟩ := of_checked_eq_zero (fun _ _ => by decide) hrest
  have hissued : packetRuns base io₂.log = ⟨[], []⟩ :: packetRuns base io.log := by
    rw [atapiWaitPacket_packetRuns B hpacket, atapiIssue_packetRuns, ataWaitReady_packetRuns B hwait,
      packetRuns_outb _ _ _ (by decide)]
  have hsent := outsw_packetRuns B (buildRead10AtapiCmd lba count) [] io₂ hissued
  rw [atapiReadLoop_packetRuns B buf _ _ 0 [] _ io' hsent hloop, Nat.zero_mul, List.nil_append,
    List.nil_append]

end Packet

end AncoreOS.Drivers
