import AncoreOS.Drivers.AhciTable
import AncoreOS.Library.ByteStore

/-!
# How far the commands go

`ct` has room for `504` entries behind the fixed part of a table, and the field `dbc` for
4 MiB.  The sector reader takes one entry for 16 sectors and does not look at the room, and
the packet reader puts all sectors into one entry and cuts its length to the field.
-/

namespace AncoreOS.Drivers

open ByteMemory ByteStore

/-- `sizeof` of the area `ct`. -/
def ahciCtSize : Nat := 256 * 32

/-! ### Entries of the sector reader -/

/-- In some state the byte at `x` is changed. -/
def Writes (f : ∀ σ : Type, Io σ → Io σ) (x : Word) : Prop :=
  ∃ (σ : Type) (io : Io σ), (f σ io).mem x ≠ io.mem x

/-- Every entry that the command of the sector reader writes is inside of `ct`, and every
byte inside of the allocation. -/
def StaysInTable (portMem lba : Word) (sectorCount : BitVec 16) (buffer : Word) : Prop :=
  let command := fun (σ : Type) (io : Io σ) => sataReadCommand portMem lba sectorCount buffer io
  (∀ i < 2 ^ 31, (∃ x, InRange (entryAddress (portMem + ahciCt) i) 16 x ∧ Writes command x) →
    128 + 16 * (i + 1) ≤ ahciCtSize) ∧
  ∀ x, Writes command x → InRange portMem ahciPortMemSize x

section Reader

variable (portMem lba : Word) (count : BitVec 16) (buffer : Word)

/-- The command goes to the end of its last entry. -/
theorem sataReadCommand_sameOutside {σ : Type*} (io : Io σ) :
    SameOutside portMem (1280 + (128 + 16 * ((count.toNat + 15) / 16 - 1 + 1))) io.mem
      (sataReadCommand portMem lba count buffer io).mem := by
  have hlt := count.isLt
  have hheader := cmdHeader_sameOutside portMem (portMem + ahciCt) 5 ((count.toNat + 15) / 16) io
  have hprdt := readPrdt_sameOutside portMem count buffer io
  have hfis := readFis_sameOutside (portMem + ahciCt) lba count (readPrdt portMem count buffer io)
  rw [sataReadCommand_eq]
  refine SameOutside.trans ?_ (SameOutside.of_part (o := 1280) hfis (by omega) (by omega))
  refine SameOutside.trans ?_ (SameOutside.of_part (o := 1280) hprdt (by omega) (by omega))
  exact hheader.mono (by omega)

theorem inRange_of_writes {x : Word}
    (h : Writes (fun _ io => sataReadCommand portMem lba count buffer io) x) :
    InRange portMem (1280 + (128 + 16 * ((count.toNat + 15) / 16 - 1 + 1))) x := by
  obtain ⟨σ, io, hne⟩ := h
  by_contra hnot
  exact hne (sataReadCommand_sameOutside portMem lba count buffer io x hnot)

/-- The last entry is written. -/
theorem writes_last {last : Nat} (hlast : (count.toNat + 15) / 16 = last + 1) :
    ∃ x, InRange (entryAddress (portMem + ahciCt) last) 16 x ∧
      Writes (fun _ io => sataReadCommand portMem lba count buffer io) x := by
  have hlt := count.isLt
  -- in an empty memory the entry has the length 1
  let io : Io Unit := ⟨(), fun _ => 0, 0, 0, []⟩
  let m := (sataReadCommand portMem lba count buffer io).mem
  have hne : load m (entryAddress (portMem + ahciCt) last + 12) 4 ≠
      load io.mem (entryAddress (portMem + ahciCt) last + 12) 4 := by
    intro heq
    have hlength : (prdtRegion m (portMem + ahciCt) last).2 =
        (prdtRegion io.mem (portMem + ahciCt) last).2 := by
      simp only [prdtRegion, heq]
    rw [(prdtRegion_sataReadCommand portMem lba buffer io hlast).2] at hlength
    have hempty : (prdtRegion io.mem (portMem + ahciCt) last).2 = 1 := rfl
    rw [hempty] at hlength
    omega
  obtain ⟨x, hx, hchange⟩ := SameOutside.exists_ne_of_load_ne (by decide) hne
  exact ⟨x, InRange.of_offset (o := 12) hx (by decide) (by decide), Unit, io, hchange⟩

/-- The entry with the number 504 is behind the room. -/
theorem not_staysInTable (hcount : 8064 < count.toNat) :
    ¬StaysInTable portMem lba count buffer := by
  intro h
  have hlt := count.isLt
  obtain ⟨last, hlast⟩ : ∃ last, (count.toNat + 15) / 16 = last + 1 :=
    Nat.exists_eq_succ_of_ne_zero (by omega)
  have hroom := h.1 last (by omega) (writes_last portMem lba count buffer hlast)
  rw [ahciCtSize] at hroom
  omega

/-- **The counts for which the command stays in its memory.** -/
theorem sata_read_in_table_iff :
    StaysInTable portMem lba count buffer ↔ count.toNat ≤ 8064 := by
  have hlt := count.isLt
  constructor
  · intro h
    by_contra hlarge
    exact not_staysInTable portMem lba count buffer (by omega) h
  · intro hcount
    refine ⟨fun i hi ⟨x, hx, hwrites⟩ => ?_, fun x hwrites => ?_⟩
    · have hin := inRange_of_writes portMem lba count buffer hwrites
      obtain ⟨j, hj, rfl⟩ := eq_add_of_inRange hx
      rw [entryAddress_add, show ahciCt = BitVec.ofNat 64 1280 from rfl, BitVec.add_assoc,
        ← BitVec.ofNat_add, InRange, add_ofNat_sub_toNat portMem (by omega)] at hin
      rw [ahciCtSize]
      omega
    · refine (inRange_of_writes portMem lba count buffer hwrites).mono ?_
      rw [ahciPortMemSize]
      omega

/-- 8065 sectors take one entry more than there is room for. -/
theorem exampleCount_leaves_table : ¬StaysInTable 0x2000 0 8065 0x100000 :=
  not_staysInTable 0x2000 0 8065 0x100000 (by decide)

end Reader

/-! ### The length of a packet command -/

/-- The address and the count of a `READ(10)` packet in memory. -/
def read10At (m : Mem) (a : Word) : Option (Nat × Nat) :=
  if m a = 0x28 then
    some (2 ^ 24 * (m (a + 2)).toNat + 2 ^ 16 * (m (a + 3)).toNat + 2 ^ 8 * (m (a + 4)).toNat +
      (m (a + 5)).toNat, 2 ^ 8 * (m (a + 7)).toNat + (m (a + 8)).toNat)
  else none

/-- The only region of the packet reader's command is as long as what the packet asks for. -/
def LengthsAgree (virtToPhys : Word → Word) (portMem : Word) (lba : BitVec 32)
    (sectorCount : BitVec 16) (buffer : Word) : Prop :=
  ∀ (σ : Type) (io : Io σ),
    let m := (satapiReadCommand virtToPhys portMem lba sectorCount buffer io).mem
    prdtLength m portMem = 1 ∧
      read10At m (portMem + ahciCt + 64) = some (lba.toNat, sectorCount.toNat) ∧
      (prdtRegion m (portMem + ahciCt) 0).2 = 2048 * sectorCount.toNat

section Packet

variable {σ : Type*}

theorem pokeBytes_sameOutside : ∀ (bytes : List (BitVec 8)) (a : Word) (io : Io σ),
    bytes.length ≤ 2 ^ 64 → SameOutside a bytes.length io.mem (pokeBytes a bytes io).mem := by
  intro bytes
  induction bytes with
  | nil => exact fun a io _ => SameOutside.refl _ _ _
  | cons b rest ih =>
    intro a io hlen
    rw [List.length_cons] at hlen ⊢
    have hfirst := (SameOutside.store io.mem a 1 b.toNat).mono (show 1 ≤ rest.length + 1 by omega)
    have hrest := ih (a + 1) (io.poke a 1 b.toNat) (by omega)
    exact hfirst.trans (SameOutside.of_part (o := 1) hrest (by omega) hlen)

/-- The packet reads back. -/
theorem read10At_pokeBytes (a : Word) (lba : BitVec 32) (count : BitVec 16) (io : Io σ) :
    read10At (pokeBytes a (buildRead10AtapiCmd lba count) io).mem a =
      some (lba.toNat, count.toNat) := by
  have hlba := lba.isLt
  have hcount := count.isLt
  have hbytes : read10At (pokeBytes a (buildRead10AtapiCmd lba count) io).mem a =
      some (2 ^ 24 * (lba.toNat / 2 ^ 24 % 256) + 2 ^ 16 * (lba.toNat / 2 ^ 16 % 256) +
        2 ^ 8 * (lba.toNat / 2 ^ 8 % 256) + lba.toNat % 256,
        2 ^ 8 * (count.toNat / 2 ^ 8 % 256) + count.toNat % 256) := by
    simp [read10At, pokeBytes, buildRead10AtapiCmd, store_one, Io.poke, BitVec.add_assoc,
      Nat.shiftRight_eq_div_pow]
  rw [hbytes]
  congr 2 <;> omega

/-- What is before the packet does not matter. -/
theorem read10At_of_sameOutside {m m' : Mem} {ct : Word} (h : SameOutside ct 20 m m') :
    read10At m' (ct + 64) = read10At m (ct + 64) := by
  have hbyte : ∀ k : Nat, k < 16 →
      m' (ct + 64 + BitVec.ofNat 64 k) = m (ct + 64 + BitVec.ofNat 64 k) := by
    intro k hk
    refine h _ fun hin => ?_
    rw [show (64 : Word) = BitVec.ofNat 64 64 from rfl, BitVec.add_assoc, ← BitVec.ofNat_add,
      InRange, add_ofNat_sub_toNat ct (by omega)] at hin
    omega
  have hfirst : m' (ct + 64) = m (ct + 64) := by simpa using hbyte 0 (by decide)
  have h2 : m' (ct + 64 + 2) = m (ct + 64 + 2) := hbyte 2 (by decide)
  have h3 : m' (ct + 64 + 3) = m (ct + 64 + 3) := hbyte 3 (by decide)
  have h4 : m' (ct + 64 + 4) = m (ct + 64 + 4) := hbyte 4 (by decide)
  have h5 : m' (ct + 64 + 5) = m (ct + 64 + 5) := hbyte 5 (by decide)
  have h7 : m' (ct + 64 + 7) = m (ct + 64 + 7) := hbyte 7 (by decide)
  have h8 : m' (ct + 64 + 8) = m (ct + 64 + 8) := hbyte 8 (by decide)
  simp only [read10At, hfirst, h2, h3, h4, h5, h7, h8]

variable (virtToPhys : Word → Word) (portMem : Word) (lba : BitVec 32) (count : BitVec 16)
  (buffer : Word) (io : Io σ)

/-- The command without its packet and its FIS. -/
def satapiPrdt (virtToPhys : Word → Word) (portMem : Word) (sectorCount : BitVec 16)
    (buffer : Word) (io : Io σ) : Io σ :=
  let ct := portMem + ahciCt
  let byteCount := BitVec.ofNat 32 (sectorCount.toNat * 2048)
  prdtEntry ct 0 (virtToPhys buffer) (byteCount - 1)
    (cmdHeader portMem (virtToPhys ct) (5 ||| 32) 1 io)

theorem satapiReadCommand_sameOutside :
    SameOutside (portMem + ahciCt) 128 (satapiPrdt virtToPhys portMem count buffer io).mem
      (satapiReadCommand virtToPhys portMem lba count buffer io).mem := by
  have hfis := cmdFis_sameOutside (σ := σ) (portMem + ahciCt) 0xA0 0xA0
  have hpacket := pokeBytes_sameOutside (σ := σ) (buildRead10AtapiCmd lba count)
    (portMem + ahciCt + 64)
  refine SameOutside.trans ?_ ((hfis _).mono (by decide))
  have hlength : (buildRead10AtapiCmd lba count).length = 12 := rfl
  rw [hlength] at hpacket
  refine SameOutside.trans ?_
    (SameOutside.of_part (o := 64) (hpacket _ (by decide)) (by decide) (by decide))
  exact SameOutside.of_part (o := 64) (SameOutside.fill _ _ 16 0) (by decide) (by decide)

theorem read10At_satapiReadCommand :
    read10At (satapiReadCommand virtToPhys portMem lba count buffer io).mem (portMem + ahciCt + 64) =
      some (lba.toNat, count.toNat) := by
  rw [satapiReadCommand, read10At_of_sameOutside (cmdFis_sameOutside _ _ _ _), read10At_pokeBytes]

theorem prdtRegion_satapiReadCommand :
    (prdtRegion (satapiReadCommand virtToPhys portMem lba count buffer io).mem
      (portMem + ahciCt) 0).2 = (BitVec.ofNat 32 (count.toNat * 2048) - 1).toNat % 2 ^ 22 + 1 := by
  rw [prdtRegion_of_fixed (satapiReadCommand_sameOutside virtToPhys portMem lba count buffer io)
    (by decide), satapiPrdt, prdtRegion_prdtEntry]

theorem prdtLength_satapiReadCommand :
    prdtLength (satapiReadCommand virtToPhys portMem lba count buffer io).mem portMem = 1 := by
  have hfixed := satapiReadCommand_sameOutside virtToPhys portMem lba count buffer io
  have hentry := prdtEntry_sameOutside (portMem + ahciCt) 0 (virtToPhys buffer)
    (BitVec.ofNat 32 (count.toNat * 2048) - 1)
    (cmdHeader portMem (virtToPhys (portMem + ahciCt)) (5 ||| 32) 1 io)
  rw [(header_of_sameOutside (o := 1280) hfixed (by decide) (by decide)).1]
  rw [show entryAddress (portMem + ahciCt) 0 = portMem + BitVec.ofNat 64 1408 by
    rw [entryAddress, BitVec.add_assoc]; rfl] at hentry
  exact (header_of_sameOutside hentry (by decide) (by decide)).1.trans
    (prdtLength_cmdHeader portMem _ _ 1 io)

end Packet

/-- A length of more than 4 MiB is cut. -/
theorem not_lengthsAgree (virtToPhys : Word → Word) (portMem : Word) (lba : BitVec 32)
    {count : BitVec 16} (hcount : 2048 < count.toNat) (buffer : Word) :
    ¬LengthsAgree virtToPhys portMem lba count buffer := by
  intro h
  have hregion := (h Unit ⟨(), fun _ => 0, 0, 0, []⟩).2.2
  have hfield := Nat.mod_lt (BitVec.ofNat 32 (count.toNat * 2048) - 1).toNat (show 0 < 2 ^ 22 by decide)
  rw [prdtRegion_satapiReadCommand] at hregion
  omega

/-- **The counts for which the two lengths agree.** -/
theorem satapi_lengths_agree_iff (virtToPhys : Word → Word) (portMem : Word) (lba : BitVec 32)
    {count : BitVec 16} (hcount : 1 ≤ count.toNat) (buffer : Word) :
    LengthsAgree virtToPhys portMem lba count buffer ↔ count.toNat ≤ 2048 := by
  constructor
  · intro h
    by_contra hlarge
    exact not_lengthsAgree virtToPhys portMem lba (by omega) buffer h
  · intro hle σ io
    refine ⟨prdtLength_satapiReadCommand virtToPhys portMem lba count buffer io,
      read10At_satapiReadCommand virtToPhys portMem lba count buffer io, ?_⟩
    rw [prdtRegion_satapiReadCommand, BitVec.toNat_sub, BitVec.toNat_ofNat,
      show (1 : BitVec 32).toNat = 1 from rfl]
    omega

theorem satapi_lengths_agree_one : LengthsAgree (fun x => x) 0x2000 0 1 0x100000 :=
  (satapi_lengths_agree_iff (fun x => x) 0x2000 0 (by decide) 0x100000).mpr (by decide)

/-- A packet for 2049 sectors, and a region of one sector. -/
theorem exampleCount_lengths_differ : ¬LengthsAgree (fun x => x) 0x2000 0 2049 0x100000 :=
  not_lengthsAgree (fun x => x) 0x2000 0 (by decide) 0x100000

end AncoreOS.Drivers
