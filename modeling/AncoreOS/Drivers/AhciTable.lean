import AncoreOS.Drivers.Sata
import AncoreOS.Library.ByteFrame

/-!
# The commands in memory

What an AHCI controller reads: the first command header, the regions of the PRDT that it
points to, and the command in the FIS.  `sata_read_prdt` says for every count what
`sata_ahci_read_sector` has put there.

The entries stand one after the other behind the table's fixed part, so an entry is the part
of the block at `ct` from the offset `128 + 16 * i` on, and all of them are told apart by
their offsets.
-/

namespace AncoreOS.Drivers

open ByteMemory

/-! ### What the controller reads -/

/-- `prdt_length` of a command header. -/
def prdtLength (m : Mem) (cl : Word) : Nat := load m (cl + 2) 2

/-- `ctbau:ctba` of a command header. -/
def commandTable (m : Mem) (cl : Word) : Word :=
  BitVec.ofNat 64 (load m (cl + 8) 4 + 2 ^ 32 * load m (cl + 12) 4)

/-- `prdt_entry[i]` of a command table. -/
def entryAddress (ct : Word) (i : Nat) : Word := ct + BitVec.ofNat 64 (128 + 16 * i)

/-- The address `dbau:dba` and the length `dbc + 1` of an entry. -/
def prdtRegion (m : Mem) (ct : Word) (i : Nat) : Word × Nat :=
  let entry := entryAddress ct i
  (BitVec.ofNat 64 (load m entry 4 + 2 ^ 32 * load m (entry + 4) 4),
    load m (entry + 12) 4 % 2 ^ 22 + 1)

/-- The regions of a command. -/
def prdt (m : Mem) (cl : Word) : List (Word × Nat) :=
  (List.range (prdtLength m cl)).map (prdtRegion m (commandTable m cl))

/-- `lba5:lba4:lba3:lba2:lba1:lba0` of a command FIS. -/
def fisLba (m : Mem) (fis : Word) : Nat := load m (fis + 4) 3 + 2 ^ 24 * load m (fis + 8) 3

/-- `counth:countl` of a command FIS. -/
def fisCount (m : Mem) (fis : Word) : Nat := load m (fis + 12) 2

/-- Regions in a row, from an address on. -/
def Consecutive : Word → List (Word × Nat) → Prop
  | _, [] => True
  | a, r :: rest => r.1 = a ∧ Consecutive (a + BitVec.ofNat 64 r.2) rest

/-- The first command of the list asks for `count` sectors from `lba` on: one entry for each
16 sectors, in a row from `buffer` on, none of them empty or larger than 8 KiB. -/
structure AsksFor (m : Mem) (portMem lba : Word) (count : BitVec 16) (buffer : Word) : Prop where
  entries : prdtLength m portMem = (count.toNat + 15) / 16
  consecutive : Consecutive buffer (prdt m portMem)
  sizes : ∀ r ∈ prdt m portMem, 0 < r.2 ∧ r.2 ≤ 8192
  total : ((prdt m portMem).map Prod.snd).sum = 512 * count.toNat
  lba : fisLba m (portMem + ahciCt) = lba.toNat % 2 ^ 48
  count : fisCount m (portMem + ahciCt) = count.toNat

/-! ### One entry -/

section Entry

variable {σ : Type*}

theorem entryAddress_eq (ct : Word) (i : Nat) :
    ct + 128 + 16 * BitVec.ofNat 64 i = entryAddress ct i := by
  rw [entryAddress, BitVec.ofNat_add, BitVec.ofNat_mul, BitVec.add_assoc]
  rfl

theorem entryAddress_add (ct : Word) (i k : Nat) :
    entryAddress ct i + BitVec.ofNat 64 k = ct + BitVec.ofNat 64 (128 + 16 * i + k) := by
  rw [entryAddress, BitVec.add_assoc, ← BitVec.ofNat_add]

/-- A region is made of the sixteen bytes of its entry. -/
theorem prdtRegion_of_sameOutside {m m' : Mem} {ct : Word} {o n i : Nat}
    (h : SameOutside (ct + BitVec.ofNat 64 o) n m m')
    (hd : 128 + 16 * i + 16 ≤ o ∨ o + n ≤ 128 + 16 * i) (hn : o + n ≤ 2 ^ 64)
    (hi : 128 + 16 * i + 16 ≤ 2 ^ 64) : prdtRegion m' ct i = prdtRegion m ct i := by
  have hload : ∀ k, k + 4 ≤ 16 → load m' (entryAddress ct i + BitVec.ofNat 64 k) 4 =
      load m (entryAddress ct i + BitVec.ofNat 64 k) 4 := by
    intro k hk
    rw [entryAddress_add]
    exact h.load_eq (by omega) hn (by omega)
  have hfirst : load m' (entryAddress ct i) 4 = load m (entryAddress ct i) 4 := by
    simpa using hload 0 (by omega)
  have hsecond : load m' (entryAddress ct i + 4) 4 = load m (entryAddress ct i + 4) 4 :=
    hload 4 (by omega)
  have hthird : load m' (entryAddress ct i + 12) 4 = load m (entryAddress ct i + 12) 4 :=
    hload 12 (by omega)
  simp only [prdtRegion, hfirst, hsecond, hthird]

/-- The fixed part of the table does not matter. -/
theorem prdtRegion_of_fixed {m m' : Mem} {ct : Word} {i : Nat} (h : SameOutside ct 128 m m')
    (hi : 128 + 16 * i + 16 ≤ 2 ^ 64) : prdtRegion m' ct i = prdtRegion m ct i := by
  have hstart : SameOutside (ct + BitVec.ofNat 64 0) 128 m m' := by simpa using h
  exact prdtRegion_of_sameOutside hstart (by omega) (by omega) hi

/-- The field of 22 bits. -/
theorem dbc_field (old dbc : BitVec 32) :
    (((old &&& ~~~0x003FFFFF) ||| (dbc &&& 0x003FFFFF)) ||| 0x80000000).toNat % 2 ^ 22 =
      dbc.toNat % 2 ^ 22 := by
  rw [← BitVec.toNat_setWidth, ← BitVec.toNat_setWidth]
  congr 1
  simp only [BitVec.setWidth_or, BitVec.setWidth_and]
  rw [show (~~~(0x003FFFFF : BitVec 32)).setWidth 22 = 0 from rfl,
    show (0x003FFFFF : BitVec 32).setWidth 22 = BitVec.allOnes 22 from rfl,
    show (0x80000000 : BitVec 32).setWidth 22 = 0 from rfl, BitVec.and_allOnes]
  simp

theorem prdtEntry_sameOutside (ct : Word) (i : Nat) (dba : Word) (dbc : BitVec 32) (io : Io σ) :
    SameOutside (entryAddress ct i) 16 io.mem (prdtEntry ct i dba dbc io).mem := by
  have hpart : ∀ (k : Nat) (v : Nat) (m : Mem), k + 4 ≤ 16 →
      SameOutside (entryAddress ct i) 16 m (store m (entryAddress ct i + BitVec.ofNat 64 k) 4 v) :=
    fun k v m hk => (SameOutside.store m _ 4 v).of_part hk (by decide)
  unfold prdtEntry
  rw [entryAddress_eq]
  refine SameOutside.trans ?_ (hpart 12 _ _ (by decide))
  refine SameOutside.trans ?_ (hpart 12 _ _ (by decide))
  refine SameOutside.trans ?_ (hpart 4 _ _ (by decide))
  exact (SameOutside.store _ _ 4 _).mono (by decide)

/-- An address in two words. -/
theorem ofNat_low_high (a : Word) :
    BitVec.ofNat 64 ((a.setWidth 32).toNat % 256 ^ 4 + 2 ^ 32 * ((a >>> 32).toNat % 256 ^ 4)) = a := by
  have ha := a.isLt
  apply BitVec.eq_of_toNat_eq
  rw [BitVec.toNat_setWidth, BitVec.toNat_ushiftRight, Nat.shiftRight_eq_div_pow, BitVec.toNat_ofNat]
  omega

theorem toNat_mod_word (w : BitVec 32) : w.toNat % 256 ^ 4 = w.toNat :=
  Nat.mod_eq_of_lt (by have := w.isLt; omega)

/-- The words of an entry after its four stores. -/
theorem entry_loads (m : Mem) (e : Word) (lo hi w w' : Nat) :
    let m' := store (store (store (store m e 4 lo) (e + 4) 4 hi) (e + 12) 4 w) (e + 12) 4 w'
    load m' e 4 = lo % 256 ^ 4 ∧ load m' (e + 4) 4 = hi % 256 ^ 4 ∧
      load m' (e + 12) 4 = w' % 256 ^ 4 := by
  have hkeep : ∀ (k j v : Nat) (m : Mem), k + 4 ≤ j ∨ j + 4 ≤ k → j ≤ 12 → k ≤ 12 →
      load (store m (e + BitVec.ofNat 64 j) 4 v) (e + BitVec.ofNat 64 k) 4 =
        load m (e + BitVec.ofNat 64 k) 4 :=
    fun k j v m hd hj hk => (SameOutside.store m _ 4 v).load_eq hd (by omega) (by omega)
  have hkeep₀ : ∀ (j v : Nat) (m : Mem), 4 ≤ j → j ≤ 12 →
      load (store m (e + BitVec.ofNat 64 j) 4 v) e 4 = load m e 4 := by
    intro j v m hj hj'
    simpa using hkeep 0 j v m (by omega) hj' (by decide)
  refine ⟨?_, ?_, load_store_same _ _ w' (by decide)⟩
  · refine (hkeep₀ 12 w' _ (by decide) (by decide)).trans ?_
    refine (hkeep₀ 12 w _ (by decide) (by decide)).trans ?_
    refine (hkeep₀ 4 hi _ (by decide) (by decide)).trans ?_
    exact load_store_same _ _ lo (by decide)
  · refine (hkeep 4 12 w' _ (by decide) (by decide) (by decide)).trans ?_
    refine (hkeep 4 12 w _ (by decide) (by decide) (by decide)).trans ?_
    exact load_store_same _ _ hi (by decide)

/-- **What an entry says once it is written.** -/
theorem prdtRegion_prdtEntry (ct : Word) (i : Nat) (dba : Word) (dbc : BitVec 32) (io : Io σ) :
    prdtRegion (prdtEntry ct i dba dbc io).mem ct i = (dba, dbc.toNat % 2 ^ 22 + 1) := by
  unfold prdtRegion prdtEntry
  rw [entryAddress_eq]
  generalize entryAddress ct i = e
  simp only [Io.poke]
  obtain ⟨hlo, hhi, hword⟩ := entry_loads io.mem e (dba.setWidth 32).toNat (dba >>> 32).toNat _ _
  rw [hlo, hhi, hword, load_store_same _ _ _ (by decide)]
  rw [ofNat_low_high, toNat_mod_word, toNat_mod_word, BitVec.ofNat_toNat, BitVec.setWidth_eq,
    dbc_field]

/-! ### The loop -/

theorem prdtLoop_sameOutside (ct : Word) : ∀ (n i : Nat) (buf : Word) (io : Io σ),
    128 + 16 * (i + n) ≤ 2 ^ 64 →
    SameOutside (entryAddress ct i) (16 * n) io.mem (prdtLoop ct n i buf io).mem := by
  intro n
  induction n with
  | zero => exact fun i buf io _ => SameOutside.refl _ _ _
  | succ n ih =>
    intro i buf io hfit
    have hfirst := prdtEntry_sameOutside ct i buf 8191 io
    have hrest := ih (i + 1) (buf + 8192) (prdtEntry ct i buf 8191 io) (by omega)
    rw [show entryAddress ct (i + 1) = entryAddress ct i + BitVec.ofNat 64 16 by
      rw [entryAddress_add]; rfl] at hrest
    exact (hfirst.mono (by omega)).trans (hrest.of_part (by omega) (by omega))

theorem prdtRegion_prdtLoop (ct : Word) : ∀ (n i : Nat) (buf : Word) (io : Io σ) (j : Nat),
    128 + 16 * (i + n) ≤ 2 ^ 64 → j < n →
    prdtRegion (prdtLoop ct n i buf io).mem ct (i + j) = (buf + BitVec.ofNat 64 (8192 * j), 8192) := by
  intro n
  induction n with
  | zero => exact fun i buf io j _ hj => absurd hj (Nat.not_lt_zero j)
  | succ n ih =>
    intro i buf io j hfit hj
    rw [prdtLoop]
    cases j with
    | zero =>
      have hrest := prdtLoop_sameOutside ct n (i + 1) (buf + 8192) (prdtEntry ct i buf 8191 io) (by omega)
      show prdtRegion _ ct i = _
      rw [prdtRegion_of_sameOutside hrest (by omega) (by omega) (by omega), prdtRegion_prdtEntry]
      simp
    | succ j =>
      have := ih (i + 1) (buf + 8192) (prdtEntry ct i buf 8191 io) j (by omega) (by omega)
      rw [show i + (j + 1) = i + 1 + j by omega, this, Nat.mul_succ, Nat.add_comm (8192 * j),
        BitVec.ofNat_add, ← BitVec.add_assoc]
      rfl

/-! ### The header and the FIS -/

theorem cmdHeader_sameOutside (cl ct : Word) (flags len : Nat) (io : Io σ) :
    SameOutside cl 32 io.mem (cmdHeader cl ct flags len io).mem := by
  have hpart : ∀ (k n v : Nat) (m : Mem), k + n ≤ 32 →
      SameOutside cl 32 m (store m (cl + BitVec.ofNat 64 k) n v) :=
    fun k n v m hk => (SameOutside.store m _ n v).of_part hk (by decide)
  refine SameOutside.trans ?_ (hpart 12 4 _ _ (by decide))
  refine SameOutside.trans ?_ (hpart 8 4 _ _ (by decide))
  refine SameOutside.trans ?_ (hpart 2 2 _ _ (by decide))
  refine SameOutside.trans ?_ ((SameOutside.store _ cl 2 flags).mono (by decide))
  exact SameOutside.fill _ cl 32 0

theorem prdtLength_cmdHeader (cl ct : Word) (flags len : Nat) (io : Io σ) :
    prdtLength (cmdHeader cl ct flags len io).mem cl = len % 2 ^ 16 := by
  have hkeep : ∀ (k v : Nat) (m : Mem), 4 ≤ k → k ≤ 12 →
      load (store m (cl + BitVec.ofNat 64 k) 4 v) (cl + BitVec.ofNat 64 2) 2 =
        load m (cl + BitVec.ofNat 64 2) 2 :=
    fun k v m hk hk' => (SameOutside.store m _ 4 v).load_eq (by omega) (by omega) (by omega)
  refine (hkeep 12 _ _ (by decide) (by decide)).trans ?_
  refine (hkeep 8 _ _ (by decide) (by decide)).trans ?_
  exact load_store_same _ _ len (by decide)

theorem commandTable_cmdHeader (cl ct : Word) (flags len : Nat) (io : Io σ) :
    commandTable (cmdHeader cl ct flags len io).mem cl = ct := by
  have hkeep : ∀ (v : Nat) (m : Mem),
      load (store m (cl + BitVec.ofNat 64 12) 4 v) (cl + BitVec.ofNat 64 8) 4 =
        load m (cl + BitVec.ofNat 64 8) 4 :=
    fun v m => (SameOutside.store m _ 4 v).load_eq (by omega) (by omega) (by omega)
  have hlo : load (cmdHeader cl ct flags len io).mem (cl + 8) 4 = (ct.setWidth 32).toNat % 256 ^ 4 :=
    (hkeep _ _).trans (load_store_same _ _ _ (by decide))
  have hhi : load (cmdHeader cl ct flags len io).mem (cl + 12) 4 = (ct >>> 32).toNat % 256 ^ 4 :=
    load_store_same _ _ _ (by decide)
  rw [commandTable, hlo, hhi, ofNat_low_high]

/-- What is behind the header does not matter. -/
theorem header_of_sameOutside {m m' : Mem} {cl : Word} {o n : Nat}
    (h : SameOutside (cl + BitVec.ofNat 64 o) n m m') (ho : 32 ≤ o) (hn : o + n ≤ 2 ^ 64) :
    prdtLength m' cl = prdtLength m cl ∧ commandTable m' cl = commandTable m cl := by
  have hload : ∀ k j, k + j ≤ 32 →
      load m' (cl + BitVec.ofNat 64 k) j = load m (cl + BitVec.ofNat 64 k) j :=
    fun k j hk => h.load_eq (by omega) hn (by omega)
  have hctba : load m' (cl + 8) 4 = load m (cl + 8) 4 := hload 8 4 (by decide)
  have hctbau : load m' (cl + 12) 4 = load m (cl + 12) 4 := hload 12 4 (by decide)
  refine ⟨hload 2 2 (by decide), ?_⟩
  rw [commandTable, commandTable, hctba, hctbau]

theorem cmdFis_sameOutside (fis : Word) (command device : Nat) (io : Io σ) :
    SameOutside fis 20 io.mem (cmdFis fis command device io).mem := by
  have hpart : ∀ (k v : Nat) (m : Mem), k + 1 ≤ 20 →
      SameOutside fis 20 m (store m (fis + BitVec.ofNat 64 k) 1 v) :=
    fun k v m hk => (SameOutside.store m _ 1 v).of_part hk (by decide)
  refine SameOutside.trans ?_ (hpart 7 _ _ (by decide))
  refine SameOutside.trans ?_ (hpart 2 _ _ (by decide))
  refine SameOutside.trans ?_ (hpart 1 _ _ (by decide))
  refine SameOutside.trans ?_ ((SameOutside.store _ fis 1 _).mono (by decide))
  exact SameOutside.fill _ fis 20 0

/-! ### The command of the sector reader -/

/-- The header and the PRDT of `sata_ahci_read_sector`. -/
def readPrdt (portMem : Word) (sectorCount : BitVec 16) (buffer : Word) (io : Io σ) : Io σ :=
  let prdtEntries := (sectorCount.toNat + 15) / 16
  let ct := portMem + ahciCt
  let io := (cmdHeader portMem ct 5 prdtEntries io).memset ct 0 144
  let io := prdtLoop ct (prdtEntries - 1) 0 buffer io
  let last := prdtEntries - 1
  let remaining := BitVec.ofNat 32 (sectorCount.toNat - 16 * last)
  prdtEntry ct last (buffer + BitVec.ofNat 64 (8192 * last)) ((remaining <<< 9) - 1) io

/-- Its FIS. -/
def readFis (ct lba : Word) (sectorCount : BitVec 16) (io : Io σ) : Io σ :=
  let io := cmdFis ct 0x25 0x40 io
  let io := io.poke (ct + 4) 1 lba.toNat
  let io := io.poke (ct + 5) 1 (lba >>> 8).toNat
  let io := io.poke (ct + 6) 1 (lba >>> 16).toNat
  let io := io.poke (ct + 8) 1 (lba >>> 24).toNat
  let io := io.poke (ct + 9) 1 (lba >>> 32).toNat
  let io := io.poke (ct + 10) 1 (lba >>> 40).toNat
  let io := io.poke (ct + 12) 1 sectorCount.toNat
  io.poke (ct + 13) 1 (sectorCount >>> 8).toNat

theorem sataReadCommand_eq (portMem lba : Word) (count : BitVec 16) (buffer : Word) (io : Io σ) :
    sataReadCommand portMem lba count buffer io =
      readFis (portMem + ahciCt) lba count (readPrdt portMem count buffer io) := rfl

theorem readFis_sameOutside (ct lba : Word) (count : BitVec 16) (io : Io σ) :
    SameOutside ct 20 io.mem (readFis ct lba count io).mem := by
  have hpart : ∀ (k v : Nat) (m : Mem), k + 1 ≤ 20 →
      SameOutside ct 20 m (store m (ct + BitVec.ofNat 64 k) 1 v) :=
    fun k v m hk => (SameOutside.store m _ 1 v).of_part hk (by decide)
  refine SameOutside.trans ?_ (hpart 13 _ _ (by decide))
  refine SameOutside.trans ?_ (hpart 12 _ _ (by decide))
  refine SameOutside.trans ?_ (hpart 10 _ _ (by decide))
  refine SameOutside.trans ?_ (hpart 9 _ _ (by decide))
  refine SameOutside.trans ?_ (hpart 8 _ _ (by decide))
  refine SameOutside.trans ?_ (hpart 6 _ _ (by decide))
  refine SameOutside.trans ?_ (hpart 5 _ _ (by decide))
  refine SameOutside.trans ?_ (hpart 4 _ _ (by decide))
  exact cmdFis_sameOutside ct _ _ io

theorem store_one (m : Mem) (a x : Word) (v : Nat) :
    store m a 1 v x = if x = a then BitVec.ofNat 8 v else m x := by
  by_cases h : x = a
  · subst h
    rw [if_pos rfl, store, if_pos (inRange_self (by decide)), BitVec.sub_self]
    simp
  · rw [if_neg h, store_apply_of_not_inRange]
    intro hin
    obtain ⟨j, hj, rfl⟩ := eq_add_of_inRange hin
    obtain rfl : j = 0 := by omega
    exact h (by simp)

theorem fisLba_readFis (ct lba : Word) (count : BitVec 16) (io : Io σ) :
    fisLba (readFis ct lba count io).mem ct = lba.toNat % 2 ^ 48 := by
  have hbytes : fisLba (readFis ct lba count io).mem ct =
      lba.toNat % 256 + 256 * (lba.toNat / 2 ^ 8 % 256 + 256 * (lba.toNat / 2 ^ 16 % 256)) +
        2 ^ 24 * (lba.toNat / 2 ^ 24 % 256 +
          256 * (lba.toNat / 2 ^ 32 % 256 + 256 * (lba.toNat / 2 ^ 40 % 256))) := by
    simp [fisLba, load, readFis, store_one, Io.poke, BitVec.add_assoc, Nat.shiftRight_eq_div_pow]
  rw [hbytes]
  omega

theorem fisCount_readFis (ct lba : Word) (count : BitVec 16) (io : Io σ) :
    fisCount (readFis ct lba count io).mem ct = count.toNat := by
  have hcount := count.isLt
  have hbytes : fisCount (readFis ct lba count io).mem ct =
      count.toNat % 256 + 256 * (count.toNat / 2 ^ 8 % 256) := by
    simp [fisCount, load, readFis, store_one, Io.poke, BitVec.add_assoc, Nat.shiftRight_eq_div_pow]
  rw [hbytes]
  omega

/-- Behind the header, only the fixed part of the table and the entries are written. -/
theorem readPrdt_sameOutside (portMem : Word) (count : BitVec 16) (buffer : Word) (io : Io σ) :
    SameOutside (portMem + ahciCt) (128 + 16 * ((count.toNat + 15) / 16 - 1 + 1))
      (cmdHeader portMem (portMem + ahciCt) 5 ((count.toNat + 15) / 16) io).mem
      (readPrdt portMem count buffer io).mem := by
  have hlt := count.isLt
  have hentry := prdtEntry_sameOutside (σ := σ) (portMem + ahciCt) ((count.toNat + 15) / 16 - 1)
  have hloop := prdtLoop_sameOutside (σ := σ) (portMem + ahciCt) ((count.toNat + 15) / 16 - 1) 0
  refine SameOutside.trans ?_ ((hentry _ _ _).of_part (by omega) (by omega))
  refine SameOutside.trans ?_ ((hloop _ _ (by omega)).of_part (by omega) (by omega))
  exact (SameOutside.fill _ (portMem + ahciCt) 144 0).mono (by omega)

theorem prdtLength_readPrdt (portMem : Word) (count : BitVec 16) (buffer : Word) (io : Io σ) :
    prdtLength (readPrdt portMem count buffer io).mem portMem = (count.toNat + 15) / 16 ∧
      commandTable (readPrdt portMem count buffer io).mem portMem = portMem + ahciCt := by
  have hlt := count.isLt
  have hframe := readPrdt_sameOutside portMem count buffer io
  obtain ⟨hlen, htable⟩ := header_of_sameOutside (o := 1280) hframe (by decide) (by omega)
  rw [hlen, htable, prdtLength_cmdHeader, commandTable_cmdHeader, Nat.mod_eq_of_lt (by omega)]
  exact ⟨rfl, rfl⟩

/-- The regions of the entries. -/
theorem prdtRegion_readPrdt (portMem : Word) {count : BitVec 16} {last : Nat}
    (hlast : (count.toNat + 15) / 16 = last + 1) (buffer : Word) (io : Io σ) :
    (∀ i < last, prdtRegion (readPrdt portMem count buffer io).mem (portMem + ahciCt) i =
      (buffer + BitVec.ofNat 64 (8192 * i), 8192)) ∧
    prdtRegion (readPrdt portMem count buffer io).mem (portMem + ahciCt) last =
      (buffer + BitVec.ofNat 64 (8192 * last), 512 * (count.toNat - 16 * last)) := by
  have hlt := count.isLt
  simp only [readPrdt, hlast, Nat.add_sub_cancel]
  constructor
  · intro i hi
    have hentry := prdtEntry_sameOutside (σ := σ) (portMem + ahciCt) last
    refine (prdtRegion_of_sameOutside (hentry _ _ _) (by omega) (by omega) (by omega)).trans ?_
    have hloop := prdtRegion_prdtLoop (σ := σ) (portMem + ahciCt) last 0 buffer
    rw [← Nat.zero_add i]
    refine (hloop _ i (by omega) hi).trans ?_
    rw [Nat.zero_add]
  · refine (prdtRegion_prdtEntry (portMem + ahciCt) last _ _ _).trans ?_
    have hbytes : (((BitVec.ofNat 32 (count.toNat - 16 * last)) <<< 9) - 1).toNat % 2 ^ 22 + 1 =
        512 * (count.toNat - 16 * last) := by
      rw [BitVec.toNat_sub, BitVec.toNat_shiftLeft, BitVec.toNat_ofNat, Nat.shiftLeft_eq]
      rw [show (1 : BitVec 32).toNat = 1 from rfl]
      omega
    rw [hbytes]

end Entry

/-! ### The regions together -/

theorem consecutive_append : ∀ (n c : Nat) (a : Word) (rest : List (Word × Nat)),
    Consecutive (a + BitVec.ofNat 64 (c * n)) rest →
    Consecutive a ((List.range n).map (fun i => (a + BitVec.ofNat 64 (c * i), c)) ++ rest) := by
  intro n c
  induction n with
  | zero =>
    intro a rest h
    simpa using h
  | succ n ih =>
    intro a rest h
    have hstep : ∀ i, a + BitVec.ofNat 64 (c * (i + 1)) =
        a + BitVec.ofNat 64 c + BitVec.ofNat 64 (c * i) := by
      intro i
      rw [Nat.mul_succ, Nat.add_comm, BitVec.ofNat_add, BitVec.add_assoc]
    rw [List.range_succ_eq_map, List.map_cons, List.map_map]
    refine ⟨by simp, ?_⟩
    have hrest := ih (a + BitVec.ofNat 64 c) rest (by rwa [← hstep])
    simp only [← hstep] at hrest
    exact hrest

section Command

variable {σ : Type*} (portMem lba : Word) {count : BitVec 16} (buffer : Word) (io : Io σ)

variable (count) in
theorem prdtLength_sataReadCommand :
    prdtLength (sataReadCommand portMem lba count buffer io).mem portMem = (count.toNat + 15) / 16 ∧
      commandTable (sataReadCommand portMem lba count buffer io).mem portMem = portMem + ahciCt := by
  have hfis := readFis_sameOutside (portMem + ahciCt) lba count (readPrdt portMem count buffer io)
  obtain ⟨hlen, htable⟩ := header_of_sameOutside (o := 1280) hfis (by decide) (by decide)
  rw [sataReadCommand_eq, hlen, htable]
  exact prdtLength_readPrdt portMem count buffer io

theorem prdtRegion_sataReadCommand {last : Nat} (hlast : (count.toNat + 15) / 16 = last + 1) :
    (∀ i < last, prdtRegion (sataReadCommand portMem lba count buffer io).mem (portMem + ahciCt) i =
      (buffer + BitVec.ofNat 64 (8192 * i), 8192)) ∧
    prdtRegion (sataReadCommand portMem lba count buffer io).mem (portMem + ahciCt) last =
      (buffer + BitVec.ofNat 64 (8192 * last), 512 * (count.toNat - 16 * last)) := by
  have hlt := count.isLt
  obtain ⟨hregion, hregionLast⟩ := prdtRegion_readPrdt portMem hlast buffer io
  have hfis : ∀ i ≤ last, prdtRegion (sataReadCommand portMem lba count buffer io).mem
      (portMem + ahciCt) i = prdtRegion (readPrdt portMem count buffer io).mem (portMem + ahciCt) i := by
    intro i hi
    have hframe := readFis_sameOutside (portMem + ahciCt) lba count (readPrdt portMem count buffer io)
    rw [sataReadCommand_eq]
    exact prdtRegion_of_fixed (hframe.mono (by decide)) (by omega)
  constructor
  · intro i hi
    rw [hfis i hi.le, hregion i hi]
  · rw [hfis last le_rfl, hregionLast]

theorem prdt_sataReadCommand {last : Nat} (hlast : (count.toNat + 15) / 16 = last + 1) :
    prdt (sataReadCommand portMem lba count buffer io).mem portMem =
      (List.range last).map (fun i => (buffer + BitVec.ofNat 64 (8192 * i), 8192)) ++
        [(buffer + BitVec.ofNat 64 (8192 * last), 512 * (count.toNat - 16 * last))] := by
  obtain ⟨hlen, htable⟩ := prdtLength_sataReadCommand portMem lba count buffer io
  obtain ⟨hregion, hregionLast⟩ := prdtRegion_sataReadCommand portMem lba buffer io hlast
  have hmap : (List.range last).map (prdtRegion (sataReadCommand portMem lba count buffer io).mem
      (portMem + ahciCt)) = (List.range last).map
        (fun i => (buffer + BitVec.ofNat 64 (8192 * i), 8192)) :=
    List.map_congr_left fun i hi => hregion i (List.mem_range.mp hi)
  rw [prdt, hlen, htable, hlast, List.range_succ, List.map_append, List.map_singleton, hregionLast,
    hmap]

/-- **The command of the sector reader.** -/
theorem sata_read_prdt (hcount : 1 ≤ count.toNat) :
    AsksFor (sataReadCommand portMem lba count buffer io).mem portMem lba count buffer := by
  obtain ⟨last, hlast⟩ : ∃ last, (count.toNat + 15) / 16 = last + 1 :=
    Nat.exists_eq_succ_of_ne_zero (by omega)
  have hprdt := prdt_sataReadCommand portMem lba buffer io hlast
  refine ⟨(prdtLength_sataReadCommand portMem lba count buffer io).1, ?_, ?_, ?_, ?_, ?_⟩
  · rw [hprdt]
    exact consecutive_append _ 8192 buffer _ ⟨rfl, trivial⟩
  · intro r hr
    rw [hprdt] at hr
    rcases List.mem_append.mp hr with hr | hr
    · obtain ⟨i, _, rfl⟩ := List.mem_map.mp hr
      exact ⟨show 0 < 8192 by decide, le_rfl⟩
    · rw [List.mem_singleton.mp hr]
      exact ⟨by dsimp only; omega, by dsimp only; omega⟩
  · rw [hprdt, List.map_append, List.map_map, List.sum_append]
    simp only [Function.comp_def, List.map_const', List.length_range, List.sum_replicate,
      List.map_singleton, List.sum_singleton, smul_eq_mul]
    omega
  · exact fisLba_readFis (portMem + ahciCt) lba count _
  · exact fisCount_readFis (portMem + ahciCt) lba count _

end Command

/-- Seventeen sectors. -/
theorem sata_read_prdt_seventeen :
    AsksFor (sataReadCommand 0x2000 0 17 0x100000 (⟨(), fun _ => 0, 0, 0, []⟩ : Io Unit)).mem 0x2000 0
      17 0x100000 :=
  sata_read_prdt 0x2000 0 0x100000 _ (by decide)

end AncoreOS.Drivers
