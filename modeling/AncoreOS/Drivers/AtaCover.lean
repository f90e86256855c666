import AncoreOS.Drivers.AtaTransfer

/-!
# Which sectors the commands cover

`ata_read_sector_auto`, `ata_read_sector_semiauto` and `ata_write_sector_auto` choose
between the 28-bit and the 48-bit commands.  `Exact` says that the commands of a call
cover its range once and nothing else, stay in the 28-bit range where they have to,
and move as many sectors as they announce.

On an error-free drive this is decided by the request alone.  The readers fail where
they go through the chunks of 255 sectors, because they read the whole range once more
afterwards; all three fail for an empty range, which a drive takes for the largest
one, for a 28-bit command that crosses `2 ^ 28`, and for addresses of more than 48
bits (`auto_commands_exact_iff`).
-/

namespace AncoreOS.Drivers

open ByteMemory

/-- How many of the commands cover the sector `x`. -/
def coverage (runs : List AtaRun) (x : Nat) : Nat :=
  runs.countP (fun r => decide (r.command.lba ≤ x ∧ x < r.command.lba + r.command.told))

/-- The commands are the transfer of `[lba, lba + count)`, with sectors of `w` words. -/
structure Exact (write : Bool) (drive : BitVec 8) (w lba count : Nat) (runs : List AtaRun) :
    Prop where
  target : ∀ r ∈ runs, r.command.write = write ∧ r.command.slave = driveSlave drive
  cover : ∀ x, coverage runs x = if lba ≤ x ∧ x < lba + count then 1 else 0
  bound : ∀ r ∈ runs, r.command.ext = false → r.command.lba + r.command.told ≤ 2 ^ 28
  moved : ∀ r ∈ runs, r.moved = r.command.told * w

/-- The commands that a call gives. -/
def issued {σ : Type*} (base : BitVec 16) (call : Io σ → Int × Io σ) (io : Io σ) : List AtaRun :=
  (ataRecord base (call { io with log := [] }).2.log).runs

/-! ### One command -/

section Single

variable {write : Bool} {drive : BitVec 8} {w lba count : Nat}

theorem coverage_cons_pos {r : AtaRun} {x : Nat} (runs : List AtaRun)
    (h : r.command.lba ≤ x ∧ x < r.command.lba + r.command.told) :
    coverage (r :: runs) x = coverage runs x + 1 :=
  List.countP_cons_of_pos (decide_eq_true h)

theorem coverage_cons_neg {r : AtaRun} {x : Nat} (runs : List AtaRun)
    (h : ¬(r.command.lba ≤ x ∧ x < r.command.lba + r.command.told)) :
    coverage (r :: runs) x = coverage runs x :=
  List.countP_cons_of_neg (by rw [decide_eq_false h]; exact Bool.false_ne_true)

theorem coverage_single (r : AtaRun) (x : Nat) : coverage [r] x =
    if r.command.lba ≤ x ∧ x < r.command.lba + r.command.told then 1 else 0 := by
  split
  · rename_i h
    exact coverage_cons_pos [] h
  · rename_i h
    exact coverage_cons_neg [] h

/-- A sector of the range is covered once. -/
theorem Exact.one {runs : List AtaRun} (h : Exact write drive w lba count runs) {x : Nat}
    (hx : lba ≤ x ∧ x < lba + count) : coverage runs x = 1 := by
  rw [h.cover, if_pos hx]

/-- A sector that is covered lies in the range. -/
theorem Exact.mem {runs : List AtaRun} (h : Exact write drive w lba count runs) {x : Nat}
    (hx : coverage runs x ≠ 0) : lba ≤ x ∧ x < lba + count := by
  by_contra hout
  rw [h.cover, if_neg hout] at hx
  exact hx rfl

/-- A single command is exact when it names the range. -/
theorem exact_single_iff {r : AtaRun} (hwrite : r.command.write = write)
    (hslave : r.command.slave = driveSlave drive) (htold : 1 ≤ r.command.told) :
    Exact write drive w lba count [r] ↔
      (r.command.lba = lba ∧ r.command.told = count) ∧
        (r.command.ext = false → r.command.lba + r.command.told ≤ 2 ^ 28) ∧
        r.moved = r.command.told * w := by
  constructor
  · intro h
    have hmem : ∀ x, r.command.lba ≤ x ∧ x < r.command.lba + r.command.told →
        lba ≤ x ∧ x < lba + count := by
      intro x hx
      refine h.mem ?_
      rw [coverage_single, if_pos hx]
      exact one_ne_zero
    have hcov : ∀ x, lba ≤ x ∧ x < lba + count →
        r.command.lba ≤ x ∧ x < r.command.lba + r.command.told := by
      intro x hx
      by_contra hout
      have hone := h.one hx
      rw [coverage_single, if_neg hout] at hone
      exact zero_ne_one hone
    -- the ends of the two intervals
    have hlow := hmem r.command.lba ⟨le_refl _, by omega⟩
    have hhigh := hmem (r.command.lba + r.command.told - 1) ⟨by omega, by omega⟩
    have hlow' := hcov lba ⟨le_refl _, by omega⟩
    have hhigh' := hcov (lba + count - 1) ⟨by omega, by omega⟩
    exact ⟨⟨by omega, by omega⟩, h.bound r (List.mem_singleton_self r),
      h.moved r (List.mem_singleton_self r)⟩
  · rintro ⟨⟨hlba, htold'⟩, hbound, hmoved⟩
    refine ⟨?_, fun x => ?_, ?_, ?_⟩
    · intro r' hr'
      rw [List.mem_singleton.mp hr']
      exact ⟨hwrite, hslave⟩
    · rw [coverage_single, hlba, htold']
    · intro r' hr'
      rw [List.mem_singleton.mp hr']
      exact hbound
    · intro r' hr'
      rw [List.mem_singleton.mp hr']
      exact hmoved

/-- No command at all is exact for an empty range only. -/
theorem not_exact_nil (hcount : 1 ≤ count) : ¬Exact write drive w lba count [] := by
  intro h
  exact zero_ne_one (h.one ⟨le_refl lba, by omega⟩)

variable {fs : List (Word × Word)}

theorem exact_command28_iff {lba : Word} {count : BitVec 16}
    (hsmall : lba.toNat < 2 ^ 28 ∧ count.toNat ≤ 255) :
    Exact write drive w lba.toNat count.toNat
      [⟨command28 write drive (lba.setWidth 32) (count.setWidth 8), (count.setWidth 8).toNat * w, fs⟩]
      ↔ 1 ≤ count.toNat ∧ lba.toNat + count.toNat ≤ 2 ^ 28 := by
  have hlba : (lba.setWidth 32).toNat = lba.toNat := by
    rw [BitVec.toNat_setWidth, Nat.mod_eq_of_lt (by omega)]
  have hcount : (count.setWidth 8).toNat = count.toNat := by
    rw [BitVec.toNat_setWidth, Nat.mod_eq_of_lt (by omega)]
  have hzero : count.setWidth 8 = (0 : BitVec 8) ↔ count.toNat = 0 := by
    rw [BitVec.toNat_eq, hcount]
    rfl
  have htold : (command28 write drive (lba.setWidth 32) (count.setWidth 8)).told =
      if count.toNat = 0 then 256 else count.toNat := by
    simp only [command28, hzero, hcount]
  refine Iff.trans (exact_single_iff rfl rfl (by dsimp only; rw [htold]; split <;> omega)) ?_
  simp only [htold, show (command28 write drive (lba.setWidth 32) (count.setWidth 8)).lba = lba.toNat
    from hlba, show (command28 write drive (lba.setWidth 32) (count.setWidth 8)).ext = false from rfl,
    hcount]
  by_cases h0 : count.toNat = 0
  · rw [if_pos h0]
    omega
  · rw [if_neg h0]
    exact ⟨fun h => ⟨by omega, h.2.1 trivial⟩, fun h => ⟨⟨trivial, rfl⟩, fun _ => h.2, rfl⟩⟩

theorem exact_command48_iff {lba : Word} {count : BitVec 16} :
    Exact write drive w lba.toNat count.toNat
      [⟨command48 write drive lba count, count.toNat * w, fs⟩] ↔
      1 ≤ count.toNat ∧ lba.toNat < 2 ^ 48 := by
  have hzero : count = (0 : BitVec 16) ↔ count.toNat = 0 := BitVec.toNat_eq
  have htold : (command48 write drive lba count).told =
      if count.toNat = 0 then 65536 else count.toNat := by
    simp only [command48, hzero]
  refine Iff.trans (exact_single_iff rfl rfl (by dsimp only; rw [htold]; split <;> omega)) ?_
  simp only [htold, show (command48 write drive lba count).lba = lba.toNat % 2 ^ 48 from rfl,
    show (command48 write drive lba count).ext = true from rfl]
  have hcount := count.isLt
  by_cases h0 : count.toNat = 0
  · rw [if_pos h0]
    omega
  · rw [if_neg h0]
    constructor
    · rintro ⟨⟨hlba, _⟩, _⟩
      exact ⟨by omega, by omega⟩
    · rintro ⟨_, hlba⟩
      exact ⟨⟨Nat.mod_eq_of_lt hlba, rfl⟩, fun h => absurd h (by decide), rfl⟩

end Single

/-! ### The commands of the readers -/

/-- The requests whose commands are exact, for the two readers. -/
def ReadAutoExact (lba count : Nat) : Prop :=
  1 ≤ count ∧ ((lba < 2 ^ 28 ∧ count ≤ 255 ∧ lba + count ≤ 2 ^ 28) ∨
    (¬(lba < 2 ^ 28 ∧ count ≤ 255) ∧ 2 ^ 28 ≤ lba + count ∧ lba < 2 ^ 48))

/-- The requests whose commands are exact, for the writer. -/
def WriteAutoExact (lba count : Nat) : Prop :=
  1 ≤ count ∧ ((lba < 2 ^ 28 ∧ count ≤ 255 ∧ lba + count ≤ 2 ^ 28) ∨
    (¬(lba < 2 ^ 28 ∧ count ≤ 255) ∧ lba < 2 ^ 48))

section Requests

variable {lba : Word} {count : BitVec 16} (drive : BitVec 8) (buf : Word) (size : BitVec 16)

/-- The first chunk covers the first sector. -/
theorem coverage_chunkRuns (hlba : lba.toNat < 2 ^ 28) (hcount : 1 ≤ count.toNat) (n : Nat) :
    1 ≤ coverage (chunkRuns lba count buf drive size (n + 1) 0) lba.toNat := by
  have hnat : ((lba + BitVec.ofNat 64 (255 * 0)).setWidth 32).toNat = lba.toNat := by
    rw [BitVec.toNat_setWidth, BitVec.toNat_add, BitVec.toNat_ofNat]
    omega
  have hn : 1 ≤ (BitVec.ofNat 8 (min (count.toNat - 255 * 0) 255)).toNat := by
    rw [BitVec.toNat_ofNat]
    omega
  have htold := command28_told false drive ((lba + BitVec.ofNat 64 (255 * 0)).setWidth 32)
    (BitVec.ofNat 8 (min (count.toNat - 255 * 0) 255))
  have hlba' : (chunkRun lba count buf drive size 0).command.lba = lba.toNat := hnat
  have hcover : (chunkRun lba count buf drive size 0).command.lba ≤ lba.toNat ∧
      lba.toNat < (chunkRun lba count buf drive size 0).command.lba +
        (chunkRun lba count buf drive size 0).command.told := by
    rw [hlba']
    exact ⟨le_refl _, Nat.lt_add_of_pos_right (hn.trans htold)⟩
  have hone := coverage_cons_pos [] hcover
  rw [coverage] at hone
  rw [chunkRuns, coverage, List.countP_append, hone]
  omega

/-- After the chunks the readers cover the first sector once more. -/
theorem not_exact_chunks (hlba : lba.toNat < 2 ^ 28) (hcount : 1 ≤ count.toNat) {w n : Nat}
    (hn : 1 ≤ n) {r : AtaRun} (hr : r.command = command48 false drive lba count) :
    ¬Exact false drive w lba.toNat count.toNat
      (r :: chunkRuns lba count buf drive size n 0) := by
  intro h
  have htold := command48_told false drive lba count
  have hmod : (command48 false drive lba count).lba = lba.toNat := Nat.mod_eq_of_lt (by omega)
  have hcover : r.command.lba ≤ lba.toNat ∧ lba.toNat < r.command.lba + r.command.told := by
    rw [hr]
    omega
  have hone := h.one ⟨le_refl lba.toNat, by omega⟩
  have hfirst := coverage_chunkRuns drive buf size hlba hcount (n - 1)
  rw [coverage_cons_pos _ hcover] at hone
  rw [Nat.sub_add_cancel hn] at hfirst
  omega

theorem exact_readAutoRuns_iff (hsum : lba.toNat < 2 ^ 28 ∨ 2 ^ 28 ≤ (lba + count.setWidth 64).toNat) :
    Exact false drive ((size.toNat + 1) / 2) lba.toNat count.toNat
      (readAutoRuns lba count buf drive size) ↔ ReadAutoExact lba.toNat count.toNat := by
  have hcount := count.isLt
  rw [toNat_sum] at hsum
  unfold readAutoRuns ReadAutoExact
  by_cases hsmall : lba.toNat < 2 ^ 28 ∧ count.toNat ≤ 255
  · rw [if_pos hsmall, exact_command28_iff hsmall]
    omega
  · rw [if_neg hsmall, toNat_sum]
    by_cases hchunks : (lba.toNat + count.toNat) % 2 ^ 64 < 2 ^ 28
    · rw [if_pos hchunks]
      refine iff_of_false ?_ (by omega)
      exact not_exact_chunks drive buf size (by omega) (by omega) (by omega) rfl
    · rw [if_neg hchunks, exact_command48_iff]
      omega

end Requests

/-! ### The calls on a drive -/

section Drive

variable (T : Timing) (base : BitVec 16) {w : Nat} {size : BitVec 16}
  (hwords : (size.toNat + 1) / 2 = w) (drive : BitVec 8) (buf : Word) {lba : Word}
  {count : BitVec 16} {io : Io AtaDrive}

include hwords in
theorem ataBus_readsFrom :
    ReadsFrom (ataBus T w base) base drive size (fun io => io.dev.busy < 100000) := by
  constructor
  · intro lba count buf io hlba hbusy
    have hok := ataRead28At_ok T base hwords drive buf hbusy hlba count
    exact ⟨_, Prod.ext hok.ret rfl, hok.busy⟩
  · intro lba count buf io hbusy
    have hok := ataRead48At_ok T base hwords drive buf hbusy lba count
    exact ⟨_, Prod.ext hok.ret rfl, hok.busy⟩

include hwords in
/-- **The commands of the readers are exact for these requests only.** -/
theorem readAuto_exact_iff (hbusy : io.dev.busy < 100000) :
    Exact false drive w lba.toNat count.toNat
      (issued base (ataReadAutoAt (ataBus T w base) base lba count buf drive size) io) ↔
      ReadAutoExact lba.toNat count.toNat := by
  have hcount := count.isLt
  by_cases hsum : lba.toNat < 2 ^ 28 ∨ 2 ^ 28 ≤ (lba + count.setWidth 64).toNat
  · have hbusy' : ({ io with log := [] } : Io AtaDrive).dev.busy < 100000 := hbusy
    obtain ⟨io', hrun, _⟩ := (ataBus_readsFrom T base hwords drive).auto buf hbusy' hsum
    have hruns : issued base (ataReadAutoAt (ataBus T w base) base lba count buf drive size) io =
        readAutoRuns lba count buf drive size := by
      rw [issued, hrun]
      exact (ataReadAutoAt_record _ buf hrun).trans (List.append_nil _)
    rw [hruns, ← hwords]
    exact exact_readAutoRuns_iff drive buf size hsum
  · have hlba : 2 ^ 28 ≤ lba.toNat := by omega
    have hlow : (lba + count.setWidth 64).toNat < 2 ^ 28 := by omega
    rw [issued, ataReadAutoAt_refused (ataBus T w base) base buf drive size _ hlba hlow]
    rw [toNat_sum] at hlow
    refine iff_of_false (not_exact_nil (by omega)) ?_
    unfold ReadAutoExact
    omega

include hwords in
/-- **The commands of the writer are exact for these requests only.** -/
theorem writeAuto_exact_iff (hbusy : io.dev.busy < 100000) :
    Exact true drive w lba.toNat count.toNat
      (issued (ataGetIoAndHead drive).1
        (ataWriteSectorAuto (ataBus T w (ataGetIoAndHead drive).1) lba count buf drive size) io) ↔
      WriteAutoExact lba.toNat count.toNat := by
  have hbusy' : ({ io with log := [] } : Io AtaDrive).dev.busy < 100000 := hbusy
  unfold issued ataWriteSectorAuto WriteAutoExact
  by_cases hsmall : lba.toNat < 2 ^ 28 ∧ count.toNat ≤ 255
  · have hok := ataWriteSector28bit_ok T hwords drive buf hbusy'
      (show (lba.setWidth 32).toNat < 2 ^ 28 by rw [BitVec.toNat_setWidth]; omega)
      (count.setWidth 8)
    rw [if_pos hsmall, (ataWriteSector28bit_record _ buf (Prod.ext hok.ret rfl)).2, hwords]
    exact (exact_command28_iff hsmall).trans (by omega)
  · have hok := ataWriteSector48bit_ok T hwords drive buf hbusy' lba count
    rw [if_neg hsmall, ataWriteSector48bit_record _ buf (Prod.ext hok.ret rfl), hwords]
    exact exact_command48_iff.trans (by omega)

end Drive

/-- **When the commands of the three functions are exact.** -/
theorem auto_commands_exact_iff (T : Timing) (size : BitVec 16) (drive : BitVec 8) (buf : Word)
    (lba : Word) (count : BitVec 16) (basePmio : BitVec 16) (io : Io AtaDrive)
    (hbusy : io.dev.busy < 100000) :
    let w := (size.toNat + 1) / 2
    let base := (ataGetIoAndHead drive).1
    (Exact false drive w lba.toNat count.toNat
      (issued base (ataReadSectorAuto (ataBus T w base) lba count buf drive size) io) ↔
        ReadAutoExact lba.toNat count.toNat) ∧
    (Exact false drive w lba.toNat count.toNat
      (issued basePmio
        (ataReadSectorSemiauto (ataBus T w basePmio) lba count buf basePmio drive size) io) ↔
        ReadAutoExact lba.toNat count.toNat) ∧
    (Exact true drive w lba.toNat count.toNat
      (issued base (ataWriteSectorAuto (ataBus T w base) lba count buf drive size) io) ↔
        WriteAutoExact lba.toNat count.toNat) := by
  refine ⟨readAuto_exact_iff T _ rfl drive buf hbusy, ?_, writeAuto_exact_iff T rfl drive buf hbusy⟩
  rw [issued, ataReadSectorSemiauto_eq]
  exact readAuto_exact_iff T basePmio rfl drive buf hbusy

/-- The last three sectors below `2 ^ 28`, and three behind them. -/
theorem auto_commands_exact_iff_exampleIo :
    exampleIo.dev.busy < 100000 ∧
      Exact false 3 256 (2 ^ 28 - 3) 3 (issued (ataGetIoAndHead 3).1
        (ataReadSectorAuto (ataBus exampleTiming 256 (ataGetIoAndHead 3).1) (2 ^ 28 - 3) 3 0x1000 3 512)
        exampleIo) ∧
      Exact true 3 256 (2 ^ 28) 3 (issued (ataGetIoAndHead 3).1
        (ataWriteSectorAuto (ataBus exampleTiming 256 (ataGetIoAndHead 3).1) (2 ^ 28) 3 0x1000 3 512)
        exampleIo) := by
  have hbusy : exampleIo.dev.busy < 100000 := by decide
  have hread := auto_commands_exact_iff exampleTiming 512 3 0x1000 (2 ^ 28 - 3) 3 0 exampleIo hbusy
  have hwrite := auto_commands_exact_iff exampleTiming 512 3 0x1000 (2 ^ 28) 3 0 exampleIo hbusy
  refine ⟨hbusy, hread.1.mpr ⟨by decide, Or.inl ⟨by decide, by decide, by decide⟩⟩,
    hwrite.2.2.mpr ⟨by decide, Or.inr ⟨by decide, by decide⟩⟩⟩

/-- 256 sectors from the start of the disk are read twice. -/
theorem exampleIo_not_exact :
    ¬Exact false 0 256 0 256 (issued (ataGetIoAndHead 0).1
      (ataReadSectorAuto (ataBus exampleTiming 256 (ataGetIoAndHead 0).1) 0 256 0x1000 0 512)
      exampleIo) := by
  have hiff : Exact false 0 256 (0 : Word).toNat (256 : BitVec 16).toNat _ ↔ _ :=
    readAuto_exact_iff exampleTiming (ataGetIoAndHead 0).1
      (show ((512 : BitVec 16).toNat + 1) / 2 = 256 from rfl) 0 0x1000
      (show exampleIo.dev.busy < 100000 by decide)
  refine fun h => absurd (hiff.mp h) ?_
  unfold ReadAutoExact
  decide

end AncoreOS.Drivers
