import AncoreOS.Drivers.AtaRecord

/-!
# Transfers to a drive that follows the rules

One lemma for each part of `ata.c`, against the drive of `AtaDrive.lean`: a wait
ends with `0` (`ataWaitReady_ok`), the register writes are the command the caller
means (`ataIssue28_ok`, `ataIssue48_ok`), and the loops move the words of the
transfer one after the other (`ataReadLoop_ok`, `ataWriteLoop_ok`).  The word `n`
of a transfer is the word `n % w` of its sector `n / w`, and with sectors of
`2 * w` bytes it lies at the offset `2 * n` of the buffer.

`write_read_roundtrip` puts them together.
-/

namespace AncoreOS.Drivers

open ByteMemory

/-! ### Waiting -/

section Status

variable {T : Timing}

theorem status_err (d : AtaDrive) : d.status T &&& 0x01 = 0 := by
  unfold AtaDrive.status
  generalize T.other d.tick = x
  split
  · split
    · revert x; decide
    · revert x; decide
  · revert x; decide

theorem status_busy {d : AtaDrive} (h : d.busy ≠ 0) : d.status T &&& 0x80 ≠ 0 := by
  unfold AtaDrive.status
  generalize T.other d.tick = x
  rw [if_neg h]
  revert x; decide

theorem status_ready {d : AtaDrive} (h : d.busy = 0) : d.status T &&& 0x80 = 0 := by
  unfold AtaDrive.status
  generalize T.other d.tick = x
  rw [if_pos h]
  split
  · revert x; decide
  · revert x; decide

theorem status_drq {d : AtaDrive} (h : d.busy = 0) (hdata : d.data.isSome) :
    d.status T &&& 0x08 ≠ 0 := by
  unfold AtaDrive.status
  generalize T.other d.tick = x
  rw [if_pos h, if_pos hdata]
  revert x; decide

end Status

variable (T : Timing) (w : Nat) (base : BitVec 16)

/-- The state after a wait: the drive is not busy, and nothing else has changed. -/
structure Waited (io io' : Io AtaDrive) : Prop where
  mem : io'.mem = io.mem
  tf : io'.dev.tf = io.dev.tf
  media : io'.dev.media = io.dev.media
  data : io'.dev.data = io.dev.data
  busy : io'.dev.busy = 0

theorem ataPoll_ok (needsDrq : Bool) :
    ∀ (n : Nat) (io : Io AtaDrive), io.dev.busy < n →
      (needsDrq = false ∨ io.dev.data.isSome) →
      ∃ io', ataPoll (ataBus T w base) base needsDrq n io = (0, io') ∧ Waited io io' := by
  intro n
  induction n with
  | zero => exact fun io h _ => absurd h (Nat.not_lt_zero _)
  | succ n ih =>
    intro io hbusy hdrq
    have hread : io.inb (ataBus T w base) (base + ataRegStatus) =
        (io.dev.status T, { io with
          dev := { io.dev with busy := io.dev.busy - 1, tick := io.dev.tick + 1 }
          log := .inb (base + ataRegStatus) (io.dev.status T) :: io.log }) := by
      simp only [Io.inb, ataBus, port_sub, AtaDrive.inb, if_pos]
    rw [ataPoll, hread]
    simp only [status_err, ne_eq, not_true_eq_false, if_false]
    by_cases hb : io.dev.busy = 0
    · rw [if_pos ⟨status_ready hb, hdrq.imp_right (status_drq hb)⟩]
      exact ⟨_, rfl, rfl, rfl, rfl, rfl, by simp [hb]⟩
    · rw [if_neg (fun h => status_busy hb h.1)]
      obtain ⟨io', hrun, hw⟩ := ih
        { io with
          dev := { io.dev with busy := io.dev.busy - 1, tick := io.dev.tick + 1 }
          ataStatus := io.dev.status T
          log := .inb (base + ataRegStatus) (io.dev.status T) :: io.log }
        (show io.dev.busy - 1 < n by omega) hdrq
      exact ⟨io', hrun, hw.mem, hw.tf, hw.media, hw.data, hw.busy⟩

theorem ataWaitReady_ok (needsDrq : Bool) {io : Io AtaDrive} (hbusy : io.dev.busy < 100000)
    (hdrq : needsDrq = false ∨ io.dev.data.isSome) :
    ∃ io', ataWaitReady (ataBus T w base) base needsDrq io = (0, io') ∧ Waited io io' :=
  ataPoll_ok T w base needsDrq 100000 io hbusy hdrq

/-! ### Commands -/

variable {T w base} in
theorem outb_register (io : Io AtaDrive) {reg : BitVec 16} (v : BitVec 8)
    (hreg : reg ≠ ataRegCommand) :
    io.outb (ataBus T w base) (base + reg) v =
      { io with
        dev := { io.dev with tf := io.dev.tf.write reg v }
        log := .outb (base + reg) v :: io.log } := by
  simp only [Io.outb, ataBus, port_sub, AtaDrive.outb, if_neg hreg]

variable {T w base} in
theorem outb_command (io : Io AtaDrive) (v : BitVec 8) :
    io.outb (ataBus T w base) (base + ataRegCommand) v =
      { io with
        dev := { io.dev with
          data := (io.dev.tf.command v).map (·, 0)
          busy := T.delay io.dev.tick
          tick := io.dev.tick + 1 }
        log := .outb (base + ataRegCommand) v :: io.log } := by
  simp only [Io.outb, ataBus, port_sub, AtaDrive.outb, if_true]

/-- The state after a command has been issued. -/
structure Issued (c : AtaCommand) (io io' : Io AtaDrive) : Prop where
  mem : io'.mem = io.mem
  media : io'.dev.media = io.dev.media
  data : io'.dev.data = some (c, 0)
  busy : io'.dev.busy < 100000

theorem ataIssue28_ok (write : Bool) (drive : BitVec 8) {lba : BitVec 32} (hlba : lba.toNat < 2 ^ 28)
    (count : BitVec 8) (io : Io AtaDrive) :
    Issued (command28 write drive lba count) io
      (ataIssue28 (ataBus T w base) base
        ((ataGetIoAndHead drive).2 ||| ((lba >>> 24).setWidth 8 &&& 0x0F)) lba count
        (readOrWrite28 write) io) := by
  have hcommand := io.dev.tf.command_set28 write drive hlba count
  simp only [ataIssue28, outb_command,
    outb_register _ _ (show ataRegDriveHead ≠ ataRegCommand by decide),
    outb_register _ _ (show ataRegSeccount ≠ ataRegCommand by decide),
    outb_register _ _ (show ataRegLbaLow ≠ ataRegCommand by decide),
    outb_register _ _ (show ataRegLbaMid ≠ ataRegCommand by decide),
    outb_register _ _ (show ataRegLbaHigh ≠ ataRegCommand by decide)]
  refine ⟨rfl, rfl, ?_, T.delay_lt _⟩
  rw [Taskfile.set28] at hcommand
  rw [hcommand]
  rfl

theorem ataStatusReads_ok : ∀ (n : Nat) (io : Io AtaDrive),
    ∃ io', ataStatusReads (ataBus T w base) base n io = io' ∧ io'.mem = io.mem ∧
      io'.dev.tf = io.dev.tf ∧ io'.dev.media = io.dev.media ∧ io'.dev.data = io.dev.data := by
  intro n
  induction n with
  | zero => exact fun io => ⟨io, rfl, rfl, rfl, rfl, rfl⟩
  | succ n ih =>
    intro io
    obtain ⟨io', hrun, hmem, htf, hmedia, hdata⟩ :=
      ih (io.inb (ataBus T w base) (base + ataRegStatus)).2
    refine ⟨io', hrun, hmem.trans rfl, htf.trans ?_, hmedia.trans ?_, hdata.trans ?_⟩
    · simp only [Io.inb, ataBus, port_sub, AtaDrive.inb, if_pos]
    · simp only [Io.inb, ataBus, port_sub, AtaDrive.inb, if_pos]
    · simp only [Io.inb, ataBus, port_sub, AtaDrive.inb, if_pos]

theorem ataIssue48_ok (write : Bool) (drive : BitVec 8) (lba : Word) (count : BitVec 16)
    (io : Io AtaDrive) :
    Issued (command48 write drive lba count) io
      (ataIssue48 (ataBus T w base) base ((ataGetIoAndHead drive).2 ||| 0x40) lba count
        (readOrWrite48 write) io) := by
  have hcommand := io.dev.tf.command_set48 write drive lba count
  unfold ataIssue48
  obtain ⟨io₁, hrun, hmem, htf, hmedia, _⟩ := ataStatusReads_ok T w base 4
    (io.outb (ataBus T w base) (base + ataRegDriveHead) ((ataGetIoAndHead drive).2 ||| 0x40))
  rw [outb_register _ _ (by decide)] at hmem htf hmedia
  simp only [hrun, ataWrite48bitLba, outb_command,
    outb_register _ _ (show ataRegSeccount ≠ ataRegCommand by decide),
    outb_register _ _ (show ataRegLbaLow ≠ ataRegCommand by decide),
    outb_register _ _ (show ataRegLbaMid ≠ ataRegCommand by decide),
    outb_register _ _ (show ataRegLbaHigh ≠ ataRegCommand by decide), htf]
  refine ⟨hmem, hmedia, ?_, T.delay_lt _⟩
  rw [Taskfile.set48] at hcommand
  rw [hcommand]
  rfl

/-! ### The words of a transfer -/

/-- The words `lo` up to `hi` of the buffer hold `f`, and the rest of memory is as in
`m`. -/
structure Filled (m m' : Mem) (buf : Word) (lo hi : Nat) (f : Nat → BitVec 16) : Prop where
  low : ∀ n, lo ≤ n → n < hi → m' (buf + BitVec.ofNat 64 (2 * n)) = (f n).setWidth 8
  high : ∀ n, lo ≤ n → n < hi → m' (buf + BitVec.ofNat 64 (2 * n + 1)) = (f n >>> 8).setWidth 8
  rest : ∀ x, (∀ k, 2 * lo ≤ k → k < 2 * hi → x ≠ buf + BitVec.ofNat 64 k) → m' x = m x

theorem filled_nil (m : Mem) (buf : Word) (n : Nat) (f : Nat → BitVec 16) : Filled m m buf n n f :=
  ⟨fun _ h₁ h₂ => absurd (lt_of_le_of_lt h₁ h₂) (lt_irrefl n),
    fun _ h₁ h₂ => absurd (lt_of_le_of_lt h₁ h₂) (lt_irrefl n), fun _ _ => rfl⟩

/-- Two neighbouring stretches of words make one. -/
theorem Filled.trans {m m' m'' : Mem} {buf : Word} {a b c : Nat} {f : Nat → BitVec 16}
    (h : Filled m m' buf a b f) (h' : Filled m' m'' buf b c f) (hab : a ≤ b) (hbc : b ≤ c)
    (hc : 2 * c ≤ 2 ^ 64) : Filled m m'' buf a c f := by
  have hkeep : ∀ k, k < 2 * b → m'' (buf + BitVec.ofNat 64 k) = m' (buf + BitVec.ofNat 64 k) :=
    fun k hk => h'.rest _ (fun k' h₁ h₂ => offset_ne (by omega) (by omega) (by omega))
  refine ⟨fun n h₁ h₂ => ?_, fun n h₁ h₂ => ?_, fun x hx => ?_⟩
  · by_cases hn : n < b
    · rw [hkeep _ (by omega)]
      exact h.low n h₁ hn
    · exact h'.low n (by omega) h₂
  · by_cases hn : n < b
    · rw [hkeep _ (by omega)]
      exact h.high n h₁ hn
    · exact h'.high n (by omega) h₂
  · rw [h'.rest x (fun k h₁ h₂ => hx k (by omega) h₂), h.rest x (fun k h₁ h₂ => hx k h₁ (by omega))]

/-- One word goes into the buffer. -/
theorem filled_one (io : Io AtaDrive) (buf : Word) {n : Nat} (hn : 2 * n + 1 < 2 ^ 31)
    {f : Nat → BitVec 16} :
    Filled io.mem (io.fill (bufIndex buf (2 * n)) (bufIndex buf (2 * n + 1)) (f n)).mem buf n (n + 1)
      f := by
  rw [bufIndex_eq buf (by omega), bufIndex_eq buf hn]
  have hne : buf + BitVec.ofNat 64 (2 * n) ≠ buf + BitVec.ofNat 64 (2 * n + 1) :=
    offset_ne (by omega) (by omega) (by omega)
  refine ⟨fun k h₁ h₂ => ?_, fun k h₁ h₂ => ?_, fun x hx => ?_⟩
  · obtain rfl : k = n := by omega
    exact (Function.update_of_ne hne _ _).trans (Function.update_self _ _ _)
  · obtain rfl : k = n := by omega
    exact Function.update_self _ _ _
  · exact (Function.update_of_ne (hx _ (by omega) (by omega)) _ _).trans
      (Function.update_of_ne (hx _ (by omega) (by omega)) _ _)

/-- The word `n` of the transfer of a command. -/
def AtaCommand.stream (c : AtaCommand) (w : Nat) (media : Bool → Nat → Nat → BitVec 16) (n : Nat) :
    BitVec 16 :=
  media c.slave (c.lba + n / w) (n % w)

/-- What the drive is in after the word `n`: still in the sector, or past it. -/
theorem moved_ok {w : Nat} (d : AtaDrive) (c : AtaCommand) {s j : Nat} (hs : s < c.told) (hj : j < w) :
    (d.moved T w c (s * w + j)).media = d.media ∧
      (j + 1 < w → (d.moved T w c (s * w + j)).data = some (c, s * w + (j + 1)) ∧
        (d.moved T w c (s * w + j)).busy = d.busy) ∧
      (j + 1 = w → (s + 1 < c.told → (d.moved T w c (s * w + j)).data = some (c, (s + 1) * w)) ∧
        (d.moved T w c (s * w + j)).busy < 100000) := by
  have hsucc : (s + 1) * w = s * w + w := Nat.succ_mul s w
  have hle : (s + 1) * w ≤ c.told * w := Nat.mul_le_mul_right w hs
  have hmod : (s * w + j + 1) % w = (j + 1) % w := by
    rw [Nat.add_assoc, Nat.mul_comm, Nat.mul_add_mod]
  unfold AtaDrive.moved
  by_cases hjw : j + 1 < w
  · rw [if_neg (by omega), if_neg (by rw [hmod, Nat.mod_eq_of_lt hjw]; omega)]
    exact ⟨rfl, fun _ => ⟨rfl, rfl⟩, fun h => absurd h (by omega)⟩
  · obtain rfl : w = j + 1 := by omega
    by_cases hlast : s * (j + 1) + j + 1 = c.told * (j + 1)
    · rw [if_pos hlast]
      refine ⟨rfl, fun h => absurd h hjw, fun _ => ⟨fun hmore => ?_, T.delay_lt _⟩⟩
      have hall : (s + 1) * (j + 1) = c.told * (j + 1) := by
        rw [hsucc]
        omega
      have hmul : s + 1 = c.told := Nat.eq_of_mul_eq_mul_right (Nat.succ_pos j) hall
      exact absurd hmul (by omega)
    · rw [if_neg hlast, if_pos (by rw [hmod, Nat.mod_self])]
      refine ⟨rfl, fun h => absurd h hjw, fun _ => ⟨fun _ => ?_, T.delay_lt _⟩⟩
      rw [hsucc]
      rfl

/-! ### Reading -/

/-- The words of a transfer lie one after the other in a buffer of sectors of `size`
bytes, and no index overflows. -/
def AtaCommand.Fits (c : AtaCommand) (w size : Nat) : Prop := size = 2 * w ∧ 2 * (c.told * w) ≤ 2 ^ 31

theorem AtaCommand.Fits.index {c : AtaCommand} {w size : Nat} (h : c.Fits w size) (s j : Nat) :
    s * size + 2 * j = 2 * (s * w + j) := by
  rw [h.1]
  ring

section Read

variable {w} {c : AtaCommand} (hread : c.write = false) (buf : Word) {size : Nat}
  (hwords : (size + 1) / 2 = w)

include hread in
/-- The drive gives the word it is at, and moves on. -/
theorem inw_word {n : Nat} {io : Io AtaDrive} (hdata : io.dev.data = some (c, n))
    (hbusy : io.dev.busy = 0) :
    io.inw (ataBus T w base) (base + ataRegData) =
      (c.stream w io.dev.media n, { io with
        dev := io.dev.moved T w c n
        log := .inw (base + ataRegData) (c.stream w io.dev.media n) :: io.log }) := by
  simp only [Io.inw, ataBus, port_sub, AtaDrive.inw, hdata, hbusy, hread, and_self, if_true]
  rfl

/-- The word `j` of the sector `s` goes to its place in the buffer. -/
theorem filled_word (io : Io AtaDrive) (hfit : c.Fits w size) {s j : Nat} (hs : s < c.told)
    (hj : j < w) {f : Nat → BitVec 16} :
    Filled io.mem (io.fill (bufIndex buf (s * size + 2 * j)) (bufIndex buf (s * size + 2 * j + 1))
      (f (s * w + j))).mem buf (s * w + j) (s * w + j + 1) f := by
  have hsucc : (s + 1) * w = s * w + w := Nat.succ_mul s w
  have hle : (s + 1) * w ≤ c.told * w := Nat.mul_le_mul_right w hs
  have hmax := hfit.2
  rw [hfit.index]
  exact filled_one io buf (by omega)

include hread in
theorem ataReadWords_ok {s : Nat} (hs : s < c.told) :
    ∀ (r j : Nat) (io : Io AtaDrive), j + r = w → io.dev.data = some (c, s * w + j) →
      io.dev.busy = 0 →
      ∃ io', ataReadWords (ataBus T w base) base buf size s r (2 * j) io = io' ∧
        io'.dev.media = io.dev.media ∧ io'.dev.busy < 100000 ∧
        (s + 1 < c.told → io'.dev.data = some (c, (s + 1) * w)) ∧
        (c.Fits w size →
          Filled io.mem io'.mem buf (s * w + j) ((s + 1) * w) (c.stream w io.dev.media)) := by
  have hsucc : (s + 1) * w = s * w + w := Nat.succ_mul s w
  have hle : (s + 1) * w ≤ c.told * w := Nat.mul_le_mul_right w hs
  intro r
  induction r with
  | zero =>
    intro j io hj hdata hbusy
    obtain rfl : j = w := by omega
    refine ⟨io, rfl, rfl, by omega, fun _ => by rw [hdata, hsucc], fun _ => ?_⟩
    rw [hsucc]
    exact filled_nil _ _ _ _
  | succ r ih =>
    intro j io hj hdata hbusy
    have hjw : j < w := by omega
    obtain ⟨hmedia, hin, hend⟩ := moved_ok T io.dev c hs hjw
    have hone := fun hfit : c.Fits w size =>
      filled_word buf io hfit hs hjw (f := c.stream w io.dev.media)
    rw [ataReadWords, inw_word T base hread hdata hbusy]
    by_cases hmore : j + 1 < w
    · let io₁ : Io AtaDrive := Io.fill (bufIndex buf (s * size + 2 * j))
        (bufIndex buf (s * size + 2 * j + 1)) (c.stream w io.dev.media (s * w + j))
        { io with
          dev := io.dev.moved T w c (s * w + j)
          log := .inw (base + ataRegData) (c.stream w io.dev.media (s * w + j)) :: io.log }
      obtain ⟨io', hrun, hm, hb, hd, hf⟩ := ih (j + 1) io₁ (by omega) (hin hmore).1
        ((hin hmore).2.trans hbusy)
      refine ⟨io', hrun, hm.trans hmedia, hb, hd, fun hfit => ?_⟩
      have hmax := hfit.2
      have hrest := hf hfit
      have hsame : io₁.dev.media = io.dev.media := hmedia
      rw [hsame] at hrest
      exact (hone hfit).trans hrest (by omega) (by omega) (by omega)
    · -- the last word of the sector
      obtain rfl : r = 0 := by omega
      obtain ⟨hd, hb⟩ := hend (by omega)
      refine ⟨_, rfl, hmedia, hb, hd, fun hfit => ?_⟩
      rw [hsucc, show s * w + w = s * w + j + 1 by omega]
      exact hone hfit

include hread hwords in
/-- **The sector loop moves the words of its sectors into the buffer.** -/
theorem ataReadLoop_ok :
    ∀ (n s : Nat) (io : Io AtaDrive), s + n ≤ c.told →
      (n ≠ 0 → io.dev.data = some (c, s * w)) → io.dev.busy < 100000 →
      ∃ io', ataReadLoop (ataBus T w base) base buf size n s io = (0, io') ∧
        io'.dev.media = io.dev.media ∧ io'.dev.busy < 100000 ∧
        (c.Fits w size →
          Filled io.mem io'.mem buf (s * w) ((s + n) * w) (c.stream w io.dev.media)) := by
  intro n
  induction n with
  | zero => exact fun s io _ _ hbusy => ⟨io, rfl, rfl, hbusy, fun _ => filled_nil _ _ _ _⟩
  | succ n ih =>
    intro s io hs hdata hbusy
    have hdata := hdata (Nat.succ_ne_zero n)
    obtain ⟨io₁, hwait, hw⟩ := ataWaitReady_ok T w base true hbusy
      (Or.inr (by rw [hdata]; rfl))
    obtain ⟨io₂, hrun₂, hm₂, hb₂, hd₂, hf₂⟩ := ataReadWords_ok T base hread buf
      (show s < c.told by omega) w 0 io₁ (Nat.zero_add w) (hw.data.trans hdata) hw.busy
    obtain ⟨io₃, hrun, hm₃, hb₃, hf₃⟩ := ih (s + 1) io₂ (by omega)
      (fun hn => hd₂ (by omega)) hb₂
    refine ⟨io₃, ?_, (hm₃.trans hm₂).trans hw.media, hb₃, fun hfit => ?_⟩
    · rw [ataReadLoop_of_wait hwait, hwords, hrun₂]
      exact hrun
    · have hle : (s + (n + 1)) * w ≤ c.told * w := Nat.mul_le_mul_right w hs
      have hmax := hfit.2
      have hfirst := hf₂ hfit
      have hrest := hf₃ hfit
      rw [hw.mem, hw.media] at hfirst
      rw [hm₂, hw.media, show s + 1 + n = s + (n + 1) by omega] at hrest
      exact hfirst.trans hrest (Nat.mul_le_mul_right w (Nat.le_succ s))
        (Nat.mul_le_mul_right w (by omega)) (by omega)

end Read

/-- The result of a reader: the words of the command are in the buffer. -/
structure ReadOk (w size : Nat) (c : AtaCommand) (buf : Word) (n : Nat) (io : Io AtaDrive)
    (r : Int × Io AtaDrive) : Prop where
  ret : r.1 = 0
  media : r.2.dev.media = io.dev.media
  busy : r.2.dev.busy < 100000
  filled : c.Fits w size → Filled io.mem r.2.mem buf 0 (n * w) (c.stream w io.dev.media)

section Readers

variable {w} {size : BitVec 16} (hwords : (size.toNat + 1) / 2 = w) (drive : BitVec 8)
  (buf : Word) {io : Io AtaDrive} (hbusy : io.dev.busy < 100000)

include hwords in
/-- The part that the readers share, after the command has been issued. -/
theorem ataReadLoop_issued {io₁ io₂ : Io AtaDrive} (hw₁ : Waited io io₁) {c : AtaCommand}
    (hread : c.write = false) (hissue : Issued c io₁ io₂) {n : Nat} (hn : n ≤ c.told) :
    ReadOk w size.toNat c buf n io (ataReadLoop (ataBus T w base) base buf size.toNat n 0 io₂) := by
  obtain ⟨io₃, hrun, hm, hb, hf⟩ := ataReadLoop_ok T base hread buf hwords n 0 io₂
    (by rw [Nat.zero_add]; exact hn) (fun _ => by rw [Nat.zero_mul]; exact hissue.data) hissue.busy
  rw [hissue.media, hissue.mem, hw₁.media, hw₁.mem, Nat.zero_mul, Nat.zero_add] at hf
  rw [hrun]
  exact ⟨rfl, (hm.trans hissue.media).trans hw₁.media, hb, hf⟩

include hwords hbusy in
theorem ataRead28At_ok {lba : BitVec 32} (hlba : lba.toNat < 2 ^ 28) (count : BitVec 8) :
    ReadOk w size.toNat (command28 false drive lba count) buf count.toNat io
      (ataRead28At (ataBus T w base) base lba count buf drive size io) := by
  obtain ⟨io₁, hwait, hw₁⟩ := ataWaitReady_ok T w base false hbusy (Or.inl rfl)
  have hissue := ataIssue28_ok T w base false drive hlba count io₁
  rw [ataRead28At_of_wait hlba hwait]
  exact ataReadLoop_issued T base hwords buf hw₁ rfl hissue (command28_told _ _ _ _)

include hwords hbusy in
theorem ataRead48At_ok (lba : Word) (count : BitVec 16) :
    ReadOk w size.toNat (command48 false drive lba count) buf count.toNat io
      (ataRead48At (ataBus T w base) base lba count buf drive size io) := by
  obtain ⟨io₁, hwait, hw₁⟩ := ataWaitReady_ok T w base false hbusy (Or.inl rfl)
  have hissue := ataIssue48_ok T w base false drive lba count io₁
  rw [ataRead48At_of_wait hwait]
  exact ataReadLoop_issued T base hwords buf hw₁ rfl hissue (command48_told _ _ _ _)

end Readers

/-! ### Writing -/

/-- The word `n` of a buffer. -/
def bufWord (m : Mem) (buf : Word) (n : Nat) : BitVec 16 :=
  (m (buf + BitVec.ofNat 64 (2 * n))).setWidth 16 |||
    (m (buf + BitVec.ofNat 64 (2 * n + 1))).setWidth 16 <<< 8

/-- The media after the first `n` words of a transfer have been written as `f`. -/
def AtaCommand.mediaAfter (c : AtaCommand) (w n : Nat) (f : Nat → BitVec 16)
    (media : Bool → Nat → Nat → BitVec 16) : Bool → Nat → Nat → BitVec 16 := fun slave lba k =>
  if slave = c.slave ∧ c.lba ≤ lba ∧ k < w ∧ (lba - c.lba) * w + k < n then
    f ((lba - c.lba) * w + k)
  else media slave lba k

theorem mediaAfter_zero (c : AtaCommand) (w : Nat) (f : Nat → BitVec 16)
    (media : Bool → Nat → Nat → BitVec 16) : c.mediaAfter w 0 f media = media := by
  funext slave lba k
  exact if_neg (fun h => Nat.not_lt_zero _ h.2.2.2)

/-- A place on the disk is a word of the transfer in one way only. -/
theorem place_iff {w n a k : Nat} (hk : k < w) : a * w + k = n ↔ a = n / w ∧ k = n % w := by
  have hw : 0 < w := by omega
  constructor
  · rintro rfl
    rw [Nat.mul_comm, Nat.mul_add_div hw, Nat.mul_add_mod, Nat.div_eq_of_lt hk, Nat.mod_eq_of_lt hk]
    exact ⟨rfl, rfl⟩
  · rintro ⟨rfl, rfl⟩
    rw [Nat.mul_comm]
    exact Nat.div_add_mod n w

theorem mediaAfter_succ (c : AtaCommand) {w n : Nat} (hw : 0 < w) (f : Nat → BitVec 16)
    (media : Bool → Nat → Nat → BitVec 16) :
    (fun slave lba k => if slave = c.slave ∧ lba = c.lba + n / w ∧ k = n % w then f n
      else c.mediaAfter w n f media slave lba k) = c.mediaAfter w (n + 1) f media := by
  funext slave lba k
  have hmod := Nat.mod_lt n hw
  by_cases hplace : slave = c.slave ∧ lba = c.lba + n / w ∧ k = n % w
  · obtain ⟨rfl, rfl, rfl⟩ := hplace
    have hn : (c.lba + n / w - c.lba) * w + n % w = n := by
      rw [Nat.add_sub_cancel_left, place_iff hmod]
      exact ⟨rfl, rfl⟩
    rw [if_pos ⟨rfl, rfl, rfl⟩, AtaCommand.mediaAfter, hn,
      if_pos ⟨rfl, Nat.le_add_right _ _, hmod, Nat.lt_succ_self n⟩]
  · rw [if_neg hplace, AtaCommand.mediaAfter, AtaCommand.mediaAfter]
    have hsame : (slave = c.slave ∧ c.lba ≤ lba ∧ k < w ∧ (lba - c.lba) * w + k < n) ↔
        (slave = c.slave ∧ c.lba ≤ lba ∧ k < w ∧ (lba - c.lba) * w + k < n + 1) := by
      refine and_congr_right fun hsl => and_congr_right fun hle => and_congr_right fun hk => ?_
      refine ⟨fun h => by omega, fun h => lt_of_le_of_ne (by omega) (fun he => hplace ?_)⟩
      obtain ⟨ha, hk'⟩ := (place_iff hk).mp he
      exact ⟨hsl, by omega, hk'⟩
    simp only [hsame]

section Write

variable {w} {c : AtaCommand} (hwrite : c.write = true) (buf : Word) {size : Nat}
  (hwords : (size + 1) / 2 = w) (media : Bool → Nat → Nat → BitVec 16)

/-- The drive with the word `n` of the transfer of `c` written. -/
def AtaDrive.written (d : AtaDrive) (w : Nat) (c : AtaCommand) (n : Nat) (v : BitVec 16) : AtaDrive :=
  { d with media := fun slave lba k =>
      if slave = c.slave ∧ lba = c.lba + n / w ∧ k = n % w then v else d.media slave lba k }

include hwrite in
/-- The drive takes the word it is at, and moves on. -/
theorem outw_word {n : Nat} {io : Io AtaDrive} {v : BitVec 16} (hdata : io.dev.data = some (c, n))
    (hbusy : io.dev.busy = 0) :
    io.outw (ataBus T w base) (base + ataRegData) v =
      { io with
        dev := (io.dev.written w c n v).moved T w c n
        log := .outw (base + ataRegData) v :: io.log } := by
  simp only [Io.outw, ataBus, port_sub, AtaDrive.outw, AtaDrive.written, hdata, hbusy, hwrite,
    and_self, if_true]

/-- The word that is written is the one of the buffer. -/
theorem written_media (hfit : c.Fits w size) {s j : Nat} (hs : s < c.told) (hj : j < w) (m : Mem)
    {d : AtaDrive} (h : d.media = c.mediaAfter w (s * w + j) (bufWord m buf) media) :
    (d.written w c (s * w + j) ((m (bufIndex buf (s * size + 2 * j))).setWidth 16 |||
      (m (bufIndex buf (s * size + 2 * j + 1))).setWidth 16 <<< 8)).media =
        c.mediaAfter w (s * w + j + 1) (bufWord m buf) media := by
  have hsucc : (s + 1) * w = s * w + w := Nat.succ_mul s w
  have hle : (s + 1) * w ≤ c.told * w := Nat.mul_le_mul_right w hs
  have hmax := hfit.2
  rw [hfit.index, bufIndex_eq buf (by omega), bufIndex_eq buf (by omega),
    ← mediaAfter_succ c (show 0 < w by omega), ← h]
  rfl

include hwrite in
theorem ataWriteWords_ok {s : Nat} (hs : s < c.told) :
    ∀ (r j : Nat) (io : Io AtaDrive), j + r = w → io.dev.data = some (c, s * w + j) →
      io.dev.busy = 0 →
      (c.Fits w size → io.dev.media = c.mediaAfter w (s * w + j) (bufWord io.mem buf) media) →
      ∃ io', ataWriteWords (ataBus T w base) base buf size s r (2 * j) io = io' ∧
        io'.mem = io.mem ∧ io'.dev.busy < 100000 ∧
        (s + 1 < c.told → io'.dev.data = some (c, (s + 1) * w)) ∧
        (c.Fits w size → io'.dev.media = c.mediaAfter w ((s + 1) * w) (bufWord io.mem buf) media) := by
  have hsucc : (s + 1) * w = s * w + w := Nat.succ_mul s w
  intro r
  induction r with
  | zero =>
    intro j io hj hdata hbusy hmedia
    obtain rfl : j = w := by omega
    exact ⟨io, rfl, rfl, by omega, fun _ => by rw [hdata, hsucc], by rw [hsucc]; exact hmedia⟩
  | succ r ih =>
    intro j io hj hdata hbusy hmedia
    have hjw : j < w := by omega
    rw [ataWriteWords, outw_word T base hwrite hdata hbusy]
    obtain ⟨hm, hin, hend⟩ := moved_ok T (io.dev.written w c (s * w + j)
      ((io.mem (bufIndex buf (s * size + 2 * j))).setWidth 16 |||
        (io.mem (bufIndex buf (s * size + 2 * j + 1))).setWidth 16 <<< 8)) c hs hjw
    have hnext := fun hfit : c.Fits w size =>
      hm.trans (written_media buf media hfit hs hjw io.mem (hmedia hfit))
    by_cases hmore : j + 1 < w
    · exact ih (j + 1) _ (by omega) (hin hmore).1 ((hin hmore).2.trans hbusy) hnext
    · -- the last word of the sector
      obtain rfl : r = 0 := by omega
      obtain ⟨hd, hb⟩ := hend (by omega)
      refine ⟨_, rfl, rfl, hb, hd, fun hfit => ?_⟩
      rw [hsucc, show s * w + w = s * w + j + 1 by omega]
      exact hnext hfit

include hwrite hwords in
/-- **The sector loop moves the words of the buffer to its sectors.** -/
theorem ataWriteLoop_ok :
    ∀ (n s : Nat) (io : Io AtaDrive), s + n ≤ c.told →
      (n ≠ 0 → io.dev.data = some (c, s * w)) → io.dev.busy < 100000 →
      (c.Fits w size → io.dev.media = c.mediaAfter w (s * w) (bufWord io.mem buf) media) →
      ∃ io', ataWriteLoop (ataBus T w base) base buf size n s io = (0, io') ∧
        io'.mem = io.mem ∧ io'.dev.busy < 100000 ∧
        (c.Fits w size →
          io'.dev.media = c.mediaAfter w ((s + n) * w) (bufWord io.mem buf) media) := by
  intro n
  induction n with
  | zero => exact fun s io _ _ hbusy hmedia => ⟨io, rfl, rfl, hbusy, hmedia⟩
  | succ n ih =>
    intro s io hs hdata hbusy hmedia
    have hdata := hdata (Nat.succ_ne_zero n)
    obtain ⟨io₁, hwait, hw⟩ := ataWaitReady_ok T w base true hbusy (Or.inr (by rw [hdata]; rfl))
    obtain ⟨io₂, hrun₂, hmem₂, hb₂, hd₂, hm₂⟩ := ataWriteWords_ok T base hwrite buf media
      (show s < c.told by omega) w 0 io₁ (Nat.zero_add w) (hw.data.trans hdata) hw.busy
      (by rw [hw.media, hw.mem]; exact hmedia)
    obtain ⟨io₃, hrun, hmem₃, hb₃, hm₃⟩ := ih (s + 1) io₂ (by omega) (fun hn => hd₂ (by omega)) hb₂
      (by rw [hmem₂]; exact hm₂)
    refine ⟨io₃, ?_, (hmem₃.trans hmem₂).trans hw.mem, hb₃, fun hfit => ?_⟩
    · rw [ataWriteLoop_of_wait hwait, hwords, hrun₂]
      exact hrun
    · rw [hm₃ hfit, hmem₂, hw.mem, show s + 1 + n = s + (n + 1) by omega]

end Write

theorem ataFlush_ok (command : BitVec 8) (hcmd : ∀ t : Taskfile, t.command command = none)
    (head : BitVec 8) (io : Io AtaDrive) :
    ∃ io', ataFlush (ataBus T w base) command base head io = (0, io') ∧ io'.mem = io.mem ∧
      io'.dev.media = io.dev.media ∧ io'.dev.busy < 100000 := by
  obtain ⟨io₁, hrun, hmem, _, hmedia, _⟩ := ataStatusReads_ok T w base 4
    (io.outb (ataBus T w base) (base + ataRegDriveHead) head)
  rw [outb_register _ _ (by decide)] at hmem hmedia
  have hcommand : io₁.outb (ataBus T w base) (base + ataRegCommand) command = _ :=
    outb_command io₁ command
  rw [hcmd] at hcommand
  obtain ⟨io₂, hwait, hw⟩ := ataWaitReady_ok T w base false
    (show (io₁.outb (ataBus T w base) (base + ataRegCommand) command).dev.busy < 100000 by
      rw [hcommand]
      exact T.delay_lt _) (Or.inl rfl)
  refine ⟨io₂, ?_, ?_, ?_, by rw [hw.busy]; decide⟩
  · rw [ataFlush]
    simp only [hrun]
    exact hwait
  · rw [hw.mem, hcommand]
    exact hmem
  · rw [hw.media, hcommand]
    exact hmedia

/-- The result of a writer: the words of the buffer are on the disk. -/
structure WriteOk (w size : Nat) (c : AtaCommand) (buf : Word) (n : Nat) (io : Io AtaDrive)
    (r : Int × Io AtaDrive) : Prop where
  ret : r.1 = 0
  mem : r.2.mem = io.mem
  busy : r.2.dev.busy < 100000
  media : c.Fits w size →
    r.2.dev.media = c.mediaAfter w (n * w) (bufWord io.mem buf) io.dev.media

section Writers

variable {w} {size : BitVec 16} (hwords : (size.toNat + 1) / 2 = w) (drive : BitVec 8)
  (buf : Word) {io : Io AtaDrive} (hbusy : io.dev.busy < 100000)

include hwords in
/-- The part that the writers share, after the command has been issued. -/
theorem ataWriteLoop_issued {io₁ io₂ : Io AtaDrive} (hw₁ : Waited io io₁) {c : AtaCommand}
    (hwrite : c.write = true) (hissue : Issued c io₁ io₂) {n : Nat} (hn : n ≤ c.told) :
    ∃ io₃, ataWriteLoop (ataBus T w base) base buf size.toNat n 0 io₂ = (0, io₃) ∧
      WriteOk w size.toNat c buf n io (0, io₃) := by
  obtain ⟨io₃, hloop, hmem, hb, hm⟩ := ataWriteLoop_ok T base hwrite buf hwords io.dev.media
    n 0 io₂ (by rw [Nat.zero_add]; exact hn)
    (fun _ => by rw [Nat.zero_mul]; exact hissue.data) hissue.busy
    (fun _ => by rw [Nat.zero_mul, mediaAfter_zero, hissue.media, hw₁.media])
  rw [hissue.mem, hw₁.mem, Nat.zero_add] at hm
  exact ⟨io₃, hloop, rfl, (hmem.trans hissue.mem).trans hw₁.mem, hb, hm⟩

include hwords hbusy in
theorem ataWriteSector28bit_ok {lba : BitVec 32} (hlba : lba.toNat < 2 ^ 28) (count : BitVec 8) :
    WriteOk w size.toNat (command28 true drive lba count) buf count.toNat io
      (ataWriteSector28bit (ataBus T w (ataGetIoAndHead drive).1) lba count buf drive size io) := by
  obtain ⟨io₁, hwait, hw₁⟩ := ataWaitReady_ok T w (ataGetIoAndHead drive).1 false hbusy (Or.inl rfl)
  have hissue := ataIssue28_ok T w (ataGetIoAndHead drive).1 true drive hlba count io₁
  obtain ⟨io₃, hloop, hok⟩ := ataWriteLoop_issued T (ataGetIoAndHead drive).1 hwords buf hw₁ rfl
    hissue (command28_told _ _ _ _)
  rw [ataWriteSector28bit_of_wait hlba hwait hloop]
  obtain ⟨io₄, hflush, hmem, hmedia, hb⟩ := ataFlush_ok T w (ataGetIoAndHead drive).1
    ataCmdCacheFlush (fun _ => rfl)
    ((ataGetIoAndHead drive).2 ||| ((lba >>> 24).setWidth 8 &&& 0x0F)) io₃
  rw [ataFlushCache, hflush]
  exact ⟨rfl, hmem.trans hok.mem, hb, fun hfit => hmedia.trans (hok.media hfit)⟩

include hwords hbusy in
theorem ataWriteSector48bit_ok (lba : Word) (count : BitVec 16) :
    WriteOk w size.toNat (command48 true drive lba count) buf count.toNat io
      (ataWriteSector48bit (ataBus T w (ataGetIoAndHead drive).1) lba count buf drive size io) := by
  obtain ⟨io₁, hwait, hw₁⟩ := ataWaitReady_ok T w (ataGetIoAndHead drive).1 false hbusy (Or.inl rfl)
  have hissue := ataIssue48_ok T w (ataGetIoAndHead drive).1 true drive lba count io₁
  obtain ⟨io₃, hloop, hok⟩ := ataWriteLoop_issued T (ataGetIoAndHead drive).1 hwords buf hw₁ rfl
    hissue (command48_told _ _ _ _)
  rw [ataWriteSector48bit_of_wait hwait hloop]
  obtain ⟨io₄, hflush, hmem, hmedia, hb⟩ := ataFlush_ok T w (ataGetIoAndHead drive).1
    ataCmdCacheFlushExt (fun _ => rfl) ((ataGetIoAndHead drive).2 ||| 0x40) io₃
  rw [ataFlushCacheExt, hflush]
  exact ⟨rfl, hmem.trans hok.mem, hb, fun hfit => hmedia.trans (hok.media hfit)⟩

end Writers

/-! ### There and back -/

/-- The two ways to address a sector. -/
inductive LbaMode
  | lba28
  | lba48

/-- The ranges a command of the mode can name. -/
def LbaMode.Admits : LbaMode → Nat → Nat → Prop
  | .lba28, lba, count => 1 ≤ count ∧ count ≤ 255 ∧ lba + count ≤ 2 ^ 28
  | .lba48, lba, count => 1 ≤ count ∧ count ≤ 65535 ∧ lba + count ≤ 2 ^ 48

theorem LbaMode.Admits.count_le {mode : LbaMode} {lba count : Nat} (h : mode.Admits lba count) :
    count ≤ 65535 := by
  cases mode with
  | lba28 => exact h.2.1.trans (by decide)
  | lba48 => exact h.2.1

def LbaMode.read {σ : Type*} (B : Bus σ) (mode : LbaMode) (lba count : Nat) (buf : Word)
    (drive : BitVec 8) (size : BitVec 16) (io : Io σ) : Int × Io σ :=
  match mode with
  | .lba28 => ataReadSector28bit B (BitVec.ofNat 32 lba) (BitVec.ofNat 8 count) buf drive size io
  | .lba48 => ataReadSector48bit B (BitVec.ofNat 64 lba) (BitVec.ofNat 16 count) buf drive size io

def LbaMode.write {σ : Type*} (B : Bus σ) (mode : LbaMode) (lba count : Nat) (buf : Word)
    (drive : BitVec 8) (size : BitVec 16) (io : Io σ) : Int × Io σ :=
  match mode with
  | .lba28 => ataWriteSector28bit B (BitVec.ofNat 32 lba) (BitVec.ofNat 8 count) buf drive size io
  | .lba48 => ataWriteSector48bit B (BitVec.ofNat 64 lba) (BitVec.ofNat 16 count) buf drive size io

theorem bufWord_low (m : Mem) (buf : Word) (n : Nat) :
    (bufWord m buf n).setWidth 8 = m (buf + BitVec.ofNat 64 (2 * n)) := by
  unfold bufWord
  generalize m (buf + BitVec.ofNat 64 (2 * n)) = a
  generalize m (buf + BitVec.ofNat 64 (2 * n + 1)) = b
  ext i hi
  simp

theorem bufWord_high (m : Mem) (buf : Word) (n : Nat) :
    (bufWord m buf n >>> 8).setWidth 8 = m (buf + BitVec.ofNat 64 (2 * n + 1)) := by
  unfold bufWord
  generalize m (buf + BitVec.ofNat 64 (2 * n)) = a
  generalize m (buf + BitVec.ofNat 64 (2 * n + 1)) = b
  ext i hi
  simp [show 8 + i < 16 by omega, show i < 16 by omega, BitVec.getLsbD_eq_getElem hi]

theorem told_ofNat {v count most : Nat} (hpos : 1 ≤ count) (hlt : count < 2 ^ v) :
    (if BitVec.ofNat v count = 0 then most else (BitVec.ofNat v count).toNat) = count := by
  have hnat : (BitVec.ofNat v count).toNat = count := by
    rw [toNat_ofNat_of_lt hlt]
  rw [if_neg, hnat]
  intro hzero
  rw [hzero] at hnat
  rw [← hnat] at hpos
  exact absurd hpos (by simp)

section Modes

variable {w} {size : BitVec 16} (hwords : (size.toNat + 1) / 2 = w) (drive : BitVec 8)
  (buf : Word) {io : Io AtaDrive} (hbusy : io.dev.busy < 100000) {mode : LbaMode} {lba count : Nat}
  (hadmits : mode.Admits lba count)

include hwords hbusy hadmits in
theorem LbaMode.write_ok : ∃ ext, WriteOk w size.toNat ⟨ext, true, driveSlave drive, lba, count⟩ buf count io
    (mode.write (ataBus T w (ataGetIoAndHead drive).1) lba count buf drive size io) := by
  cases mode with
  | lba28 =>
    obtain ⟨hpos, hmax, hend⟩ := hadmits
    have hlba : (BitVec.ofNat 32 lba).toNat = lba := by
      rw [toNat_ofNat_of_lt (by omega)]
    have hn : (BitVec.ofNat 8 count).toNat = count := by
      rw [toNat_ofNat_of_lt (by omega)]
    have hok := ataWriteSector28bit_ok T hwords drive buf hbusy
      (show (BitVec.ofNat 32 lba).toNat < 2 ^ 28 by omega) (BitVec.ofNat 8 count)
    rw [command28, told_ofNat hpos (by omega), hlba, hn] at hok
    exact ⟨false, hok⟩
  | lba48 =>
    obtain ⟨hpos, hmax, hend⟩ := hadmits
    have hlba : (BitVec.ofNat 64 lba).toNat % 2 ^ 48 = lba := by
      rw [BitVec.toNat_ofNat]
      omega
    have hn : (BitVec.ofNat 16 count).toNat = count := by
      rw [toNat_ofNat_of_lt (by omega)]
    have hok := ataWriteSector48bit_ok T hwords drive buf hbusy (BitVec.ofNat 64 lba)
      (BitVec.ofNat 16 count)
    rw [command48, told_ofNat hpos (by omega), hlba, hn] at hok
    exact ⟨true, hok⟩

include hwords hbusy hadmits in
theorem LbaMode.read_ok : ∃ ext, ReadOk w size.toNat ⟨ext, false, driveSlave drive, lba, count⟩ buf count io
    (mode.read (ataBus T w (ataGetIoAndHead drive).1) lba count buf drive size io) := by
  cases mode with
  | lba28 =>
    obtain ⟨hpos, hmax, hend⟩ := hadmits
    have hlba : (BitVec.ofNat 32 lba).toNat = lba := by
      rw [toNat_ofNat_of_lt (by omega)]
    have hn : (BitVec.ofNat 8 count).toNat = count := by
      rw [toNat_ofNat_of_lt (by omega)]
    have hok := ataRead28At_ok T (ataGetIoAndHead drive).1 hwords drive buf hbusy
      (show (BitVec.ofNat 32 lba).toNat < 2 ^ 28 by omega) (BitVec.ofNat 8 count)
    rw [command28, told_ofNat hpos (by omega), hlba, hn] at hok
    exact ⟨false, hok⟩
  | lba48 =>
    obtain ⟨hpos, hmax, hend⟩ := hadmits
    have hlba : (BitVec.ofNat 64 lba).toNat % 2 ^ 48 = lba := by
      rw [BitVec.toNat_ofNat]
      omega
    have hn : (BitVec.ofNat 16 count).toNat = count := by
      rw [toNat_ofNat_of_lt (by omega)]
    have hok := ataRead48At_ok T (ataGetIoAndHead drive).1 hwords drive buf hbusy
      (BitVec.ofNat 64 lba) (BitVec.ofNat 16 count)
    rw [command48, told_ofNat hpos (by omega), hlba, hn] at hok
    exact ⟨true, hok⟩

end Modes

/-- The words of a transfer are read back from the sectors they were written to. -/
theorem stream_mediaAfter {w n count : Nat} (c c' : AtaCommand) (hslave : c'.slave = c.slave)
    (hlba : c'.lba = c.lba) (f : Nat → BitVec 16) (media : Bool → Nat → Nat → BitVec 16)
    (hn : n < count * w) : c'.stream w (c.mediaAfter w (count * w) f media) n = f n := by
  have hw : 0 < w := Nat.pos_of_ne_zero (fun h => by rw [h] at hn; omega)
  have hmod := Nat.mod_lt n hw
  have hplace : (c.lba + n / w - c.lba) * w + n % w = n := by
    rw [Nat.add_sub_cancel_left, place_iff hmod]
    exact ⟨rfl, rfl⟩
  rw [AtaCommand.stream, AtaCommand.mediaAfter, hslave, hlba, hplace,
    if_pos ⟨rfl, Nat.le_add_right _ _, hmod, hn⟩]

theorem mediaAfter_outside {w count lba k : Nat} {slave : Bool} (c : AtaCommand) (f : Nat → BitVec 16)
    (media : Bool → Nat → Nat → BitVec 16)
    (h : ¬(slave = c.slave ∧ c.lba ≤ lba ∧ lba < c.lba + count)) :
    c.mediaAfter w (count * w) f media slave lba k = media slave lba k := by
  refine if_neg (fun hin => h ⟨hin.1, hin.2.1, ?_⟩)
  have hlt : (lba - c.lba) * w < count * w := by omega
  have := Nat.lt_of_mul_lt_mul_right hlt
  omega

/-- **What is written is read back.** -/
theorem write_read_roundtrip (size : BitVec 16) (heven : size.toNat % 2 = 0)
    (hmax : size.toNat ≤ 32768) (drive : BitVec 8) (wbuf rbuf : Word) (wr rd : LbaMode)
    (lba count : Nat) (hwr : wr.Admits lba count) (hrd : rd.Admits lba count) (io : Io AtaDrive)
    (hbusy : io.dev.busy < 100000) :
    let B := ataBus T (size.toNat / 2) (ataGetIoAndHead drive).1
    let written := wr.write B lba count wbuf drive size io
    let back := rd.read B lba count rbuf drive size written.2
    written.1 = 0 ∧ back.1 = 0 ∧
      (∀ k < count * size.toNat,
        back.2.mem (rbuf + BitVec.ofNat 64 k) = io.mem (wbuf + BitVec.ofNat 64 k)) ∧
      (∀ x, (∀ k < count * size.toNat, x ≠ rbuf + BitVec.ofNat 64 k) → back.2.mem x = io.mem x) ∧
      ∀ slave sector k, ¬(slave = driveSlave drive ∧ lba ≤ sector ∧ sector < lba + count) →
        back.2.dev.media slave sector k = io.dev.media slave sector k := by
  intro B written back
  have hwords : (size.toNat + 1) / 2 = size.toNat / 2 := by omega
  have hsize : size.toNat = 2 * (size.toNat / 2) := by omega
  have hcount : count ≤ 65535 := hwr.count_le
  obtain ⟨e, hwritten⟩ : ∃ ext, WriteOk _ _ ⟨ext, true, driveSlave drive, lba, count⟩ wbuf count io
      written := LbaMode.write_ok T hwords drive wbuf hbusy hwr
  obtain ⟨e', hback⟩ : ∃ ext, ReadOk _ _ ⟨ext, false, driveSlave drive, lba, count⟩ rbuf count
      written.2 back := LbaMode.read_ok T hwords drive rbuf hwritten.busy hrd
  have hbytes : count * size.toNat = 2 * (count * (size.toNat / 2)) := by
    rw [← Nat.mul_left_comm, ← hsize]
  have hfits : 2 * (count * (size.toNat / 2)) ≤ 2 ^ 31 := by
    have := Nat.mul_le_mul hcount (show size.toNat / 2 ≤ 16384 by omega)
    omega
  have hmedia := hwritten.media ⟨hsize, hfits⟩
  have hfilled := hback.filled ⟨hsize, hfits⟩
  rw [hmedia, hwritten.mem] at hfilled
  refine ⟨hwritten.ret, hback.ret, fun k hk => ?_, fun x hx => ?_, fun slave sector k hout => ?_⟩
  · rw [hbytes] at hk
    have hn : k / 2 < count * (size.toNat / 2) := by omega
    have hstream := stream_mediaAfter ⟨e, true, driveSlave drive, lba, count⟩
      ⟨e', false, driveSlave drive, lba, count⟩ rfl rfl (bufWord io.mem wbuf) io.dev.media hn
    rcases Nat.mod_two_eq_zero_or_one k with hpar | hpar
    · have hlow := hfilled.low (k / 2) (Nat.zero_le _) hn
      rw [hstream, bufWord_low, show 2 * (k / 2) = k by omega] at hlow
      exact hlow
    · have hhigh := hfilled.high (k / 2) (Nat.zero_le _) hn
      rw [hstream, bufWord_high, show 2 * (k / 2) + 1 = k by omega] at hhigh
      exact hhigh
  · exact hfilled.rest x (fun k _ hk => hx k (by omega))
  · rw [hback.media, hmedia]
    exact mediaAfter_outside _ _ _ hout

def exampleTiming : Timing where
  delay n := n % 5
  delay_lt n := lt_of_lt_of_le (Nat.mod_lt n (by decide)) (by decide)
  other n := BitVec.ofNat 8 n

def exampleIo : Io AtaDrive where
  dev :=
    { tf := ⟨⟨0, 0⟩, ⟨0, 0⟩, ⟨0, 0⟩, ⟨0, 0⟩, 0⟩
      media := fun _ lba k => BitVec.ofNat 16 (lba + k)
      busy := 7
      data := none
      tick := 0 }
  mem x := x.setWidth 8
  ataStatus := 0
  ataError := 0
  log := []

/-- Three sectors at the end of the 28-bit range, written with a 28-bit command and
read with a 48-bit one. -/
theorem write_read_roundtrip_exampleIo :
    LbaMode.Admits .lba28 (2 ^ 28 - 3) 3 ∧ LbaMode.Admits .lba48 (2 ^ 28 - 3) 3 ∧
      (let B := ataBus exampleTiming ((512 : BitVec 16).toNat / 2) (ataGetIoAndHead 3).1
       let written := LbaMode.lba28.write B (2 ^ 28 - 3) 3 0x1000 3 512 exampleIo
       let back := LbaMode.lba48.read B (2 ^ 28 - 3) 3 0x9000 3 512 written.2
       back.1 = 0 ∧ ∀ k < 3 * (512 : BitVec 16).toNat,
         back.2.mem (0x9000 + BitVec.ofNat 64 k) = exampleIo.mem (0x1000 + BitVec.ofNat 64 k)) := by
  have hwr : LbaMode.Admits .lba28 (2 ^ 28 - 3) 3 := ⟨by decide, by decide, by decide⟩
  have hrd : LbaMode.Admits .lba48 (2 ^ 28 - 3) 3 := ⟨by decide, by decide, by decide⟩
  have h := write_read_roundtrip exampleTiming 512 (by decide) (by decide) 3 0x1000 0x9000 .lba28
    .lba48 (2 ^ 28 - 3) 3 hwr hrd exampleIo (by decide)
  exact ⟨hwr, hrd, h.2.1, h.2.2.1⟩

end AncoreOS.Drivers
