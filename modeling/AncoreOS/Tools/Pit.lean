import AncoreOS.Drivers.Io

/-!
# Delays with the interval timer

`pit_delay_us` waits with channel 0 of the interval timer, a 16-bit counter that
goes down by one at each tick of its `1193182 Hz` clock.  A call of
`pit_delay_us_limited` starts the counter at twice the number of ticks it wants and
polls it until half of them are left; longer delays are done in shards of `25000`
microseconds.

The number of ticks in a microsecond is an integer division, and it is `1`: the
delay takes one tick for each microsecond (`pitDelayUs_ticks`), where `1.193182`
are needed.
-/

namespace AncoreOS.Tools

open Drivers

variable {σ : Type*}

def pitChannel0Port : BitVec 16 := 0x40
def pitCmdPort : BitVec 16 := 0x43
/-- In Hz. -/
def pitFreq : BitVec 32 := 1193182

def pitReadCounter (B : Bus σ) (s : σ) : BitVec 16 × σ :=
  let s := B.outb s pitCmdPort 0x00
  let (lo, s) := B.inb s pitChannel0Port
  let (hi, s) := B.inb s pitChannel0Port
  (hi.setWidth 16 <<< 8 ||| lo.setWidth 16, s)

def pitStartOneShot (B : Bus σ) (s : σ) (reload : BitVec 16) : σ :=
  let s := B.outb s pitCmdPort 0x34
  let s := B.outb s pitChannel0Port ((reload &&& 0xFF).setWidth 8)
  B.outb s pitChannel0Port ((reload >>> 8).setWidth 8)

/-- `while (pit_read_counter() > pit_reload);`, at most `n` polls. -/
def pitWait (B : Bus σ) (pitReload : BitVec 16) : Nat → σ → Option σ
  | 0, _ => none
  | n + 1, s =>
    let (counter, s) := pitReadCounter B s
    if pitReload < counter then pitWait B pitReload n s else some s

/-- A 16-bit counter that a poll sees change leaves at most `2 ^ 16` polls. -/
def pitDelayUsLimited (B : Bus σ) (s : σ) (micros : BitVec 32) : Option σ :=
  if micros = 0 then some s
  else
    let pitReload : BitVec 16 := (pitFreq / 1000000 * micros).setWidth 16
    let pitReload := if pitReload = 0 then 1 else pitReload
    let s := pitStartOneShot B s (pitReload * 2)
    pitWait B pitReload (2 ^ 16) s

/-- `for (uint32_t i = 0; i < n; i++) pit_delay_us_limited(25000);` -/
def pitShards (B : Bus σ) : Nat → σ → Option σ
  | 0, s => some s
  | n + 1, s => (pitDelayUsLimited B s 25000).bind (pitShards B n)

def pitDelayUs (B : Bus σ) (s : σ) (micros : BitVec 32) : Option σ :=
  if 25000 < micros then
    (pitShards B (micros / 25000).toNat s).bind fun s => pitDelayUsLimited B s (micros % 25000)
  else pitDelayUsLimited B s micros

/-! ### Channel 0 -/

/-- The counter, what a read sees of it, and the byte the next access is about.  `ticks` counts
the ticks of the clock; no access sees it. -/
structure Pit where
  counter : BitVec 16
  latch : BitVec 16
  low : BitVec 8
  high : Bool
  ticks : Nat
  deriving DecidableEq, Repr

def Pit.tick (s : Pit) : Pit :=
  { s with
    counter := s.counter - 1
    ticks := s.ticks + 1 }

/-- From one poll to the next the clock ticks once. -/
def pitBus : Bus Pit where
  inb s port :=
    if port = pitChannel0Port then
      if s.high then ((s.latch >>> 8).setWidth 8, { s with high := false })
      else (s.latch.setWidth 8, { s with high := true })
    else (0xFF, s)
  outb s port v :=
    if port = pitCmdPort then
      if v = 0x00 then { s.tick with latch := s.tick.counter, high := false }
      else { s with high := false }
    else if port = pitChannel0Port then
      if s.high then { s with counter := v ++ s.low, high := false }
      else { s with low := v, high := true }
    else s
  inw s _ := (0xFFFF, s)
  outw s _ _ := s

/-- A word is its high byte and its low byte. -/
theorem bytes_append (v : BitVec 16) :
    ((v >>> 8).setWidth 8 : BitVec 8) ++ ((v &&& 0xFF).setWidth 8 : BitVec 8) = v := by
  have hlow : (v &&& 0xFF).setWidth 8 = (v.setWidth 8 : BitVec 8) := by
    rw [BitVec.setWidth_and]
    exact BitVec.and_allOnes
  rw [hlow]
  refine BitVec.eq_of_getLsbD_eq fun i hi => ?_
  rw [BitVec.getLsbD_append]
  by_cases hlow : i < 8
  · simp [hlow]
  · have hrest : i - 8 < 8 := by omega
    simp [hlow, hrest, show 8 + (i - 8) = i by omega]

theorem bytes_or (v : BitVec 16) :
    ((v >>> 8).setWidth 8 : BitVec 8).setWidth 16 <<< 8 ||| (v.setWidth 8 : BitVec 8).setWidth 16 =
      v := by
  refine BitVec.eq_of_getLsbD_eq fun i hi => ?_
  by_cases hlow : i < 8
  · simp [hlow, hi]
  · have hrest : i - 8 < 8 := by omega
    simp [hlow, hrest, hi, show 8 + (i - 8) = i by omega]

theorem pitReadCounter_eq (s : Pit) :
    pitReadCounter pitBus s = (s.tick.counter, { s.tick with latch := s.tick.counter, high := false }) := by
  have hval : pitReadCounter pitBus s =
      (((s.tick.counter >>> 8).setWidth 8 : BitVec 8).setWidth 16 <<< 8 |||
        (s.tick.counter.setWidth 8 : BitVec 8).setWidth 16,
        { s.tick with latch := s.tick.counter, high := false }) := rfl
  rw [hval, bytes_or]

theorem pitStartOneShot_eq (s : Pit) (reload : BitVec 16) :
    (pitStartOneShot pitBus s reload).counter = reload ∧
      (pitStartOneShot pitBus s reload).ticks = s.ticks :=
  ⟨bytes_append reload, rfl⟩

/-! ### The number of ticks -/

/-- From `r + k` down to `r`. -/
theorem pitWait_ticks {r : BitVec 16} :
    ∀ (k n : Nat) (s : Pit), s.counter.toNat = r.toNat + (k + 1) → k < n →
      ∃ s', pitWait pitBus r n s = some s' ∧ s'.ticks = s.ticks + (k + 1) := by
  intro k
  induction k with
  | zero =>
    intro n s hs hn
    obtain ⟨n, rfl⟩ := Nat.exists_eq_succ_of_ne_zero (by omega : n ≠ 0)
    have hstop : ¬ r < s.tick.counter := by
      rw [BitVec.lt_def, Pit.tick]
      simp only
      bv_omega
    refine ⟨{ s.tick with latch := s.tick.counter, high := false }, ?_, rfl⟩
    rw [pitWait, pitReadCounter_eq]
    exact if_neg hstop
  | succ k ih =>
    intro n s hs hn
    obtain ⟨n, rfl⟩ := Nat.exists_eq_succ_of_ne_zero (by omega : n ≠ 0)
    have hlt := s.counter.isLt
    have hcounter : s.tick.counter.toNat = r.toNat + (k + 1) := by
      rw [Pit.tick]
      simp only
      bv_omega
    have hgo : r < s.tick.counter := by
      rw [BitVec.lt_def]
      omega
    obtain ⟨s', hrun, hticks⟩ := ih n { s.tick with latch := s.tick.counter, high := false }
      hcounter (by omega)
    refine ⟨s', ?_, ?_⟩
    · rw [pitWait, pitReadCounter_eq]
      exact (if_pos hgo).trans hrun
    · rw [hticks]
      simp only [Pit.tick]
      omega

/-- A call that is short enough starts at twice the microseconds without wrapping, and ends
after a tick for each. -/
theorem pitDelayUsLimited_ticks (s : Pit) (micros : BitVec 32) (h : micros.toNat < 2 ^ 15) :
    ∃ s', pitDelayUsLimited pitBus s micros = some s' ∧ s'.ticks = s.ticks + micros.toNat := by
  unfold pitDelayUsLimited
  split
  · next hzero => exact ⟨s, rfl, by rw [hzero]; rfl⟩
  next hne =>
  have hfreq : pitFreq / 1000000 * micros = micros := by
    rw [show pitFreq / 1000000 = 1 by decide]
    exact BitVec.one_mul micros
  have hpos : micros.toNat ≠ 0 := fun h0 => hne (BitVec.eq_of_toNat_eq h0)
  have hreload : (micros.setWidth 16).toNat = micros.toNat := by
    rw [BitVec.toNat_setWidth]
    omega
  have hreloadNe : micros.setWidth 16 ≠ 0 := by
    intro h0
    rw [h0] at hreload
    exact hpos hreload.symm
  obtain ⟨hcounter, hticks⟩ := pitStartOneShot_eq s (micros.setWidth 16 * 2)
  obtain ⟨k, hk⟩ := Nat.exists_eq_succ_of_ne_zero hpos
  rw [hfreq]
  simp only [if_neg hreloadNe]
  have hstart : (pitStartOneShot pitBus s (micros.setWidth 16 * 2)).counter.toNat =
      (micros.setWidth 16).toNat + (k + 1) := by
    rw [hcounter, BitVec.toNat_mul, hreload, show (2 : BitVec 16).toNat = 2 from rfl]
    omega
  obtain ⟨s', hrun, hs'⟩ := pitWait_ticks k (2 ^ 16) _ hstart (by omega)
  exact ⟨s', hrun, by rw [hs', hticks, hk]⟩

theorem pitShards_ticks :
    ∀ (n : Nat) (s : Pit),
      ∃ s', pitShards pitBus n s = some s' ∧ s'.ticks = s.ticks + n * 25000 := by
  intro n
  induction n with
  | zero => exact fun s => ⟨s, rfl, by omega⟩
  | succ n ih =>
    intro s
    obtain ⟨s', hrun, hticks⟩ := pitDelayUsLimited_ticks s 25000 (by decide)
    obtain ⟨s'', hrun', hticks'⟩ := ih s'
    refine ⟨s'', ?_, ?_⟩
    · rw [pitShards, hrun]
      exact hrun'
    · rw [hticks', hticks, show (25000 : BitVec 32).toNat = 25000 from rfl]
      omega

/-- **One tick for each microsecond**, over all shards. -/
theorem pitDelayUs_ticks (s : Pit) (micros : BitVec 32) :
    ∃ s', pitDelayUs pitBus s micros = some s' ∧ s'.ticks = s.ticks + micros.toNat := by
  unfold pitDelayUs
  split
  · have hdiv : (micros / 25000).toNat = micros.toNat / 25000 := rfl
    have hmod : (micros % 25000).toNat = micros.toNat % 25000 := rfl
    obtain ⟨s', hrun, hticks⟩ := pitShards_ticks (micros / 25000).toNat s
    obtain ⟨s'', hrun', hticks'⟩ := pitDelayUsLimited_ticks s' (micros % 25000)
      (by rw [hmod]; omega)
    refine ⟨s'', ?_, ?_⟩
    · rw [hrun]
      exact hrun'
    · rw [hticks', hticks, hdiv, hmod]
      omega
  · next hle =>
    rw [BitVec.lt_def, show (25000 : BitVec 32).toNat = 25000 from rfl, not_lt] at hle
    exact pitDelayUsLimited_ticks s micros (by omega)

/-- The delay ends, and its ticks take as long as was asked for. -/
def DelaysLongEnough (s : Pit) (micros : BitVec 32) : Prop :=
  ∃ s', pitDelayUs pitBus s micros = some s' ∧
    micros.toNat * 1193182 ≤ (s'.ticks - s.ticks) * 1000000

/-- The same with the number of ticks rounded down. -/
def DelaysWholeTicks (s : Pit) (micros : BitVec 32) : Prop :=
  ∃ s', pitDelayUs pitBus s micros = some s' ∧
    micros.toNat * 1193182 / 1000000 ≤ s'.ticks - s.ticks

/-- **Every delay but the empty one is too short**; up to five microseconds the missing part is
less than one tick. -/
theorem pitDelayUs_iff (s : Pit) (micros : BitVec 32) :
    (DelaysLongEnough s micros ↔ micros = 0) ∧
      (DelaysWholeTicks s micros ↔ micros.toNat ≤ 5) := by
  obtain ⟨s', hrun, hticks⟩ := pitDelayUs_ticks s micros
  have hdiff : s'.ticks - s.ticks = micros.toNat := by omega
  have hzero : micros = 0 ↔ micros.toNat = 0 := by
    constructor
    · rintro rfl
      rfl
    · exact fun h => BitVec.eq_of_toNat_eq h
  constructor
  · rw [hzero]
    constructor
    · rintro ⟨t, ht, hle⟩
      obtain rfl : s' = t := Option.some_inj.mp (hrun.symm.trans ht)
      omega
    · exact fun h => ⟨s', hrun, by omega⟩
  · constructor
    · rintro ⟨t, ht, hle⟩
      obtain rfl : s' = t := Option.some_inj.mp (hrun.symm.trans ht)
      omega
    · exact fun h => ⟨s', hrun, by omega⟩

/-- A second takes a million ticks, and not the `1193182` of the clock. -/
theorem pitDelayUs_second :
    (∃ s', pitDelayUs pitBus ⟨0, 0, 0, false, 0⟩ 1000000 = some s' ∧ s'.ticks = 1000000) ∧
      ¬ DelaysLongEnough ⟨0, 0, 0, false, 0⟩ 1000000 := by
  obtain ⟨s', hrun, hticks⟩ := pitDelayUs_ticks ⟨0, 0, 0, false, 0⟩ 1000000
  have hsecond : s'.ticks = 1000000 := hticks
  refine ⟨⟨s', hrun, hsecond⟩, ?_⟩
  rintro ⟨t, ht, hle⟩
  obtain rfl : s' = t := Option.some_inj.mp (hrun.symm.trans ht)
  rw [hsecond] at hle
  exact absurd hle (by decide)

end AncoreOS.Tools
