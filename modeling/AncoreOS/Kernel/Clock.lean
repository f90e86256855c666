import AncoreOS.Library.ByteMemory
import Mathlib.Algebra.BigOperators.Group.Finset.Basic

/-!
# The time-stamp counter as a clock

The kernel tells the time by the time-stamp counter of the processor.  Its two
globals are `CPU_clock_speed`, in Hz, and `boot_tsc`; a `Tsc` is the machine they
depend on: whether there is a counter, and what the measurements against the
interval timer give, one after the other.

`set_CPU_clock_speed` is to average ten measurements.  The helper it calls ten
times measures only while the speed is unknown, so that all ten summands are the
first measurement: `setCpuClockSpeed_first`.
-/

namespace AncoreOS.Kernel

open ByteMemory

/-- The result number `k` of `measure_tsc_over_pit(1193 * 4)` is `measure k`. -/
structure Tsc where
  hasTsc : Bool
  measure : Nat → Word

/-- The globals of `tsc.c`, and how many measurements there were. -/
structure Clock where
  cpuClockSpeed : Word
  bootTsc : Word
  measured : Nat
  deriving DecidableEq, Repr

/-- `get_cpu_clock_speed_khz`, when the measurement gives `tscIn1Ltu`. -/
def cpuKhz (hasTsc : Bool) (tscIn1Ltu : Word) : Word :=
  if !hasTsc then 0
  else if tscIn1Ltu = 0 then 0
  else
    let khz := tscIn1Ltu * 1000000000 / 999848528
    khz / 4

def getCpuClockSpeedKhz (t : Tsc) (c : Clock) : Word × Clock :=
  (cpuKhz t.hasTsc (t.measure c.measured), { c with measured := c.measured + 1 })

def setCpuClockSpeedPartial (t : Tsc) (c : Clock) : Int × Clock :=
  let c :=
    if c.cpuClockSpeed = 0 then
      let (khz, c) := getCpuClockSpeedKhz t c
      { c with cpuClockSpeed := khz * 1000 }
    else c
  (if c.cpuClockSpeed = 0 then -1 else 0, c)

/-- The loop of `set_CPU_clock_speed` with `n` rounds to go, and what follows it. -/
def averageLoop (t : Tsc) : Nat → Word → Clock → Int × Clock
  | 0, accumulate, c => (0, { c with cpuClockSpeed := accumulate * 100 })
  | n + 1, accumulate, c =>
    let c := (setCpuClockSpeedPartial t c).2
    if c.cpuClockSpeed = 0 then (-1, c)
    else averageLoop t n (accumulate + c.cpuClockSpeed / 1000) c

def setCpuClockSpeed (t : Tsc) (c : Clock) : Int × Clock :=
  if c.cpuClockSpeed ≠ 0 then (0, c) else averageLoop t 10 0 c

/-- The result of the measurement number `i` from here on, in kHz. -/
def Clock.khz (t : Tsc) (c : Clock) (i : Nat) : Nat :=
  (cpuKhz t.hasTsc (t.measure (c.measured + i))).toNat

/-! ### Calibration -/

theorem setCpuClockSpeed_of_ne {t : Tsc} {c : Clock} (h : c.cpuClockSpeed ≠ 0) :
    setCpuClockSpeed t c = (0, c) := if_pos h

/-- The division leaves a number of kHz that neither `* 1000` nor the sum of ten can wrap. -/
theorem cpuKhz_le (hasTsc : Bool) (v : Word) : (cpuKhz hasTsc v).toNat ≤ 4612384665 := by
  unfold cpuKhz
  split
  · exact Nat.zero_le _
  · split
    · exact Nat.zero_le _
    · have hlt := (v * 1000000000).isLt
      rw [BitVec.toNat_udiv, BitVec.toNat_udiv, show (4 : Word).toNat = 4 from rfl,
        show (999848528 : Word).toNat = 999848528 from rfl]
      omega

theorem khz_mul_toNat {khz : Word} (h : khz.toNat ≤ 4612384665) :
    (khz * 1000).toNat = khz.toNat * 1000 := by
  rw [BitVec.toNat_mul, show (1000 : Word).toNat = 1000 from rfl]
  omega

/-- A speed that is a nonzero number of kHz, and what the division gives back of it. -/
theorem speed_of_khz {c : Clock} {khz : Word} (hkhz : khz.toNat ≤ 4612384665) (hne : khz ≠ 0)
    (hspeed : c.cpuClockSpeed = khz * 1000) :
    c.cpuClockSpeed ≠ 0 ∧ (c.cpuClockSpeed / 1000).toNat = khz.toNat := by
  have hmul := khz_mul_toNat hkhz
  have hpos : khz.toNat ≠ 0 := fun h0 => hne (BitVec.eq_of_toNat_eq h0)
  constructor
  · intro h0
    have hzero : (khz * 1000).toNat = 0 := by rw [← hspeed, h0]; rfl
    omega
  · rw [hspeed, BitVec.toNat_udiv, hmul, show (1000 : Word).toNat = 1000 from rfl]
    omega

/-- Once the speed is known, every round adds it again. -/
theorem averageLoop_known (t : Tsc) {c : Clock} {khz : Word} (hkhz : khz.toNat ≤ 4612384665)
    (hne : khz ≠ 0) (hspeed : c.cpuClockSpeed = khz * 1000) :
    ∀ (n : Nat) (accumulate : Word), accumulate.toNat + n * khz.toNat ≤ 10 * khz.toNat →
      ∃ c', averageLoop t n accumulate c = (0, c') ∧
        c'.cpuClockSpeed.toNat = (accumulate.toNat + n * khz.toNat) * 100 ∧
        c'.bootTsc = c.bootTsc := by
  obtain ⟨hspeedNe, hdiv⟩ := speed_of_khz hkhz hne hspeed
  have hpartial : (setCpuClockSpeedPartial t c).2 = c := by
    unfold setCpuClockSpeedPartial
    simp only [if_neg hspeedNe]
  intro n
  induction n with
  | zero =>
    intro accumulate hacc
    refine ⟨_, rfl, ?_, rfl⟩
    show (accumulate * 100).toNat = _
    rw [BitVec.toNat_mul, show (100 : Word).toNat = 100 from rfl]
    omega
  | succ n ih =>
    intro accumulate hacc
    rw [Nat.succ_mul] at hacc
    have hadd : (accumulate + c.cpuClockSpeed / 1000).toNat = accumulate.toNat + khz.toNat := by
      rw [BitVec.toNat_add, hdiv]
      omega
    obtain ⟨c', hrun, hc'⟩ := ih (accumulate + c.cpuClockSpeed / 1000) (by rw [hadd]; omega)
    refine ⟨c', ?_, ?_⟩
    · rw [averageLoop, hpartial]
      exact (if_neg hspeedNe).trans hrun
    · rw [hadd] at hc'
      rw [Nat.succ_mul]
      refine ⟨?_, hc'.2⟩
      rw [hc'.1]
      omega

/-- **The first measurement decides**: when it fails the speed stays unknown, and otherwise it
is the speed. -/
theorem setCpuClockSpeed_first (t : Tsc) {c : Clock} (h : c.cpuClockSpeed = 0) :
    ∃ c', setCpuClockSpeed t c = (if c.khz t 0 = 0 then -1 else 0, c') ∧
      c'.cpuClockSpeed.toNat = c.khz t 0 * 1000 ∧ c'.bootTsc = c.bootTsc := by
  obtain ⟨khz, hkhz⟩ : ∃ khz, khz = cpuKhz t.hasTsc (t.measure c.measured) := ⟨_, rfl⟩
  have hle : khz.toNat ≤ 4612384665 := hkhz ▸ cpuKhz_le _ _
  have hfirst : c.khz t 0 = khz.toNat := by rw [hkhz]; rfl
  obtain ⟨c₁, hc₁⟩ : ∃ c₁ : Clock,
      c₁ = { c with measured := c.measured + 1, cpuClockSpeed := khz * 1000 } := ⟨_, rfl⟩
  have hpartial : (setCpuClockSpeedPartial t c).2 = c₁ := by
    unfold setCpuClockSpeedPartial getCpuClockSpeedKhz
    rw [hc₁, hkhz]
    simp only [if_pos h]
  have hspeed : c₁.cpuClockSpeed = khz * 1000 := by rw [hc₁]
  have hboot : c₁.bootTsc = c.bootTsc := by rw [hc₁]
  rw [setCpuClockSpeed, if_neg (not_not_intro h), averageLoop, hpartial, hfirst]
  by_cases hzero : khz = 0
  · subst hzero
    have hunknown : c₁.cpuClockSpeed = 0 := hspeed
    refine ⟨c₁, ?_, ?_, hboot⟩
    · simp only [if_pos hunknown]
      rfl
    · rw [hunknown]
      rfl
  · have hpos : khz.toNat ≠ 0 := fun h0 => hzero (BitVec.eq_of_toNat_eq h0)
    obtain ⟨hknown, hback⟩ := speed_of_khz hle hzero hspeed
    have hdiv : (0 + c₁.cpuClockSpeed / 1000).toNat = khz.toNat := by
      have hadd : 0 + c₁.cpuClockSpeed / 1000 = c₁.cpuClockSpeed / 1000 := BitVec.zero_add _
      rw [hadd, hback]
    obtain ⟨c', hrun, hc', hboot'⟩ := averageLoop_known t hle hzero hspeed 9
      (0 + c₁.cpuClockSpeed / 1000) (by rw [hdiv]; omega)
    refine ⟨c', ?_, ?_, hboot'.trans hboot⟩
    · simp only [if_neg hknown, if_neg hpos]
      exact hrun
    · rw [hc', hdiv]
      omega

/-- Ten successful measurements are averaged, and a failure of the first one is reported. -/
def AveragesTen (t : Tsc) (c : Clock) : Prop :=
  ((∀ i < 10, c.khz t i ≠ 0) → (setCpuClockSpeed t c).1 = 0 ∧
    (setCpuClockSpeed t c).2.cpuClockSpeed.toNat = (∑ i ∈ Finset.range 10, c.khz t i) * 100) ∧
  (c.khz t 0 = 0 → (setCpuClockSpeed t c).1 = -1 ∧ (setCpuClockSpeed t c).2.cpuClockSpeed = 0)

/-- **The average is right exactly if the first measurement is the average.** -/
theorem setCpuClockSpeed_iff (t : Tsc) (c : Clock) (h : c.cpuClockSpeed = 0) :
    AveragesTen t c ↔
      ((∀ i < 10, c.khz t i ≠ 0) → ∑ i ∈ Finset.range 10, c.khz t i = 10 * c.khz t 0) := by
  obtain ⟨c', hrun, hspeed, -⟩ := setCpuClockSpeed_first t h
  unfold AveragesTen
  rw [hrun]
  constructor
  · rintro ⟨hten, -⟩ hall
    have hmean := (hten hall).2
    simp only at hmean
    omega
  · intro hmean
    refine ⟨fun hall => ⟨if_neg (hall 0 (by decide)), ?_⟩, fun hzero => ⟨if_pos hzero, ?_⟩⟩
    · have hsum := hmean hall
      simp only
      omega
    · refine BitVec.eq_of_toNat_eq ?_
      simp only
      rw [hspeed, hzero]
      rfl

/-- Ten equal measurements. -/
theorem setCpuClockSpeed_iff_equal :
    AveragesTen ⟨true, fun _ => 12000000⟩ ⟨0, 1, 0⟩ ↔
      ((∀ i < 10, Clock.khz ⟨true, fun _ => 12000000⟩ ⟨0, 1, 0⟩ i ≠ 0) →
        ∑ i ∈ Finset.range 10, Clock.khz ⟨true, fun _ => 12000000⟩ ⟨0, 1, 0⟩ i =
          10 * Clock.khz ⟨true, fun _ => 12000000⟩ ⟨0, 1, 0⟩ 0) :=
  setCpuClockSpeed_iff _ _ rfl

/-- A measurement that is ten times too long, as when an interrupt comes in between, and then
correct ones. -/
def exampleTsc : Tsc where
  hasTsc := true
  measure k := if k = 0 then 120000000 else 12000000

/-- The speed is ten times too high. -/
theorem exampleTsc_not_averagesTen :
    (setCpuClockSpeed exampleTsc ⟨0, 1, 0⟩).1 = 0 ∧
      (setCpuClockSpeed exampleTsc ⟨0, 1, 0⟩).2.cpuClockSpeed.toNat = 30004544000 ∧
      ¬ AveragesTen exampleTsc ⟨0, 1, 0⟩ := by
  have hfirst : Clock.khz exampleTsc ⟨0, 1, 0⟩ 0 = 30004544 := by decide
  have hrest : ∀ i, i ≠ 0 → Clock.khz exampleTsc ⟨0, 1, 0⟩ i = 3000454 := by
    intro i hi
    simp only [Clock.khz, exampleTsc, Nat.zero_add, if_neg hi]
    decide
  obtain ⟨c', hrun, hspeed, -⟩ := setCpuClockSpeed_first exampleTsc (c := ⟨0, 1, 0⟩) rfl
  rw [hfirst] at hrun hspeed
  refine ⟨by rw [hrun]; rfl, by rw [hrun, hspeed], fun h => ?_⟩
  obtain ⟨-, hmean⟩ := h.1 (by
    intro i _
    by_cases hi : i = 0
    · rw [hi, hfirst]
      decide
    · rw [hrest i hi]
      decide)
  rw [hrun, hspeed, Finset.sum_range_succ', hfirst,
    Finset.sum_congr rfl fun i _ => hrest (i + 1) (Nat.succ_ne_zero i), Finset.sum_const,
    Finset.card_range] at hmean
  exact absurd hmean (by decide)

end AncoreOS.Kernel
