import AncoreOS.Kernel.Clock
import Mathlib.Data.Nat.ModEq

/-!
# Milliseconds and microseconds

`get_time_ms` and `get_time_us` turn the ticks since `boot_tsc` into a 32-bit time.
The first multiplies by `1000` before it divides, and the product wraps in 64 bits;
`lostMs` is what the wrapped product no longer accounts for, and a difference of two
times is right when both have lost the same number of milliseconds modulo `2 ^ 32`
(`getTimeMs_sub_iff`).

The second divides by a whole number of ticks per microsecond.  For a speed that is
no whole number of MHz that number is too small, and the two clocks drift apart:
`clocksAgree_iff`.
-/

namespace AncoreOS.Kernel

open ByteMemory

/-- `now` is what `read_tsc_fast` returns. -/
def getTimeMs (t : Tsc) (c : Clock) (now : Word) : BitVec 32 × Clock :=
  let (error, c) := setCpuClockSpeed t c
  if error ≠ 0 ∨ c.bootTsc = 0 then (0, c)
  else
    let elapsed := now - c.bootTsc
    let ms := elapsed * 1000 / c.cpuClockSpeed
    (ms.setWidth 32, c)

/-- `none` is a division by zero. -/
def getTimeUs (t : Tsc) (c : Clock) (now : Word) : Option (BitVec 32) × Clock :=
  let (error, c) := setCpuClockSpeed t c
  if error ≠ 0 ∨ c.bootTsc = 0 then (some 0, c)
  else
    let elapsed := now - c.bootTsc
    let cyclesPerUs := c.cpuClockSpeed / 1000000
    (if cyclesPerUs = 0 then none else some ((elapsed / cyclesPerUs).setWidth 32), c)

variable {t : Tsc} {c : Clock} {now : Word}

theorem getTimeMs_of_boot_zero (hspeed : c.cpuClockSpeed ≠ 0) (hboot : c.bootTsc = 0) :
    getTimeMs t c now = (0, c) := by
  rw [getTimeMs, setCpuClockSpeed_of_ne hspeed]
  exact if_pos (Or.inr hboot)

theorem getTimeUs_of_boot_zero (hspeed : c.cpuClockSpeed ≠ 0) (hboot : c.bootTsc = 0) :
    getTimeUs t c now = (some 0, c) := by
  rw [getTimeUs, setCpuClockSpeed_of_ne hspeed]
  exact if_pos (Or.inr hboot)

theorem getTimeMs_eq (hspeed : c.cpuClockSpeed ≠ 0) (hboot : c.bootTsc ≠ 0) :
    getTimeMs t c now = (((now - c.bootTsc) * 1000 / c.cpuClockSpeed).setWidth 32, c) := by
  rw [getTimeMs, setCpuClockSpeed_of_ne hspeed]
  exact if_neg (not_or.mpr ⟨not_not_intro rfl, hboot⟩)

theorem getTimeUs_eq (hspeed : c.cpuClockSpeed ≠ 0) (hboot : c.bootTsc ≠ 0) :
    getTimeUs t c now =
      (if c.cpuClockSpeed / 1000000 = 0 then none
        else some (((now - c.bootTsc) / (c.cpuClockSpeed / 1000000)).setWidth 32), c) := by
  rw [getTimeUs, setCpuClockSpeed_of_ne hspeed]
  exact if_neg (not_or.mpr ⟨not_not_intro rfl, hboot⟩)

/-- Below 1 MHz the number of cycles per microsecond is `0`. -/
theorem cyclesPerUs_eq_zero_iff : c.cpuClockSpeed / 1000000 = 0 ↔ c.cpuClockSpeed.toNat < 1000000 := by
  rw [← BitVec.toNat_inj, BitVec.toNat_udiv, show (1000000 : Word).toNat = 1000000 from rfl,
    show (0 : Word).toNat = 0 from rfl, Nat.div_eq_zero_iff_lt (by decide)]

theorem getTimeUs_slow (hspeed : c.cpuClockSpeed ≠ 0) (hboot : c.bootTsc ≠ 0)
    (hslow : c.cpuClockSpeed.toNat < 1000000) : getTimeUs t c now = (none, c) := by
  rw [getTimeUs_eq hspeed hboot, if_pos (cyclesPerUs_eq_zero_iff.mpr hslow)]

theorem cpuClockSpeed_ne_zero (hfast : 1000000 ≤ c.cpuClockSpeed.toNat) : c.cpuClockSpeed ≠ 0 := by
  intro h0
  rw [h0] at hfast
  exact absurd hfast (by decide)

theorem getTimeUs_fast (t : Tsc) (now : Word) (hboot : c.bootTsc ≠ 0)
    (hfast : 1000000 ≤ c.cpuClockSpeed.toNat) :
    ∃ us, getTimeUs t c now = (some us, c) ∧
      us.toNat = (now - c.bootTsc).toNat / (c.cpuClockSpeed.toNat / 1000000) % 2 ^ 32 := by
  refine ⟨((now - c.bootTsc) / (c.cpuClockSpeed / 1000000)).setWidth 32, ?_, ?_⟩
  · rw [getTimeUs_eq (cpuClockSpeed_ne_zero hfast) hboot,
      if_neg (cyclesPerUs_eq_zero_iff.not.mpr (not_lt.mpr hfast))]
  · rw [BitVec.toNat_setWidth, BitVec.toNat_udiv, BitVec.toNat_udiv]
    rfl

/-! ### Differences of milliseconds -/

/-- The milliseconds in the part of the product above 64 bits, and in what the division of the
rest leaves over. -/
def Clock.lostMs (c : Clock) (now : Word) : Nat :=
  let product := (now.toNat - c.bootTsc.toNat) * 1000
  (product / 2 ^ 64 * 2 ^ 64 + product % 2 ^ 64 % c.cpuClockSpeed.toNat) / c.cpuClockSpeed.toNat

theorem Clock.lostMs_eq_zero (hspeed : c.cpuClockSpeed ≠ 0)
    (h : (now.toNat - c.bootTsc.toNat) * 1000 < 2 ^ 64) : c.lostMs now = 0 := by
  have hpos : c.cpuClockSpeed.toNat ≠ 0 := fun h0 => hspeed (BitVec.eq_of_toNat_eq h0)
  simp only [Clock.lostMs]
  rw [Nat.div_eq_of_lt h, Nat.zero_mul, Nat.zero_add]
  exact Nat.div_eq_of_lt (Nat.mod_lt _ (Nat.pos_of_ne_zero hpos))

/-- The speed is one that `set_CPU_clock_speed` has found. -/
def Calibrated (t : Tsc) (c : Clock) : Prop :=
  ∃ c₀ : Clock, c₀.cpuClockSpeed = 0 ∧ setCpuClockSpeed t c₀ = (0, c)

/-- The speed in kHz. -/
def Clock.speedKhz (c : Clock) : Nat := c.cpuClockSpeed.toNat / 1000

theorem Calibrated.speed (h : Calibrated t c) :
    c.cpuClockSpeed.toNat = c.speedKhz * 1000 ∧ c.speedKhz ≠ 0 ∧ c.speedKhz ≤ 4612384665 := by
  obtain ⟨c₀, hzero, hset⟩ := h
  obtain ⟨c', hrun, hspeed, -⟩ := setCpuClockSpeed_first t hzero
  rw [hset, Prod.mk.injEq] at hrun
  obtain ⟨herror, rfl⟩ := hrun
  have hne : c₀.khz t 0 ≠ 0 := by
    intro h0
    rw [if_pos h0] at herror
    exact absurd herror (by decide)
  have hle : c₀.khz t 0 ≤ 4612384665 := cpuKhz_le _ _
  have hkhz : c.speedKhz = c₀.khz t 0 := by
    rw [Clock.speedKhz, hspeed]
    omega
  rw [hkhz]
  exact ⟨hspeed, hne, hle⟩

/-- No division by zero, and at most one millisecond apart. -/
def ClocksAgree (t : Tsc) (c : Clock) (now : Word) : Prop :=
  ∃ us, (getTimeUs t c now).1 = some us ∧
    us.toNat / 1000 ≤ (getTimeMs t c now).1.toNat + 1 ∧
    (getTimeMs t c now).1.toNat ≤ us.toNat / 1000 + 1

/-- With `e` ticks at `k` kHz, the microseconds that are a thousand to a millisecond are ahead
by the part of `k` below a thousand for each millisecond. -/
theorem micros_le_iff {e k : Nat} (hk : 1000 ≤ k) :
    (e / k ≤ e / (k / 1000) / 1000) ∧
      (e / (k / 1000) / 1000 ≤ e / k + 1 ↔ e / k * (k % 1000) + e % k < 2000 * (k / 1000)) := by
  obtain ⟨q, hq⟩ : ∃ q, q = k / 1000 := ⟨_, rfl⟩
  obtain ⟨n, hn⟩ : ∃ n, n = e / k := ⟨_, rfl⟩
  have hqpos : 0 < q * 1000 := by omega
  have hkq : k = q * 1000 + k % 1000 := by omega
  have he : e = n * (q * 1000) + n * (k % 1000) + e % k := by
    rw [← Nat.mul_add, ← hkq, hn, Nat.div_add_mod']
  rw [← hq, ← hn, Nat.div_div_eq_div_mul]
  constructor
  · rw [Nat.le_div_iff_mul_le hqpos]
    omega
  · rw [← Nat.lt_succ_iff, Nat.div_lt_iff_lt_mul hqpos, Nat.succ_eq_add_one, Nat.add_mul,
      Nat.add_mul]
    omega

/-- A product that wraps loses more than two milliseconds at every speed there is. -/
theorem wrapped_ms_lt {e k : Nat} (hk : 0 < k) (hle : k ≤ 4612384665)
    (hover : 2 ^ 64 ≤ e * 1000) (hlt : e * 1000 < 2 * 2 ^ 64) :
    e * 1000 % 2 ^ 64 / (k * 1000) + 1 < e / k := by
  have hsub : e * 1000 % 2 ^ 64 = e * 1000 - 2 ^ 64 := by omega
  have hn : e / k = e * 1000 / (k * 1000) := (Nat.mul_div_mul_right e k (by decide)).symm
  have hkpos : 0 < k * 1000 := by omega
  have hadd : (e * 1000 - 2 * (k * 1000) + 2 * (k * 1000)) / (k * 1000) =
      (e * 1000 - 2 * (k * 1000)) / (k * 1000) + 2 := Nat.add_mul_div_right _ _ hkpos
  have hmono : e * 1000 % 2 ^ 64 / (k * 1000) ≤ (e * 1000 - 2 * (k * 1000)) / (k * 1000) :=
    Nat.div_le_div_right (by omega)
  rw [Nat.sub_add_cancel (by omega)] at hadd
  omega

theorem clocksAgree_of_us {us : BitVec 32} (h : (getTimeUs t c now).1 = some us) :
    ClocksAgree t c now ↔
      us.toNat / 1000 ≤ (getTimeMs t c now).1.toNat + 1 ∧
        (getTimeMs t c now).1.toNat ≤ us.toNat / 1000 + 1 := by
  constructor
  · rintro ⟨us', h', hagree⟩
    rw [h, Option.some_inj] at h'
    rwa [h']
  · exact fun hagree => ⟨us, h, hagree⟩

/-- The comparison in numbers, for `e` ticks at `k` kHz. -/
theorem times_agree_iff {e k : Nat} (hfast : 1000 ≤ k) (hle : k ≤ 4612384665)
    (hwrap : e / (k / 1000) < 2 ^ 32) :
    (e / (k / 1000) / 1000 ≤ e * 1000 % 2 ^ 64 / (k * 1000) % 2 ^ 32 + 1 ∧
        e * 1000 % 2 ^ 64 / (k * 1000) % 2 ^ 32 ≤ e / (k / 1000) / 1000 + 1) ↔
      e * 1000 < 2 ^ 64 ∧ e / k * (k % 1000) + e % k < 2000 * (k / 1000) := by
  obtain ⟨hahead, hdrift⟩ := micros_le_iff (e := e) hfast
  have hnlt : e / k < 2 ^ 32 := by omega
  by_cases hover : e * 1000 < 2 ^ 64
  · have hexact : e * 1000 % 2 ^ 64 / (k * 1000) % 2 ^ 32 = e / k := by
      rw [Nat.mod_eq_of_lt hover, Nat.mul_div_mul_right e k (by decide), Nat.mod_eq_of_lt hnlt]
    rw [hexact, hdrift]
    constructor
    · exact fun h => ⟨hover, h.1⟩
    · exact fun h => ⟨h.2, by omega⟩
  · have hbound : e < 2 ^ 32 * (k / 1000) := (Nat.div_lt_iff_lt_mul (by omega)).mp hwrap
    have hlost := wrapped_ms_lt (by omega) hle (not_lt.mp hover) (by omega)
    refine iff_of_false ?_ fun h => hover h.1
    rintro ⟨hclose, -⟩
    rw [Nat.mod_eq_of_lt (by omega)] at hclose
    omega

/-- **The clocks agree exactly while the product does not wrap and the drift is less than two
milliseconds**, at a speed of at least one MHz. -/
theorem clocksAgree_iff (t : Tsc) (c : Clock) (now : Word) (hcal : Calibrated t c)
    (hwrap : (now - c.bootTsc).toNat / (c.cpuClockSpeed.toNat / 1000000) < 2 ^ 32) :
    ClocksAgree t c now ↔
      c.bootTsc = 0 ∨
        (1000 ≤ c.speedKhz ∧ (now - c.bootTsc).toNat * 1000 < 2 ^ 64 ∧
          (now - c.bootTsc).toNat / c.speedKhz * (c.speedKhz % 1000) +
            (now - c.bootTsc).toNat % c.speedKhz < 2000 * (c.speedKhz / 1000)) := by
  obtain ⟨hspeed, hne, hle⟩ := hcal.speed
  have hspeedNe : c.cpuClockSpeed ≠ 0 := by
    intro h0
    rw [h0] at hspeed
    have hzero : (0 : Word).toNat = 0 := rfl
    omega
  by_cases hboot : c.bootTsc = 0
  · refine iff_of_true ⟨0, ?_, ?_, ?_⟩ (Or.inl hboot)
    · rw [getTimeUs_of_boot_zero hspeedNe hboot]
    · exact Nat.zero_le _
    · rw [getTimeMs_of_boot_zero hspeedNe hboot]
      exact Nat.zero_le _
  rw [or_iff_right hboot]
  by_cases hslow : c.speedKhz < 1000
  · refine iff_of_false ?_ fun h => absurd h.1 (not_le.mpr hslow)
    rintro ⟨us, hus, -⟩
    rw [getTimeUs_slow hspeedNe hboot (by omega)] at hus
    cases hus
  have hfast : 1000 ≤ c.speedKhz := not_lt.mp hslow
  obtain ⟨us, hrun, hus⟩ := getTimeUs_fast t now hboot (by omega)
  have hmhz : c.cpuClockSpeed.toNat / 1000000 = c.speedKhz / 1000 := by omega
  rw [hmhz] at hwrap hus
  rw [Nat.mod_eq_of_lt hwrap] at hus
  have hms : (getTimeMs t c now).1.toNat =
      (now - c.bootTsc).toNat * 1000 % 2 ^ 64 / (c.speedKhz * 1000) % 2 ^ 32 := by
    rw [getTimeMs_eq hspeedNe hboot, BitVec.toNat_setWidth, BitVec.toNat_udiv, BitVec.toNat_mul,
      hspeed, show (1000 : Word).toNat = 1000 from rfl]
  rw [clocksAgree_of_us (congrArg Prod.fst hrun), hms, hus, times_agree_iff hfast hle hwrap]
  exact (and_iff_right hfast).symm

/-- A processor of `3000454` kHz. -/
def exampleClock : Clock := ⟨3000454000, 1, 1⟩

theorem exampleClock_calibrated : Calibrated ⟨true, fun _ => 12000000⟩ exampleClock :=
  ⟨⟨0, 1, 0⟩, rfl, by decide⟩

/-- After one second. -/
theorem clocksAgree_iff_second :
    ClocksAgree ⟨true, fun _ => 12000000⟩ exampleClock 3000454001 ↔
      exampleClock.bootTsc = 0 ∨
        (1000 ≤ exampleClock.speedKhz ∧ (3000454001 - exampleClock.bootTsc).toNat * 1000 < 2 ^ 64 ∧
          (3000454001 - exampleClock.bootTsc).toNat / exampleClock.speedKhz *
              (exampleClock.speedKhz % 1000) +
            (3000454001 - exampleClock.bootTsc).toNat % exampleClock.speedKhz <
            2000 * (exampleClock.speedKhz / 1000)) :=
  clocksAgree_iff _ _ _ exampleClock_calibrated (by decide)

/-- After thirteen seconds and a third the clocks are two milliseconds apart. -/
theorem exampleClock_not_agree :
    Calibrated ⟨true, fun _ => 12000000⟩ exampleClock ∧
      (getTimeUs ⟨true, fun _ => 12000000⟩ exampleClock 39906038201).1 = some 13302012 ∧
      (getTimeMs ⟨true, fun _ => 12000000⟩ exampleClock 39906038201).1 = 13300 ∧
      ¬ ClocksAgree ⟨true, fun _ => 12000000⟩ exampleClock 39906038201 := by
  have hus : (getTimeUs ⟨true, fun _ => 12000000⟩ exampleClock 39906038201).1 = some 13302012 := by
    decide
  have hms : (getTimeMs ⟨true, fun _ => 12000000⟩ exampleClock 39906038201).1 = 13300 := by
    decide
  refine ⟨exampleClock_calibrated, hus, hms, ?_⟩
  rintro ⟨us, h, hclose, -⟩
  rw [hus, Option.some_inj] at h
  subst h
  rw [hms] at hclose
  exact absurd hclose (by decide)

end AncoreOS.Kernel
