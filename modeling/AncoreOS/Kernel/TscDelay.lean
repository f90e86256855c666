import AncoreOS.Kernel.ClockTime
import Mathlib.Order.Monotone.Defs

/-!
# Waiting for microseconds

`tsc_delay_us` polls `get_time_us` until enough microseconds have passed.  The value
`0` stands for a clock that could not be set, but the 32-bit counter also passes
through it, once in `2 ^ 32` microseconds, and in the first one after boot: a poll
that reads it makes the function give up.

The readings of the time-stamp counter are a sequence, one for each poll, and the
loop stops at the first poll that reads `0` or a large enough difference
(`tscDelayLoop_spec`, `exists_tscDelayLoop`).
-/

namespace AncoreOS.Kernel

open ByteMemory

/-- The loop of `tsc_delay_us` for at most `n` rounds, after the reading number `k`.  The result is
the last value, the number of its reading, and the clock. -/
def tscDelayLoop (t : Tsc) (tsc : Nat → Word) (startTime micros : BitVec 32) :
    Nat → Nat → BitVec 32 → Clock → Option (BitVec 32 × Nat × Clock)
  | 0, _, _, _ => none
  | n + 1, k, lastRecordedTime, c =>
    if lastRecordedTime ≠ 0 ∧ lastRecordedTime - startTime < micros then
      match getTimeUs t c (tsc (k + 1)) with
      | (none, _) => none
      | (some us, c) => tscDelayLoop t tsc startTime micros n (k + 1) us c
    else some (lastRecordedTime, k, c)

/-- `none` is a loop that has not ended, or a division by zero. -/
def tscDelayUs (t : Tsc) (tsc : Nat → Word) (n : Nat) (c : Clock) (micros : BitVec 32) :
    Option (Int × Nat × Clock) :=
  match getTimeUs t c (tsc 0) with
  | (none, _) => none
  | (some startTime, c) =>
    if startTime = 0 then some (-1, 0, c)
    else
      (tscDelayLoop t tsc startTime micros n 0 startTime c).map fun r =>
        (if r.1 = 0 then -1 else 0, r.2)

/-- The microseconds since boot, before they are cut to 32 bits. -/
def Clock.exactUs (c : Clock) (now : Word) : Nat :=
  (now.toNat - c.bootTsc.toNat) / (c.cpuClockSpeed.toNat / 1000000)

/-- The counter of `get_time_us`. -/
def Clock.us (c : Clock) (now : Word) : BitVec 32 := BitVec.ofNat 32 (c.exactUs now)

section

variable {t : Tsc} {c : Clock} {tsc : Nat → Word} {micros : BitVec 32}

theorem getTimeUs_us {now : Word} (hspeed : 1000000 ≤ c.cpuClockSpeed.toNat) (hboot : c.bootTsc ≠ 0)
    (hafter : c.bootTsc.toNat ≤ now.toNat) : getTimeUs t c now = (some (c.us now), c) := by
  obtain ⟨us, hrun, hus⟩ := getTimeUs_fast t now hboot hspeed
  rw [BitVec.toNat_sub_of_le (BitVec.le_def.mpr hafter)] at hus
  have hvalue : us = c.us now := by
    refine BitVec.eq_of_toNat_eq ?_
    rw [hus, Clock.us, BitVec.toNat_ofNat, Clock.exactUs]
  rw [hrun, hvalue]

theorem exactUs_mono {a b : Word} (h : a.toNat ≤ b.toNat) : c.exactUs a ≤ c.exactUs b :=
  Nat.div_le_div_right (Nat.sub_le_sub_right h _)

/-- The difference of two counters is never more than the time between them. -/
theorem us_sub_le {a b : Word} (h : a.toNat ≤ b.toNat) :
    (c.us b - c.us a).toNat ≤ c.exactUs b - c.exactUs a := by
  have hmono := exactUs_mono (c := c) h
  rw [BitVec.toNat_sub, Clock.us, Clock.us, BitVec.toNat_ofNat, BitVec.toNat_ofNat]
  omega

/-! ### The loop -/

/-- The loop stops after the reading number `k`. -/
def DelayStops (c : Clock) (tsc : Nat → Word) (micros : BitVec 32) (k : Nat) : Prop :=
  c.us (tsc k) = 0 ∨ micros ≤ c.us (tsc k) - c.us (tsc 0)

theorem delayStops_iff {k : Nat} :
    DelayStops c tsc micros k ↔
      ¬ (c.us (tsc k) ≠ 0 ∧ c.us (tsc k) - c.us (tsc 0) < micros) := by
  rw [DelayStops, not_and_or, not_not, BitVec.not_lt]

/-- A loop that has ended has ended at the first reading it can. -/
theorem tscDelayLoop_spec (hread : ∀ k, getTimeUs t c (tsc k) = (some (c.us (tsc k)), c))
    {r : BitVec 32 × Nat × Clock} :
    ∀ (n k : Nat), tscDelayLoop t tsc (c.us (tsc 0)) micros n k (c.us (tsc k)) c = some r →
      ∃ i, k ≤ i ∧ r = (c.us (tsc i), i, c) ∧ DelayStops c tsc micros i ∧
        ∀ j, k ≤ j → j < i → ¬ DelayStops c tsc micros j := by
  intro n
  induction n with
  | zero =>
    intro k h
    cases h
  | succ n ih =>
    intro k h
    rw [tscDelayLoop] at h
    by_cases hgo : c.us (tsc k) ≠ 0 ∧ c.us (tsc k) - c.us (tsc 0) < micros
    · rw [if_pos hgo, hread (k + 1)] at h
      obtain ⟨i, hki, hr, hstop, hbefore⟩ := ih (k + 1) h
      refine ⟨i, by omega, hr, hstop, fun j hkj hji => ?_⟩
      by_cases hj : j = k
      · rw [hj, delayStops_iff]
        exact not_not_intro hgo
      · exact hbefore j (by omega) hji
    · rw [if_neg hgo, Option.some_inj] at h
      exact ⟨k, le_rfl, h.symm, delayStops_iff.mpr hgo, fun j hkj hjk => by omega⟩

/-- The loop ends when there is a reading it can end at. -/
theorem exists_tscDelayLoop (hread : ∀ k, getTimeUs t c (tsc k) = (some (c.us (tsc k)), c)) :
    ∀ (d k : Nat), DelayStops c tsc micros (k + d) →
      ∃ n r, tscDelayLoop t tsc (c.us (tsc 0)) micros n k (c.us (tsc k)) c = some r := by
  intro d
  induction d with
  | zero =>
    intro k hstop
    rw [Nat.add_zero] at hstop
    refine ⟨1, (c.us (tsc k), k, c), ?_⟩
    rw [tscDelayLoop, if_neg (delayStops_iff.mp hstop)]
  | succ d ih =>
    intro k hstop
    by_cases hgo : c.us (tsc k) ≠ 0 ∧ c.us (tsc k) - c.us (tsc 0) < micros
    · obtain ⟨n, r, hrun⟩ := ih (k + 1) (by rwa [show k + 1 + d = k + (d + 1) by omega])
      refine ⟨n + 1, r, ?_⟩
      rw [tscDelayLoop, if_pos hgo, hread (k + 1)]
      exact hrun
    · refine ⟨1, (c.us (tsc k), k, c), ?_⟩
      rw [tscDelayLoop, if_neg hgo]

/-! ### When the delay is a delay -/

/-- The function ends, and it ends with `0` after a reading that is late enough. -/
def DelaysFully (t : Tsc) (tsc : Nat → Word) (c : Clock) (micros : BitVec 32) : Prop :=
  (∃ n r, tscDelayUs t tsc n c micros = some r) ∧
    ∀ n r, tscDelayUs t tsc n c micros = some r →
      r.1 = 0 ∧ micros.toNat ≤ c.exactUs (tsc r.2.1) - c.exactUs (tsc 0)

theorem tscDelayUs_of_boot_zero {n : Nat} (hspeed : c.cpuClockSpeed ≠ 0) (hboot : c.bootTsc = 0) :
    tscDelayUs t tsc n c micros = some (-1, 0, c) := by
  rw [tscDelayUs, getTimeUs_of_boot_zero hspeed hboot]
  exact if_pos rfl

theorem tscDelayUs_of_us_zero {n : Nat}
    (hread : ∀ k, getTimeUs t c (tsc k) = (some (c.us (tsc k)), c)) (h0 : c.us (tsc 0) = 0) :
    tscDelayUs t tsc n c micros = some (-1, 0, c) := by
  rw [tscDelayUs, hread 0]
  exact if_pos h0

theorem tscDelayUs_of_us_ne_zero {n : Nat}
    (hread : ∀ k, getTimeUs t c (tsc k) = (some (c.us (tsc k)), c)) (h0 : c.us (tsc 0) ≠ 0) :
    tscDelayUs t tsc n c micros =
      (tscDelayLoop t tsc (c.us (tsc 0)) micros n 0 (c.us (tsc 0)) c).map fun r =>
        (if r.1 = 0 then -1 else 0, r.2) := by
  rw [tscDelayUs, hread 0]
  exact if_neg h0

/-- What a call returns that has ended, when the clock does not start at `0`. -/
theorem tscDelayUs_result {n : Nat} {r : Int × Nat × Clock}
    (hread : ∀ k, getTimeUs t c (tsc k) = (some (c.us (tsc k)), c)) (h0 : c.us (tsc 0) ≠ 0)
    (h : tscDelayUs t tsc n c micros = some r) :
    ∃ i, r = (if c.us (tsc i) = 0 then -1 else 0, i, c) ∧ DelayStops c tsc micros i ∧
      ∀ j, j < i → ¬ DelayStops c tsc micros j := by
  rw [tscDelayUs_of_us_ne_zero hread h0, Option.map_eq_some_iff] at h
  obtain ⟨r', hrun, rfl⟩ := h
  obtain ⟨i, -, rfl, hstop, hbefore⟩ := tscDelayLoop_spec hread n 0 hrun
  exact ⟨i, rfl, hstop, fun j hj => hbefore j (Nat.zero_le j) hj⟩

theorem not_delaysFully {n k : Nat} (h : tscDelayUs t tsc n c micros = some (-1, k, c)) :
    ¬ DelaysFully t tsc c micros := by
  intro hfully
  have hfail : (-1 : Int) = 0 := (hfully.2 n _ h).1
  exact absurd hfail (by decide)

/-- A delay that is served has a last poll, and none up to it reads `0`. -/
theorem DelaysFully.exists_poll (hread : ∀ k, getTimeUs t c (tsc k) = (some (c.us (tsc k)), c))
    (h : DelaysFully t tsc c micros) :
    ∃ k, micros ≤ c.us (tsc k) - c.us (tsc 0) ∧ ∀ j ≤ k, c.us (tsc j) ≠ 0 := by
  obtain ⟨n, r, hrun⟩ := h.1
  have hzero := (h.2 n r hrun).1
  have h0 : c.us (tsc 0) ≠ 0 := fun h0 => not_delaysFully (tscDelayUs_of_us_zero hread h0 (n := n)) h
  obtain ⟨i, rfl, hstop, hbefore⟩ := tscDelayUs_result hread h0 hrun
  have hne : c.us (tsc i) ≠ 0 := by
    intro hi
    simp only [if_pos hi] at hzero
    exact absurd hzero (by decide)
  refine ⟨i, hstop.resolve_left hne, fun j hj => ?_⟩
  rcases Nat.lt_or_eq_of_le hj with hlt | rfl
  · exact fun hj0 => hbefore j hlt (Or.inl hj0)
  · exact hne

theorem delaysFully_of_poll (hread : ∀ k, getTimeUs t c (tsc k) = (some (c.us (tsc k)), c))
    (hfrom : ∀ k, (tsc 0).toNat ≤ (tsc k).toNat) {k : Nat}
    (hk : micros ≤ c.us (tsc k) - c.us (tsc 0)) (hne : ∀ j ≤ k, c.us (tsc j) ≠ 0) :
    DelaysFully t tsc c micros := by
  have h0 := hne 0 (Nat.zero_le k)
  refine ⟨?_, fun n r hrun => ?_⟩
  · have hstop : DelayStops c tsc micros (0 + k) := by
      rw [Nat.zero_add]
      exact Or.inr hk
    obtain ⟨n, r, hloop⟩ := exists_tscDelayLoop hread k 0 hstop
    refine ⟨n, (if r.1 = 0 then -1 else 0, r.2), ?_⟩
    rw [tscDelayUs_of_us_ne_zero hread h0, hloop]
    rfl
  · obtain ⟨i, rfl, hstop, hbefore⟩ := tscDelayUs_result hread h0 hrun
    have hik : i ≤ k := by
      by_contra hlt
      exact hbefore k (not_le.mp hlt) (Or.inr hk)
    have hnei := hne i hik
    refine ⟨if_neg hnei, ?_⟩
    have hdiff := hstop.resolve_left hnei
    rw [BitVec.le_def] at hdiff
    exact hdiff.trans (us_sub_le (hfrom i))

/-- **The delay is served exactly if `boot_tsc` is known and no poll reads `0`** up to the first
one that sees the counter advanced far enough. -/
theorem tscDelayUs_iff (t : Tsc) (tsc : Nat → Word) (c : Clock) (micros : BitVec 32)
    (hspeed : 1000000 ≤ c.cpuClockSpeed.toNat) (hafter : c.bootTsc.toNat ≤ (tsc 0).toNat)
    (hmono : Monotone fun k => (tsc k).toNat) :
    DelaysFully t tsc c micros ↔
      c.bootTsc ≠ 0 ∧ ∃ k, micros ≤ c.us (tsc k) - c.us (tsc 0) ∧ ∀ j ≤ k, c.us (tsc j) ≠ 0 := by
  have hfrom : ∀ k, (tsc 0).toNat ≤ (tsc k).toNat := fun k => hmono (Nat.zero_le k)
  by_cases hboot : c.bootTsc = 0
  · refine iff_of_false ?_ fun h => h.1 hboot
    exact not_delaysFully (tscDelayUs_of_boot_zero (cpuClockSpeed_ne_zero hspeed) hboot (n := 0))
  have hread : ∀ k, getTimeUs t c (tsc k) = (some (c.us (tsc k)), c) := fun k =>
    getTimeUs_us hspeed hboot (hafter.trans (hfrom k))
  constructor
  · exact fun h => ⟨hboot, h.exists_poll hread⟩
  · rintro ⟨-, k, hk, hne⟩
    exact delaysFully_of_poll hread hfrom hk hne

end

/-- Ten microseconds, started a second after boot and polled every microsecond. -/
theorem tscDelayUs_iff_second :
    DelaysFully ⟨true, fun _ => 0⟩ (fun k => BitVec.ofNat 64 (1000000001 + min k 10 * 1000))
        ⟨1000000000, 1, 0⟩ 10 ↔
      Clock.bootTsc ⟨1000000000, 1, 0⟩ ≠ 0 ∧
        ∃ k, (10 : BitVec 32) ≤
            Clock.us ⟨1000000000, 1, 0⟩ (BitVec.ofNat 64 (1000000001 + min k 10 * 1000)) -
              Clock.us ⟨1000000000, 1, 0⟩ (BitVec.ofNat 64 (1000000001 + min 0 10 * 1000)) ∧
          ∀ j ≤ k, Clock.us ⟨1000000000, 1, 0⟩
            (BitVec.ofNat 64 (1000000001 + min j 10 * 1000)) ≠ 0 := by
  refine tscDelayUs_iff _ _ _ _ (by decide) (by decide) fun i j hij => ?_
  simp only [BitVec.toNat_ofNat]
  rw [Nat.mod_eq_of_lt (by omega), Nat.mod_eq_of_lt (by omega)]
  omega

/-- Polled across the wrap of the counter: the second poll reads `0`, and a calibrated clock is
reported as one that is not. -/
theorem tscDelayUs_wrap :
    tscDelayUs ⟨true, fun _ => 0⟩ (fun k => BitVec.ofNat 64 (4294967295001 + k * 1000)) 2
        ⟨1000000000, 1, 0⟩ 10 = some (-1, 1, ⟨1000000000, 1, 0⟩) ∧
      ¬ DelaysFully ⟨true, fun _ => 0⟩ (fun k => BitVec.ofNat 64 (4294967295001 + k * 1000))
        ⟨1000000000, 1, 0⟩ 10 := by
  have hrun : tscDelayUs ⟨true, fun _ => 0⟩ (fun k => BitVec.ofNat 64 (4294967295001 + k * 1000)) 2
      ⟨1000000000, 1, 0⟩ 10 = some (-1, 1, ⟨1000000000, 1, 0⟩) := by
    decide
  exact ⟨hrun, not_delaysFully hrun⟩

end AncoreOS.Kernel
