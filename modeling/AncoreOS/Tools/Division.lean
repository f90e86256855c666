import AncoreOS.Library.ByteMemory
import AncoreOS.Library.RestoringDivision

/-!
# The division of `math.c`

`__udivdi3` and `__umoddi3` divide 64 bits by 32.  Both look for the number of
quotient bits first, by shifting the divisor until it is above the dividend, and
then divide by the schoolbook method (`RestoringDivision`), with `64`-bit shifts.

The search shifts the divisor in its own 32 bits, and tests the bound of the shift
amount after the shift.  For a dividend of more than 32 bits it ends at the bound:
it has then shifted 32 bits by `32`, and the quotient is cut to 32 bits
(`udivdi3_eq_iff`).  For a smaller dividend the values are right, and the amount is
in bounds if some shifted divisor is above the dividend (`divisionRight_iff`).

The language leaves open what a shift by the width or more gives.  `overlong` is what
it gives here; no result depends on it.
-/

namespace AncoreOS.Tools

open ByteMemory RestoringDivision

/-- What a division does beside its arithmetic: a shift, with the width of the shifted type, and
`INTERRUPT`. -/
inductive DivisionEvent
  | shl (width amount : Nat)
  | interrupt (vector : BitVec 8)
  deriving DecidableEq, Repr

/-- `d << amount` in 32 bits. -/
def shl32 (overlong : BitVec 32 → Nat → BitVec 32) (d : BitVec 32) (amount : Nat) : BitVec 32 :=
  if amount < 32 then d <<< amount else overlong d amount

/-- `while ((d << shift) <= r && shift < 32) shift++;` -/
def quotientBits (overlong : BitVec 32 → Nat → BitVec 32) (d : BitVec 32) (r : Word) (shift : Nat) :
    Nat × List DivisionEvent :=
  if (shl32 overlong d shift).setWidth 64 ≤ r ∧ shift < 32 then
    let (last, log) := quotientBits overlong d r (shift + 1)
    (last, .shl 32 shift :: log)
  else (shift, [.shl 32 shift])
termination_by 32 - shift

/-- The loop of `__udivdi3` for the bits below `i`. -/
def udivLoop (d : BitVec 32) : Nat → Word → Word → Word × List DivisionEvent
  | 0, _, q => (q, [])
  | i + 1, r, q =>
    if d.setWidth 64 <<< i ≤ r then
      let (q, log) := udivLoop d i (r - d.setWidth 64 <<< i) (q ||| 1#64 <<< i)
      (q, .shl 64 i :: .shl 64 i :: .shl 64 i :: log)
    else
      let (q, log) := udivLoop d i r q
      (q, .shl 64 i :: log)

/-- The loop of `__umoddi3`. -/
def umodLoop (d : BitVec 32) : Nat → Word → Word × List DivisionEvent
  | 0, r => (r, [])
  | i + 1, r =>
    if d.setWidth 64 <<< i ≤ r then
      let (r, log) := umodLoop d i (r - d.setWidth 64 <<< i)
      (r, .shl 64 i :: .shl 64 i :: log)
    else
      let (r, log) := umodLoop d i r
      (r, .shl 64 i :: log)

/-- `__udivdi3`. -/
def udivdi3 (overlong : BitVec 32 → Nat → BitVec 32) (n : Word) (d : BitVec 32) :
    Word × List DivisionEvent :=
  if d = 0 then (0, [.interrupt 0])
  else if n < d.setWidth 64 then (0, [])
  else
    let (shift, log) := quotientBits overlong d n 0
    let (q, log') := udivLoop d shift n 0
    (q, log ++ log')

/-- `__umoddi3`. -/
def umoddi3 (overlong : BitVec 32 → Nat → BitVec 32) (n : Word) (d : BitVec 32) :
    Word × List DivisionEvent :=
  if d = 0 then (0, [.interrupt 0])
  else if n < d.setWidth 64 then (n, [])
  else
    let (shift, log) := quotientBits overlong d n 0
    let (r, log') := umodLoop d shift n
    (r, log ++ log')

variable {overlong : BitVec 32 → Nat → BitVec 32} {n r q : Word} {d : BitVec 32}

/-! ### The number of quotient bits -/

/-- The search ends at the first shifted divisor above `r`, at the latest at `32`. -/
structure EndsAt (d : BitVec 32) (r : Word) (shift last : Nat) : Prop where
  from_le : shift ≤ last
  le : last ≤ 32
  below : ∀ k, shift ≤ k → k < last → (d <<< k).toNat ≤ r.toNat
  above : last < 32 → r.toNat < (d <<< last).toNat

theorem test_iff {shift : Nat} :
    ((shl32 overlong d shift).setWidth 64 ≤ r ∧ shift < 32) ↔
      (d <<< shift).toNat ≤ r.toNat ∧ shift < 32 := by
  refine and_congr_left fun h => ?_
  rw [shl32, if_pos h, BitVec.le_def, BitVec.toNat_setWidth_of_le (by decide)]

/-- **What the search does**: one shift for each amount up to the one it returns. -/
theorem quotientBits_spec (overlong : BitVec 32 → Nat → BitVec 32) (d : BitVec 32) (r : Word)
    {shift : Nat} (hshift : shift ≤ 32) :
    ∃ last, EndsAt d r shift last ∧
      quotientBits overlong d r shift =
        (last, (List.range' shift (last + 1 - shift)).map (DivisionEvent.shl 32)) := by
  induction hm : 32 - shift generalizing shift with
  | zero =>
    obtain rfl : shift = 32 := by omega
    have hstop : ¬ ((shl32 overlong d 32).setWidth 64 ≤ r ∧ 32 < 32) :=
      fun h => absurd h.2 (by decide)
    refine ⟨32, ⟨le_rfl, le_rfl, fun k h h' => by omega, fun h => by omega⟩, ?_⟩
    rw [quotientBits, if_neg hstop]
    rfl
  | succ m ih =>
    by_cases htest : (shl32 overlong d shift).setWidth 64 ≤ r ∧ shift < 32
    · obtain ⟨last, hends, hrun⟩ := ih (show shift + 1 ≤ 32 by omega) (by omega)
      have hle := (test_iff.mp htest).1
      have hfrom := hends.from_le
      refine ⟨last, ⟨by omega, hends.le, fun k hk hlast => ?_, hends.above⟩, ?_⟩
      · rcases Nat.eq_or_lt_of_le hk with rfl | hlt
        · exact hle
        · exact hends.below k hlt hlast
      · rw [quotientBits, if_pos htest, hrun,
          show last + 1 - shift = last + 1 - (shift + 1) + 1 by omega, List.range'_succ,
          List.map_cons]
    · have hlt : shift < 32 := by omega
      have habove : r.toNat < (d <<< shift).toNat := by
        by_contra hle
        exact htest (test_iff.mpr ⟨not_lt.mp hle, hlt⟩)
      refine ⟨shift, ⟨le_rfl, hshift, fun k h h' => by omega, fun _ => habove⟩, ?_⟩
      rw [quotientBits, if_neg htest, show shift + 1 - shift = 1 by omega]
      rfl

/-! ### The loops -/

/-- The shifts of 64 bits lose nothing of the divisor. -/
theorem wide_shl_toNat (d : BitVec 32) {i : Nat} (hi : i < 32) :
    (d.setWidth 64 <<< i : Word).toNat = d.toNat * 2 ^ i := by
  have hpow : 2 ^ i ≤ 2 ^ 32 := Nat.pow_le_pow_right (by decide) hi.le
  have hlt : d.toNat * 2 ^ i < 2 ^ 32 * 2 ^ 32 :=
    Nat.mul_lt_mul_of_lt_of_le d.isLt hpow (Nat.two_pow_pos 32)
  rw [BitVec.toNat_shiftLeft, BitVec.toNat_setWidth_of_le (by decide), Nat.shiftLeft_eq]
  exact Nat.mod_eq_of_lt hlt

theorem wide_shl_le_iff (d : BitVec 32) {i : Nat} (hi : i < 32) :
    (d.setWidth 64 <<< i : Word) ≤ r ↔ d.toNat * 2 ^ i ≤ r.toNat := by
  rw [BitVec.le_def, wide_shl_toNat d hi]

/-- The bits from `i + 1` on are set before bit `i`, so that setting it adds it. -/
theorem or_bit_toNat {i : Nat} (hi : i < 32) (hq : 2 ^ (i + 1) ∣ q.toNat) :
    (q ||| 1#64 <<< i).toNat = q.toNat + 2 ^ i := by
  have hlt : 2 ^ i < 2 ^ 64 := Nat.pow_lt_pow_right (by decide) (by omega)
  have hbit : (1#64 <<< i).toNat = 2 ^ i := by
    rw [BitVec.toNat_shiftLeft, show (1#64).toNat = 1 from rfl, Nat.shiftLeft_eq, Nat.one_mul]
    exact Nat.mod_eq_of_lt hlt
  obtain ⟨a, ha⟩ := hq
  rw [BitVec.toNat_or, hbit, ha]
  exact (Nat.two_pow_add_eq_or_of_lt (Nat.pow_lt_pow_succ (by decide)) a).symm

theorem udivLoop_toNat (d : BitVec 32) {i : Nat} (hi : i ≤ 32) (r q : Word)
    (hq : 2 ^ i ∣ q.toNat) :
    (udivLoop d i r q).1.toNat = q.toNat + quotient d.toNat i r.toNat := by
  induction i generalizing r q with
  | zero => rfl
  | succ i ih =>
    have hshl := wide_shl_toNat d hi
    have hdvd : 2 ^ i ∣ q.toNat := (Nat.pow_dvd_pow 2 (Nat.le_succ i)).trans hq
    by_cases hsub : (d.setWidth 64 <<< i : Word) ≤ r
    · have hle := (wide_shl_le_iff d hi).mp hsub
      have hbit := or_bit_toNat hi hq
      have hdvd' : 2 ^ i ∣ (q ||| 1#64 <<< i).toNat := by
        rw [hbit]
        exact Nat.dvd_add hdvd (Nat.dvd_refl _)
      rw [udivLoop, if_pos hsub, quotient_of_sub hle]
      show (udivLoop d i _ _).1.toNat = _
      rw [ih (by omega) _ _ hdvd', hbit, BitVec.toNat_sub_of_le hsub, hshl, Nat.add_assoc]
    · have hkeep := (wide_shl_le_iff d hi).not.mp hsub
      rw [udivLoop, if_neg hsub, quotient_of_keep hkeep]
      exact ih (by omega) r q hdvd

theorem umodLoop_toNat (d : BitVec 32) {i : Nat} (hi : i ≤ 32) (r : Word) :
    (umodLoop d i r).1.toNat = remainder d.toNat i r.toNat := by
  induction i generalizing r with
  | zero => rfl
  | succ i ih =>
    have hshl := wide_shl_toNat d hi
    by_cases hsub : (d.setWidth 64 <<< i : Word) ≤ r
    · have hle := (wide_shl_le_iff d hi).mp hsub
      rw [umodLoop, if_pos hsub, remainder_of_sub hle]
      show (umodLoop d i _).1.toNat = _
      rw [ih (by omega), BitVec.toNat_sub_of_le hsub, hshl]
    · have hkeep := (wide_shl_le_iff d hi).not.mp hsub
      rw [umodLoop, if_neg hsub, remainder_of_keep hkeep]
      exact ih (by omega) r

/-! ### Shift amounts -/

/-- No shift amount reaches the width of the shifted type. -/
def ShiftsInWidth (log : List DivisionEvent) : Prop :=
  ∀ width amount, .shl width amount ∈ log → amount < width

theorem shiftsInWidth_nil : ShiftsInWidth [] := fun _ _ h => absurd h List.not_mem_nil

theorem shiftsInWidth_cons {width amount : Nat} {log : List DivisionEvent} :
    ShiftsInWidth (.shl width amount :: log) ↔ amount < width ∧ ShiftsInWidth log := by
  constructor
  · exact fun h => ⟨h width amount List.mem_cons_self,
      fun w a ha => h w a (List.mem_cons_of_mem _ ha)⟩
  · rintro ⟨hlt, hlog⟩ w a ha
    rcases List.mem_cons.mp ha with heq | ha
    · cases heq
      exact hlt
    · exact hlog w a ha

theorem shiftsInWidth_append {log log' : List DivisionEvent} :
    ShiftsInWidth (log ++ log') ↔ ShiftsInWidth log ∧ ShiftsInWidth log' := by
  constructor
  · exact fun h => ⟨fun w a ha => h w a (List.mem_append_left _ ha),
      fun w a ha => h w a (List.mem_append_right _ ha)⟩
  · rintro ⟨hlog, hlog'⟩ w a ha
    rcases List.mem_append.mp ha with ha | ha
    · exact hlog w a ha
    · exact hlog' w a ha

/-- The shifts of the search are in bounds unless it goes on to `32`. -/
theorem shiftsInWidth_search (last : Nat) :
    ShiftsInWidth ((List.range' 0 (last + 1)).map (DivisionEvent.shl 32)) ↔ last < 32 := by
  constructor
  · intro h
    refine h 32 last (List.mem_map_of_mem (List.mem_range'_1.mpr ?_))
    omega
  · intro hlast w a ha
    obtain ⟨k, hk, heq⟩ := List.mem_map.mp ha
    cases heq
    have hlt := (List.mem_range'_1.mp hk).2
    omega

theorem udivLoop_shifts (d : BitVec 32) {i : Nat} (hi : i ≤ 32) (r q : Word) :
    ShiftsInWidth (udivLoop d i r q).2 := by
  induction i generalizing r q with
  | zero => exact shiftsInWidth_nil
  | succ i ih =>
    have hlt : i < 64 := by omega
    rw [udivLoop]
    split
    · have hlow := ih (by omega) (r - d.setWidth 64 <<< i) (q ||| 1#64 <<< i)
      exact shiftsInWidth_cons.mpr ⟨hlt, shiftsInWidth_cons.mpr ⟨hlt,
        shiftsInWidth_cons.mpr ⟨hlt, hlow⟩⟩⟩
    · exact shiftsInWidth_cons.mpr ⟨hlt, ih (by omega) r q⟩

theorem umodLoop_shifts (d : BitVec 32) {i : Nat} (hi : i ≤ 32) (r : Word) :
    ShiftsInWidth (umodLoop d i r).2 := by
  induction i generalizing r with
  | zero => exact shiftsInWidth_nil
  | succ i ih =>
    have hlt : i < 64 := by omega
    rw [umodLoop]
    split
    · have hlow := ih (by omega) (r - d.setWidth 64 <<< i)
      exact shiftsInWidth_cons.mpr ⟨hlt, shiftsInWidth_cons.mpr ⟨hlt, hlow⟩⟩
    · exact shiftsInWidth_cons.mpr ⟨hlt, ih (by omega) r⟩

/-! ### What a division returns -/

theorem toNat_pos (hd : d ≠ 0) : 0 < d.toNat :=
  Nat.pos_of_ne_zero fun h0 => hd (BitVec.eq_of_toNat_eq h0)

/-- A shift by `last < 32` is in bounds, and the search ends there just if some shifted divisor
is above the dividend. -/
theorem EndsAt.last_lt_iff {last : Nat} (h : EndsAt d n 0 last) :
    last < 32 ↔ ∃ k < 32, n.toNat < (d <<< k).toNat := by
  constructor
  · exact fun hlast => ⟨last, hlast, h.above hlast⟩
  · rintro ⟨k, hk, habove⟩
    by_contra hlast
    have hbelow := h.below k (Nat.zero_le k) (by omega)
    omega

theorem shl_toNat_le (d : BitVec 32) (k : Nat) : (d <<< k).toNat ≤ d.toNat * 2 ^ k := by
  rw [BitVec.toNat_shiftLeft, Nat.shiftLeft_eq]
  exact Nat.mod_le _ _

/-- The search finds all bits of the quotient that it can: a quotient of 32 bits. -/
theorem EndsAt.fits_iff {last : Nat} (h : EndsAt d n 0 last) :
    n.toNat < d.toNat * 2 ^ last ↔ n.toNat < d.toNat * 2 ^ 32 := by
  rcases Nat.lt_or_eq_of_le h.le with hlt | rfl
  · have hfits : n.toNat < d.toNat * 2 ^ last := (h.above hlt).trans_le (shl_toNat_le d last)
    have hmono : d.toNat * 2 ^ last ≤ d.toNat * 2 ^ 32 :=
      Nat.mul_le_mul_left _ (Nat.pow_le_pow_right (by decide) h.le)
    exact iff_of_true hfits (hfits.trans_le hmono)
  · exact Iff.rfl

/-- **Both functions divide by the number of bits the search finds**, and their shifts are in
bounds unless it goes on to `32`. -/
theorem division_spec (overlong : BitVec 32 → Nat → BitVec 32) (n : Word) (hd : d ≠ 0) :
    ∃ last, EndsAt d n 0 last ∧
      (udivdi3 overlong n d).1.toNat = quotient d.toNat last n.toNat ∧
      (umoddi3 overlong n d).1.toNat = remainder d.toNat last n.toNat ∧
      (ShiftsInWidth (udivdi3 overlong n d).2 ↔ last < 32) ∧
      (ShiftsInWidth (umoddi3 overlong n d).2 ↔ last < 32) := by
  rw [udivdi3, umoddi3, if_neg hd, if_neg hd]
  by_cases hsmall : n < d.setWidth 64
  · rw [if_pos hsmall, if_pos hsmall]
    rw [BitVec.lt_def, BitVec.toNat_setWidth_of_le (by decide)] at hsmall
    have hends : EndsAt d n 0 0 :=
      ⟨le_rfl, Nat.zero_le _, fun k h h' => by omega, fun _ => by rwa [BitVec.shiftLeft_zero]⟩
    have hnil := iff_of_true shiftsInWidth_nil (show 0 < 32 by decide)
    exact ⟨0, hends, rfl, rfl, hnil, hnil⟩
  · obtain ⟨last, hends, hrun⟩ := quotientBits_spec overlong d n (Nat.zero_le 32)
    rw [Nat.sub_zero] at hrun
    rw [if_neg hsmall, if_neg hsmall, hrun]
    have hq := udivLoop_toNat d hends.le n 0 (Nat.dvd_zero _)
    refine ⟨last, hends, hq.trans (Nat.zero_add _), umodLoop_toNat d hends.le n, ?_, ?_⟩
    · show ShiftsInWidth (_ ++ (udivLoop d last n 0).2) ↔ _
      rw [shiftsInWidth_append, shiftsInWidth_search]
      exact and_iff_left (udivLoop_shifts d hends.le n 0)
    · show ShiftsInWidth (_ ++ (umodLoop d last n).2) ↔ _
      rw [shiftsInWidth_append, shiftsInWidth_search]
      exact and_iff_left (umodLoop_shifts d hends.le n)

/-- What is returned always makes up the dividend. -/
theorem udivdi3_mul_add_umoddi3 (overlong : BitVec 32 → Nat → BitVec 32) (n : Word) (hd : d ≠ 0) :
    (udivdi3 overlong n d).1.toNat * d.toNat + (umoddi3 overlong n d).1.toNat = n.toNat := by
  obtain ⟨last, -, hq, hr, -, -⟩ := division_spec overlong n hd
  rw [hq, hr, quotient_mul_add_remainder]

/-- **The quotient is right exactly if it has 32 bits.** -/
theorem udivdi3_eq_iff (overlong : BitVec 32 → Nat → BitVec 32) (n : Word) (hd : d ≠ 0) :
    (udivdi3 overlong n d).1.toNat = n.toNat / d.toNat ↔ n.toNat < d.toNat * 2 ^ 32 := by
  obtain ⟨last, hends, hq, -, -, -⟩ := division_spec overlong n hd
  rw [hq, quotient_eq_iff (toNat_pos hd), hends.fits_iff]

theorem umoddi3_eq_iff (overlong : BitVec 32 → Nat → BitVec 32) (n : Word) (hd : d ≠ 0) :
    (umoddi3 overlong n d).1.toNat = n.toNat % d.toNat ↔ n.toNat < d.toNat * 2 ^ 32 := by
  obtain ⟨last, hends, -, hr, -, -⟩ := division_spec overlong n hd
  rw [hr, remainder_eq_iff (toNat_pos hd), hends.fits_iff]

/-- A longer quotient is cut to 32 ones. -/
theorem udivdi3_of_le (overlong : BitVec 32 → Nat → BitVec 32) (n : Word) (hd : d ≠ 0)
    (h : d.toNat * 2 ^ 32 ≤ n.toNat) : (udivdi3 overlong n d).1.toNat = 2 ^ 32 - 1 := by
  obtain ⟨last, hends, hq, -, -, -⟩ := division_spec overlong n hd
  have hcut : d.toNat * 2 ^ last ≤ n.toNat := not_lt.mp (hends.fits_iff.not.mpr (not_lt.mpr h))
  have hlast : last = 32 := by
    by_contra hne
    have habove := hends.above (lt_of_le_of_ne hends.le hne)
    exact absurd (habove.trans_le (shl_toNat_le d last)) (not_lt.mpr hcut)
  rw [hq, quotient_of_le hcut, hlast]

/-- A dividend below `2 ^ 31` is below a shifted divisor: the one with its highest bit at the
top. -/
theorem exists_shift_of_lt (hd : d ≠ 0) (h : n.toNat < 2 ^ 31) :
    ∃ k < 32, n.toNat < (d <<< k).toNat := by
  have hne : d.toNat ≠ 0 := (toNat_pos hd).ne'
  have hlog : d.toNat.log2 < 32 := (Nat.log2_lt hne).mpr d.isLt
  have hself : 2 ^ d.toNat.log2 ≤ d.toNat := Nat.log2_self_le hne
  have hnext : d.toNat < 2 ^ (d.toNat.log2 + 1) := Nat.lt_log2_self
  have hpos : 0 < 2 ^ (31 - d.toNat.log2) := Nat.two_pow_pos _
  have hlow : 2 ^ 31 ≤ d.toNat * 2 ^ (31 - d.toNat.log2) := by
    calc 2 ^ 31 = 2 ^ d.toNat.log2 * 2 ^ (31 - d.toNat.log2) := by
          rw [← Nat.pow_add, Nat.add_sub_cancel' (by omega)]
      _ ≤ d.toNat * 2 ^ (31 - d.toNat.log2) := Nat.mul_le_mul_right _ hself
  have hhigh : d.toNat * 2 ^ (31 - d.toNat.log2) < 2 ^ 32 := by
    calc d.toNat * 2 ^ (31 - d.toNat.log2)
        < 2 ^ (d.toNat.log2 + 1) * 2 ^ (31 - d.toNat.log2) := Nat.mul_lt_mul_of_pos_right hnext hpos
      _ = 2 ^ 32 := by
          rw [← Nat.pow_add]
          congr 1
          omega
  refine ⟨31 - d.toNat.log2, by omega, ?_⟩
  rw [BitVec.toNat_shiftLeft, Nat.shiftLeft_eq, Nat.mod_eq_of_lt hhigh]
  omega

/-- Quotient and remainder are right, they make up the dividend, and no shift amount reaches the
width of the shifted type. -/
structure DivisionRight (overlong : BitVec 32 → Nat → BitVec 32) (n : Word) (d : BitVec 32) :
    Prop where
  quotient : (udivdi3 overlong n d).1.toNat = n.toNat / d.toNat
  remainder : (umoddi3 overlong n d).1.toNat = n.toNat % d.toNat
  whole : n.toNat = (udivdi3 overlong n d).1.toNat * d.toNat + (umoddi3 overlong n d).1.toNat
  quotientShifts : ShiftsInWidth (udivdi3 overlong n d).2
  remainderShifts : ShiftsInWidth (umoddi3 overlong n d).2

/-- **The division is right, shifts included, exactly if some shifted divisor is above the
dividend** in the 32 bits of the divisor. -/
theorem divisionRight_iff (overlong : BitVec 32 → Nat → BitVec 32) (n : Word) (d : BitVec 32)
    (hd : d ≠ 0) :
    DivisionRight overlong n d ↔ ∃ k < 32, n.toNat < (d <<< k).toNat := by
  obtain ⟨last, hends, hq, hr, hqShifts, hrShifts⟩ := division_spec overlong n hd
  rw [← hends.last_lt_iff]
  constructor
  · exact fun h => hqShifts.mp h.quotientShifts
  · intro hlast
    obtain ⟨k, hk, habove⟩ := hends.last_lt_iff.mp hlast
    have hfits : n.toNat < d.toNat * 2 ^ 32 := by
      have hlt := habove.trans (d <<< k).isLt
      have hpos := toNat_pos hd
      omega
    exact ⟨(udivdi3_eq_iff overlong n hd).mpr hfits, (umoddi3_eq_iff overlong n hd).mpr hfits,
      (udivdi3_mul_add_umoddi3 overlong n hd).symm, hqShifts.mpr hlast, hrShifts.mpr hlast⟩

/-- A shift of the processor takes the amount modulo `32`. -/
def maskedShl (d : BitVec 32) (amount : Nat) : BitVec 32 := d <<< (amount % 32)

/-- A hundred by seven. -/
theorem divisionRight_iff_hundred :
    DivisionRight maskedShl 100 7 ↔
      ∃ k < 32, (100 : Word).toNat < ((7 : BitVec 32) <<< k).toNat :=
  divisionRight_iff maskedShl 100 7 (by decide)

/-- `2 ^ 32` by one: the quotient is one too small, and 32 bits are shifted by `32`. -/
theorem udivdi3_cut :
    (udivdi3 maskedShl 0x100000000 1).1.toNat = 0xFFFFFFFF ∧
      (umoddi3 maskedShl 0x100000000 1).1.toNat = 1 ∧
      ¬ ShiftsInWidth (udivdi3 maskedShl 0x100000000 1).2 ∧
      ¬ DivisionRight maskedShl 0x100000000 1 := by
  have hd : (1 : BitVec 32) ≠ 0 := by decide
  have hq := udivdi3_of_le maskedShl 0x100000000 hd (by decide)
  have hwhole := udivdi3_mul_add_umoddi3 maskedShl 0x100000000 hd
  rw [hq] at hwhole
  obtain ⟨last, hends, -, -, hshifts, -⟩ := division_spec maskedShl 0x100000000 hd
  have hwide : ¬ ShiftsInWidth (udivdi3 maskedShl 0x100000000 1).2 := by
    rw [hshifts, hends.last_lt_iff]
    rintro ⟨k, -, habove⟩
    have hlt := ((1 : BitVec 32) <<< k).isLt
    rw [show (0x100000000 : Word).toNat = 2 ^ 32 from rfl] at habove
    omega
  refine ⟨hq, ?_, hwide, fun h => hwide h.quotientShifts⟩
  rw [show (0x100000000 : Word).toNat = 2 ^ 32 from rfl,
    show (1 : BitVec 32).toNat = 1 from rfl] at hwhole
  omega

end AncoreOS.Tools
