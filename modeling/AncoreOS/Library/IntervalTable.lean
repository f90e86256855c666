import Mathlib.Data.List.Chain
import Mathlib.Tactic

/-!
# Search in a table of intervals

The binary search for the interval of a value, in a table whose intervals are in order and apart
(`Sorted`).  `search_iff`: it finds a value exactly if one of the intervals holds it.
-/

namespace IntervalTable

variable {α : Type*} [LinearOrder α]

/-- The first `n` intervals are in order and apart. -/
def Sorted (table : Nat → α × α) (n : Nat) : Prop :=
  ∀ j < n, (table j).1 ≤ (table j).2 ∧ ∀ i < j, (table i).2 < (table j).1

/-- The value lies in an interval. -/
def Holds (table : Nat → α × α) (v : α) (i : Nat) : Prop := (table i).1 ≤ v ∧ v ≤ (table i).2

/-- The binary search between two places. -/
def search (table : Nat → α × α) (v : α) (min max : Int) : Bool :=
  if max ≥ min then
    let mid := (min + max) / 2
    if v > (table mid.toNat).2 then search table v (mid + 1) max
    else if v < (table mid.toNat).1 then search table v min (mid - 1)
    else true
  else false
termination_by (max + 1 - min).toNat
decreasing_by all_goals omega

/-- It is enough that neighbours are apart. -/
theorem sorted_of_neighbours {table : Nat → α × α} {n : Nat} (hle : ∀ j < n, (table j).1 ≤ (table j).2)
    (hlt : ∀ j, j + 1 < n → (table j).2 < (table (j + 1)).1) : Sorted table n := by
  intro j
  induction j with
  | zero => exact fun hj => ⟨hle 0 hj, fun i hi => absurd hi (Nat.not_lt_zero i)⟩
  | succ j ih =>
    intro hj
    refine ⟨hle (j + 1) hj, fun i hi => ?_⟩
    obtain ⟨hj', hbefore⟩ := ih (by omega)
    rcases Nat.lt_or_eq_of_le (Nat.le_of_lt_succ hi) with hlt' | rfl
    · exact ((hbefore i hlt').trans_le hj').trans (hlt j hj)
    · exact hlt i hj

/-- A value before the first interval or behind the last one is in none. -/
theorem Sorted.not_holds {table : Nat → α × α} {n : Nat} (h : Sorted table (n + 1)) {v : α}
    (hout : v < (table 0).1 ∨ v > (table n).2) {i : Nat} (hi : i ≤ n) : ¬Holds table v i := by
  rintro ⟨hfirst, hlast⟩
  rcases hout with hlt | hgt
  · rcases Nat.eq_zero_or_pos i with rfl | hpos
    · exact absurd hfirst (not_le_of_gt hlt)
    · have hzero := (h i (by omega)).2 0 hpos
      exact absurd (hfirst.trans_lt hlt) (not_lt_of_gt ((h 0 (by omega)).1.trans_lt hzero))
  · rcases Nat.lt_or_eq_of_le hi with hlt | rfl
    · obtain ⟨hn, hbefore⟩ := h n (by omega)
      exact absurd (hlast.trans_lt ((hbefore i hlt).trans_le hn)) (not_lt_of_gt hgt)
    · exact absurd hlast (not_le_of_gt hgt)

/-- Between the two places, the search finds the interval of the value. -/
theorem search_iff {table : Nat → α × α} {n : Nat} (h : Sorted table n) (v : α) (min max : Int)
    (hmin : 0 ≤ min) (hmax : max < n) :
    search table v min max = true ↔ ∃ i : Nat, min ≤ i ∧ i ≤ max ∧ Holds table v i := by
  induction min, max using search.induct table v with
  | case1 min max hle mid hgt ih =>
    rw [search, if_pos hle, if_pos hgt, ih (by omega) hmax]
    -- an interval up to the middle ends before the value
    refine ⟨fun ⟨i, hi, hi', hv⟩ => ⟨i, by omega, hi', hv⟩, fun ⟨i, hi, hi', hv⟩ => ⟨i, ?_, hi', hv⟩⟩
    by_contra hnot
    have hmid := h mid.toNat (by omega)
    rcases Nat.lt_or_eq_of_le (show i ≤ mid.toNat by omega) with hlt | rfl
    · exact absurd (hv.2.trans_lt ((hmid.2 i hlt).trans_le hmid.1)) (not_lt_of_gt hgt)
    · exact absurd hv.2 (not_le_of_gt hgt)
  | case2 min max hle mid hgt hlt ih =>
    rw [search, if_pos hle, if_neg hgt, if_pos hlt, ih hmin (by omega)]
    -- an interval from the middle on starts behind the value
    refine ⟨fun ⟨i, hi, hi', hv⟩ => ⟨i, hi, by omega, hv⟩, fun ⟨i, hi, hi', hv⟩ => ⟨i, hi, ?_, hv⟩⟩
    by_contra hnot
    have hmid := h mid.toNat (by omega)
    rcases Nat.lt_or_eq_of_le (show mid.toNat ≤ i by omega) with hlt' | rfl
    · have hi := (h i (by omega)).2 mid.toNat hlt'
      exact absurd (hv.1.trans_lt hlt) (not_lt_of_gt (hmid.1.trans_lt hi))
    · exact absurd hv.1 (not_le_of_gt hlt)
  | case3 min max hle mid hgt hlt =>
    rw [search, if_pos hle, if_neg hgt, if_neg hlt]
    exact ⟨fun _ => ⟨mid.toNat, by omega, by omega, not_lt.mp hlt, not_lt.mp hgt⟩, fun _ => rfl⟩
  | case4 min max hle =>
    rw [search, if_neg hle]
    exact ⟨fun h => absurd h Bool.false_ne_true, fun ⟨i, hi, hi', _⟩ => absurd (hi.trans hi') (by omega)⟩

end IntervalTable
