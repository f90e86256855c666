import Mathlib.Data.List.Basic
import Mathlib.Data.Set.Insert
import Mathlib.Order.Bounds.Basic
import Mathlib.Tactic.Common

/-!
# Records one after the other

A buffer of records that carry their own length: `len i` is the length that a record at offset
`i` gives.  A walk starts at an offset, goes on by the length that it finds, and ends at `last`,
or at a record that is shorter than `least`.  `offsets` are the places it comes by.

They go up, each record ends where the next one begins or before (`pairwise_offsets`), so a
record that is not the last one is complete (`complete_of_mem`).  For a property of records, the
last record that has it is the greatest one (`latest_concat`).
-/

namespace Records

section Offsets

variable (len : Nat → Nat) (least last : Nat)

/-- The offsets of a walk, for a number of rounds. -/
def offsets : Nat → Nat → List Nat
  | 0, _ => []
  | n + 1, i => if last ≤ i ∨ len i < least then [] else i :: offsets n (i + len i)

variable {len least last}

theorem offsets_of_stop {i : Nat} (h : last ≤ i ∨ len i < least) (n : Nat) :
    offsets len least last n i = [] := by
  cases n with
  | zero => rfl
  | succ n => exact if_pos h

theorem offsets_succ {i : Nat} (h : ¬(last ≤ i ∨ len i < least)) (n : Nat) :
    offsets len least last (n + 1) i = i :: offsets len least last n (i + len i) :=
  if_neg h

/-- Every record begins inside the buffer and is long enough. -/
theorem mem_offsets {n i o : Nat} (h : o ∈ offsets len least last n i) :
    i ≤ o ∧ o < last ∧ least ≤ len o := by
  induction n generalizing i with
  | zero => exact absurd h List.not_mem_nil
  | succ n ih =>
    by_cases hstop : last ≤ i ∨ len i < least
    · rw [offsets_of_stop hstop] at h
      exact absurd h List.not_mem_nil
    · rw [offsets_succ hstop] at h
      obtain ⟨hlast, hleast⟩ := not_or.mp hstop
      obtain rfl | h := List.mem_cons.mp h
      · exact ⟨le_rfl, not_le.mp hlast, not_lt.mp hleast⟩
      · obtain ⟨hi, ho⟩ := ih h
        exact ⟨le_trans (Nat.le_add_right i _) hi, ho⟩

/-- Each record ends before the next one begins. -/
theorem pairwise_offsets (n i : Nat) :
    (offsets len least last n i).Pairwise fun o o' => o + len o ≤ o' := by
  induction n generalizing i with
  | zero => exact List.Pairwise.nil
  | succ n ih =>
    by_cases hstop : last ≤ i ∨ len i < least
    · rw [offsets_of_stop hstop]
      exact List.Pairwise.nil
    · rw [offsets_succ hstop]
      exact List.pairwise_cons.mpr ⟨fun o ho => (mem_offsets ho).1, ih _⟩

theorem pairwise_lt_offsets (hleast : 0 < least) (n i : Nat) :
    (offsets len least last n i).Pairwise (· < ·) := by
  refine (pairwise_offsets n i).imp_of_mem fun {o o'} ho _ hend => ?_
  have hlen := (mem_offsets ho).2.2
  omega

/-- A record with another one after it is complete. -/
theorem complete_of_mem (hleast : 0 < least) {n i o o' : Nat}
    (ho : o ∈ offsets len least last n i) (ho' : o' ∈ offsets len least last n i) (hlt : o < o') :
    o + len o ≤ o' := by
  have hends : (offsets len least last n i).Pairwise fun o o' => o + len o ≤ o' ∧ o < o' :=
    (pairwise_offsets n i).and (pairwise_lt_offsets hleast n i)
  obtain ⟨before, after, hsplit⟩ := List.append_of_mem ho
  rw [hsplit] at hends ho'
  obtain ⟨-, hafter, hbefore⟩ := List.pairwise_append.mp hends
  obtain hmem | rfl | hmem := (List.mem_append.trans (or_congr_right List.mem_cons)).mp ho'
  · have hgt := (hbefore o' hmem o List.mem_cons_self).2
    omega
  · exact absurd hlt (lt_irrefl _)
  · exact ((List.pairwise_cons.mp hafter).1 o' hmem).1

end Offsets

/-! ### The last record with a property -/

section Last

variable {recs : List Nat} {P : Nat → Prop} {n j : Nat}

theorem isGreatest_concat_of (hrecs : ∀ o ∈ recs, o < n) (hn : P n) :
    IsGreatest {o | o ∈ recs ++ [n] ∧ P o} j ↔ j = n := by
  have hgreatest : IsGreatest {o | o ∈ recs ++ [n] ∧ P o} n := by
    refine ⟨⟨List.mem_concat_self, hn⟩, fun o ho => ?_⟩
    obtain ho | ho := List.mem_append.mp ho.1
    · exact (hrecs o ho).le
    · exact (List.mem_singleton.mp ho).le
  exact ⟨fun h => h.unique hgreatest, fun h => h ▸ hgreatest⟩

theorem isGreatest_concat_of_not (hn : ¬P n) :
    IsGreatest {o | o ∈ recs ++ [n] ∧ P o} j ↔ IsGreatest {o | o ∈ recs ∧ P o} j := by
  have hset : {o | o ∈ recs ++ [n] ∧ P o} = {o | o ∈ recs ∧ P o} := by
    ext o
    refine and_congr_left fun ho => ?_
    rw [List.mem_append, List.mem_singleton, or_iff_left]
    rintro rfl
    exact hn ho
  rw [hset]

/-- A loop that keeps the last record with a property, step by step. -/
theorem latest_concat {c : Prop} [Decidable c] {x : Option Nat} (hrecs : ∀ o ∈ recs, o < n)
    (hc : c ↔ P n) (hx : x = some j ↔ IsGreatest {o | o ∈ recs ∧ P o} j) :
    (if c then some n else x) = some j ↔ IsGreatest {o | o ∈ recs ++ [n] ∧ P o} j := by
  by_cases hn : P n
  · rw [if_pos (hc.mpr hn), isGreatest_concat_of hrecs hn, Option.some_inj, eq_comm]
  · rw [if_neg (mt hc.mp hn), isGreatest_concat_of_not hn, hx]

end Last

end Records
