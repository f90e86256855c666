import AncoreOS.Library.Munch
import Mathlib.Logic.Relation
import Mathlib.Tactic

/-!
# Cursors

A cursor stands at an offset of an input that has no end, and reads the letter there.  What it
does next depends on its state and on the letter: it stops, or it goes to a new state and moves
on by one letter or not at all.

It stays inside the first `n` offsets and the terminator behind them (`Bounded`) if that holds
from some state on its way (`Bounded.of_reach`).  For a cursor that has a state for the letters
of a text and reads escapes from there, this comes to the text being complete
(`bounded_of_complete`).  If it also reads a terminator as the last letter of an escape, a text
that is cut off leads it past the end (`not_bounded_of_truncated`, `bounded_iff_complete`).
-/

namespace Cursor

open Munch Relation

variable {Q α : Type*}

/-- What a cursor does: the next state, and whether it moves on. -/
abbrev Control (Q α : Type*) := Q → α → Option (Q × Bool)

/-- One read. -/
def Step (δ : Control Q α) (input : Nat → α) (x y : Q × Nat) : Prop :=
  ∃ q move, δ x.1 (input x.2) = some (q, move) ∧ y = (q, if move then x.2 + 1 else x.2)

abbrev Reach (δ : Control Q α) (input : Nat → α) : Q × Nat → Q × Nat → Prop :=
  ReflTransGen (Step δ input)

/-- No offset behind `n` is read. -/
def Bounded (δ : Control Q α) (input : Nat → α) (n : Nat) (x : Q × Nat) : Prop :=
  ∀ y, Reach δ input x y → y.2 ≤ n

/-- A list of letters at an offset. -/
def StandsAt (input : Nat → α) (i : Nat) (l : List α) : Prop :=
  ∀ k, (hk : k < l.length) → input (i + k) = l[k]

variable {δ : Control Q α} {input : Nat → α} {x y : Q × Nat} {n i : Nat} {q : Q} {l l' : List α}

theorem StandsAt.head {a : α} (h : StandsAt input i (a :: l)) : input i = a := h 0 (by simp)

theorem StandsAt.tail {a : α} (h : StandsAt input i (a :: l)) : StandsAt input (i + 1) l := by
  intro k hk
  rw [show i + 1 + k = i + (k + 1) by omega, h (k + 1) (by simpa using hk),
    List.getElem_cons_succ]

theorem StandsAt.left (h : StandsAt input i (l ++ l')) : StandsAt input i l := by
  intro k hk
  rw [h k (by rw [List.length_append]; omega), List.getElem_append_left]

theorem StandsAt.right (h : StandsAt input i (l ++ l')) : StandsAt input (i + l.length) l' := by
  intro k hk
  rw [Nat.add_assoc, h (l.length + k) (by rw [List.length_append]; omega),
    List.getElem_append_right (by omega)]
  simp

/-! ### Moving -/

theorem Reach.move {q' : Q} (h : δ q (input i) = some (q', true)) :
    Reach δ input (q, i) (q', i + 1) :=
  .single ⟨q', true, h, rfl⟩

theorem Reach.stay {q' : Q} (h : δ q (input i) = some (q', false)) :
    Reach δ input (q, i) (q', i) :=
  .single ⟨q', false, h, rfl⟩

/-- A state that goes on through letters of some kind. -/
theorem Reach.through {P : α → Prop} (hq : ∀ a, P a → δ q a = some (q, true))
    (hl : ∀ a ∈ l, P a) (hstands : StandsAt input i l) :
    Reach δ input (q, i) (q, i + l.length) := by
  induction l generalizing i with
  | nil => exact .refl
  | cons a l ih =>
    have hfirst : δ q (input i) = some (q, true) := by
      rw [hstands.head]
      exact hq a (hl a List.mem_cons_self)
    have hrest := ih (fun b hb => hl b (List.mem_cons_of_mem a hb)) hstands.tail
    rw [List.length_cons, Nat.add_comm l.length, ← Nat.add_assoc]
    exact (Reach.move hfirst).trans hrest

/-! ### Bounds -/

theorem Bounded.of_reach (hy : Bounded δ input n y) (h : Reach δ input x y) :
    Bounded δ input n x := by
  induction h using ReflTransGen.head_induction_on with
  | refl => exact hy
  | head hstep _ ih =>
    rename_i a c
    obtain ⟨q, move, hδ, rfl⟩ := hstep
    have hc := ih _ .refl
    intro z hz
    rcases hz.cases_head with rfl | ⟨w, ⟨q', move', hδ', rfl⟩, hz⟩
    · refine le_trans ?_ hc
      split <;> simp
    · rw [hδ] at hδ'
      obtain ⟨rfl, rfl⟩ := Prod.mk.inj (Option.some.inj hδ')
      exact ih z hz

theorem bounded_of_stop (h : δ q (input n) = none) : Bounded δ input n (q, n) := by
  intro y hy
  rcases hy.cases_head with rfl | ⟨w, ⟨q', move, hδ, _⟩, _⟩
  · exact le_rfl
  · rw [h] at hδ
    exact absurd hδ (Option.some_ne_none _).symm

section Complete

variable {loop : Q} {esc nul : α} {W : List α → Prop}

/-- An escape that is read from the state `loop`, which is the state behind it. -/
def ReadsEscape (δ : Control Q α) (loop : Q) (esc : α) (m : List α) (a : α) : Prop :=
  ∀ input i, StandsAt input i (esc :: (m ++ [a])) →
    Reach δ input (loop, i) (loop, i + (m.length + 2))

/-- A complete text is read to its end. -/
theorem reach_of_complete (hletter : ∀ a, a ≠ esc → a ≠ nul → δ loop a = some (loop, true))
    (hescape : ∀ m a, W m → ¬ W (m ++ [a]) → a ≠ nul → ReadsEscape δ loop esc m a)
    (h : Complete esc W l) (hnul : nul ∉ l) (hstands : StandsAt input i l) :
    Reach δ input (loop, i) (loop, i + l.length) := by
  induction h generalizing i with
  | nil => exact .refl
  | @letter a l ha hl ih =>
    rw [List.mem_cons, not_or] at hnul
    have hfirst : δ loop (input i) = some (loop, true) := by
      rw [hstands.head]
      exact hletter a ha (Ne.symm hnul.1)
    have hrest := ih hnul.2 hstands.tail
    rw [List.length_cons, Nat.add_comm l.length, ← Nat.add_assoc]
    exact (Reach.move hfirst).trans hrest
  | @escape m a l hm ha hl ih =>
    simp only [List.mem_cons, List.mem_append, not_or] at hnul
    have hword : esc :: (m ++ a :: l) = (esc :: (m ++ [a])) ++ l := by simp
    have hlength : (esc :: (m ++ [a])).length = m.length + 2 := by simp
    rw [hword] at hstands ⊢
    have hfirst := hescape m a hm ha (Ne.symm hnul.2.2.1) input i hstands.left
    have hrest := ih hnul.2.2.2 hstands.right
    rw [List.length_append, ← Nat.add_assoc]
    rw [hlength] at hrest ⊢
    exact hfirst.trans hrest

theorem bounded_of_complete (hstop : δ loop nul = none)
    (hletter : ∀ a, a ≠ esc → a ≠ nul → δ loop a = some (loop, true))
    (hescape : ∀ m a, W m → ¬ W (m ++ [a]) → a ≠ nul → ReadsEscape δ loop esc m a)
    (h : Complete esc W l) (hnul : nul ∉ l) (hstands : StandsAt input 0 (l ++ [nul])) :
    Bounded δ input l.length (loop, 0) := by
  have hend : input l.length = nul := by
    have h := hstands.right.head
    rwa [Nat.zero_add] at h
  have hreach := reach_of_complete hletter hescape h hnul hstands.left
  rw [Nat.zero_add] at hreach
  exact (bounded_of_stop (by rw [hend]; exact hstop)).of_reach hreach

/-- An escape that has the terminator for its last letter leads past the end. -/
theorem not_bounded_of_truncated (hletter : ∀ a, a ≠ esc → a ≠ nul → δ loop a = some (loop, true))
    (hescape : ∀ m a, W m → ¬ W (m ++ [a]) → a ≠ nul → ReadsEscape δ loop esc m a) {m : List α}
    (h : Complete esc W l) (hnul : nul ∉ l) (hlast : ReadsEscape δ loop esc m nul)
    (hstands : StandsAt input 0 (l ++ esc :: m ++ [nul])) :
    ¬ Bounded δ input (l ++ esc :: m).length (loop, 0) := by
  intro hbounded
  rw [List.append_assoc, List.cons_append] at hstands
  have hreach := reach_of_complete hletter hescape h hnul hstands.left
  have hpast := hreach.trans (hlast input _ hstands.right)
  have hle := hbounded _ hpast
  simp only [List.length_append, List.length_cons] at hle
  omega

/-- A cursor that reads every letter as the last one of an escape. -/
theorem bounded_iff_complete (hstop : δ loop nul = none)
    (hletter : ∀ a, a ≠ esc → a ≠ nul → δ loop a = some (loop, true))
    (hescape : ∀ m a, W m → ¬ W (m ++ [a]) → ReadsEscape δ loop esc m a) (hnil : W [])
    (hword : ∀ m, ¬ W (m ++ [nul])) (hnul : nul ∉ l) (hstands : StandsAt input 0 (l ++ [nul])) :
    Bounded δ input l.length (loop, 0) ↔ Complete esc W l := by
  have hescape' : ∀ m a, W m → ¬ W (m ++ [a]) → a ≠ nul → ReadsEscape δ loop esc m a :=
    fun m a hm hmax _ => hescape m a hm hmax
  refine ⟨fun hbounded => ?_, fun h => bounded_of_complete hstop hletter hescape' h hnul hstands⟩
  obtain h | ⟨l', m, hl', hm, rfl⟩ := complete_or_truncated esc hnil l
  · exact h
  · have hnul' : nul ∉ l' := fun h => hnul (List.mem_append_left _ h)
    exact absurd hbounded (not_bounded_of_truncated hletter hescape' hl' hnul'
      (hescape m nul hm (hword m)) hstands)

end Complete

end Cursor
