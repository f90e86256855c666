import Mathlib.Data.List.Basic
import Mathlib.Tactic

/-!
# Escapes

A text has letters, and escapes: an escape character, a word of modifiers that is as long as
possible, and one more letter.  The modifiers are given by a predicate `W`, and a word is as long
as possible in front of `a` if `a` does not make it a longer one.

A text is `Complete` if no escape is cut off at its end.  Otherwise it is a complete text, an
escape character and a word of modifiers (`complete_or_truncated`).
-/

namespace Munch

variable {α : Type*}

/-- Letters, and escapes that go on to their last letter. -/
inductive Complete (esc : α) (W : List α → Prop) : List α → Prop
  | nil : Complete esc W []
  | letter {a : α} {l : List α} (ha : a ≠ esc) (hl : Complete esc W l) : Complete esc W (a :: l)
  | escape {m : List α} {a : α} {l : List α} (hm : W m) (ha : ¬ W (m ++ [a]))
      (hl : Complete esc W l) : Complete esc W (esc :: (m ++ a :: l))

variable {esc : α} {W : List α → Prop} {l l' m w : List α}

/-- The longest word at the front of a text, if it is not all of it. -/
theorem exists_longest (hw : W w) (l : List α) :
    W (w ++ l) ∨ ∃ m a rest, w ++ l = m ++ a :: rest ∧ W m ∧ ¬ W (m ++ [a]) := by
  induction l generalizing w with
  | nil => exact Or.inl (by rwa [List.append_nil])
  | cons a l ih =>
    by_cases ha : W (w ++ [a])
    · have h := ih ha
      rwa [List.append_assoc, List.singleton_append] at h
    · exact Or.inr ⟨w, a, l, rfl, hw, ha⟩

theorem complete_or_truncated (esc : α) (hnil : W []) (l : List α) :
    Complete esc W l ∨ ∃ l' m, Complete esc W l' ∧ W m ∧ l = l' ++ esc :: m := by
  induction hn : l.length using Nat.strong_induction_on generalizing l with
  | _ n ih =>
    cases l with
    | nil => exact Or.inl .nil
    | cons a l =>
      by_cases ha : a = esc
      · subst ha
        obtain hw | ⟨m, c, rest, rfl, hm, hc⟩ := exists_longest hnil l
        · exact Or.inr ⟨[], l, .nil, hw, rfl⟩
        · have hlt : rest.length < n := by
            rw [← hn]
            simp
            omega
          obtain hrest | ⟨l', m', hl', hm', rfl⟩ := ih _ hlt rest rfl
          · exact Or.inl (.escape hm hc hrest)
          · refine Or.inr ⟨a :: (m ++ c :: l'), m', .escape hm hc hl', hm', ?_⟩
            simp
      · have hlt : l.length < n := by
          rw [← hn]
          simp
        obtain hl | ⟨l', m, hl', hm, rfl⟩ := ih _ hlt l rfl
        · exact Or.inl (.letter ha hl)
        · exact Or.inr ⟨a :: l', m, .letter ha hl', hm, rfl⟩

end Munch
