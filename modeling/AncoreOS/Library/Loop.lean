import Mathlib.Data.Nat.Basic

/-!
# Loops with a round limit

`whileFuel c f n s` runs `while (c s) s = f s` for at most `n` rounds and
returns `none` when the loop test still holds after them.  So a `some` is a
loop that left through its own test, and the limit is never observable in it.

`whileFuel_spec` is the rule for total correctness: an invariant together with
a measure that every round decreases gives a limit, and the state the loop
leaves satisfies the invariant and fails the test.  `whileFuel_none` is the rule
for a loop that does not end: an invariant under which the test holds.
-/

/-- `while (c s) s = f s`, at most `n` rounds. -/
def whileFuel {σ : Type*} (c : σ → Bool) (f : σ → σ) : Nat → σ → Option σ
  | 0, s => if c s then none else some s
  | n + 1, s => if c s then whileFuel c f n (f s) else some s

/-- **Total correctness of a while loop.** -/
theorem whileFuel_spec {σ : Type*} {c : σ → Bool} {f : σ → σ} (P : σ → Prop) (μ : σ → Nat)
    (hstep : ∀ s, P s → c s = true → P (f s) ∧ μ (f s) < μ s) :
    ∀ (n : Nat) (s : σ), P s → μ s ≤ n →
      ∃ s', whileFuel c f n s = some s' ∧ P s' ∧ c s' = false := by
  intro n
  induction n with
  | zero =>
    intro s hP hμ
    cases hc : c s with
    | false => exact ⟨s, by rw [whileFuel, hc]; rfl, hP, hc⟩
    | true => exact absurd (hstep s hP hc).2 (by omega)
  | succ n ih =>
    intro s hP hμ
    cases hc : c s with
    | false => exact ⟨s, by rw [whileFuel, hc]; rfl, hP, hc⟩
    | true =>
      obtain ⟨hP', hlt⟩ := hstep s hP hc
      obtain ⟨s', hrun, hs'⟩ := ih (f s) hP' (by omega)
      exact ⟨s', by rw [whileFuel, hc]; exact hrun, hs'⟩

/-- **A loop that never ends.** -/
theorem whileFuel_none {σ : Type*} {c : σ → Bool} {f : σ → σ} (P : σ → Prop)
    (hstep : ∀ s, P s → c s = true ∧ P (f s)) :
    ∀ (n : Nat) (s : σ), P s → whileFuel c f n s = none := by
  intro n
  induction n with
  | zero =>
    intro s hP
    rw [whileFuel, if_pos (hstep s hP).1]
  | succ n ih =>
    intro s hP
    rw [whileFuel, if_pos (hstep s hP).1]
    exact ih (f s) (hstep s hP).2
