import Mathlib.Data.List.Basic
import Mathlib.Data.List.Infix

/-!
# What holds after every step of a run

A run is a fold of a step function over a list of inputs.  When one knows of each step exactly
when it keeps a property (`Keeps`), the property holds after every step of a run if and only if
every step of it is one that keeps it.  A second property, which no step can break, may be used
for the first one.
-/

namespace Prefixes

variable {σ β : Type*} {step : σ → β → σ} {P Always : σ → Prop} {Keeps : σ → β → Prop}

/-- What no step breaks holds after every run. -/
theorem foldl_always (halways : ∀ s b, Always s → Always (step s b)) :
    ∀ (bs : List β) (s : σ), Always s → Always (bs.foldl step s) := by
  intro bs
  induction bs with
  | nil => exact fun _ h => h
  | cons b bs ih => exact fun s h => ih _ (halways s b h)

/-- **The property holds after every step exactly if every step keeps it.** -/
theorem forall_prefix_iff (step : σ → β → σ) (P Always : σ → Prop) (Keeps : σ → β → Prop) {s : σ}
    (hs : P s) (hsa : Always s) (halways : ∀ s b, Always s → Always (step s b))
    (hstep : ∀ s b, Always s → P s → (P (step s b) ↔ Keeps s b)) (bs : List β) :
    (∀ bs', bs' <+: bs → P (bs'.foldl step s)) ↔
      ∀ bs' b, bs' ++ [b] <+: bs → Keeps (bs'.foldl step s) b := by
  constructor
  · intro h bs' b hpre
    have hafter := h (bs' ++ [b]) hpre
    rw [List.foldl_append] at hafter
    have hbefore := h bs' ((List.prefix_append bs' [b]).trans hpre)
    exact (hstep _ b (foldl_always halways bs' s hsa) hbefore).mp hafter
  · intro h bs'
    induction bs' using List.reverseRecOn with
    | nil => exact fun _ => hs
    | append_singleton bs' b ih =>
      intro hpre
      have hbefore := ih ((List.prefix_append bs' [b]).trans hpre)
      rw [List.foldl_append]
      exact (hstep _ b (foldl_always halways bs' s hsa) hbefore).mpr (h bs' b hpre)

end Prefixes
