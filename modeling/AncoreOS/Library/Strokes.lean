import Mathlib.Logic.Function.Basic
import Mathlib.Data.Set.Lattice
import Mathlib.Tactic

/-!
# Loops that draw through a moving pointer

A memory of words, and loops that store at a pointer and move it by a stride.  What they store is
compared with a picture `v`, the memory as it should be: `Paints S v m m'` says that the words of `S`
are those of `v` afterwards and the others are as before.  So nothing has to be said of the order of
the stores, and a loop paints what its rounds paint (`paints_rounds`).

`Stroke` adds where the pointer starts and ends, and goes through nested loops (`Stroke.rounds`).
-/

namespace Strokes

variable {α σ : Type*} {v m m' m'' : Int → α} {S T : Set Int}

/-- A counting loop. -/
def rounds (f : Nat → σ → σ) (s : σ) : Nat → σ
  | 0 => s
  | n + 1 => f n (rounds f s n)

/-! ### What a loop paints -/

/-- The words of `S` become those of `v`, and the others stay. -/
def Paints (S : Set Int) (v m m' : Int → α) : Prop :=
  (∀ a ∈ S, m' a = v a) ∧ ∀ a ∉ S, m' a = m a

theorem Paints.refl : Paints ∅ v m m :=
  ⟨fun _ h => h.elim, fun _ _ => rfl⟩

theorem Paints.trans (h : Paints S v m m') (h' : Paints T v m' m'') : Paints (S ∪ T) v m m'' := by
  constructor
  · intro a ha
    by_cases hT : a ∈ T
    · exact h'.1 a hT
    · rw [h'.2 a hT]
      exact h.1 a (ha.resolve_right hT)
  · intro a ha
    rw [h'.2 a fun hT => ha (.inr hT), h.2 a fun hS => ha (.inl hS)]

theorem Paints.congr (h : Paints S v m m') (hST : S = T) : Paints T v m m' := hST ▸ h

theorem paints_update {p : Int} {c : α} (hc : c = v p) : Paints {p} v m (Function.update m p c) := by
  subst hc
  constructor
  · rintro a rfl
    exact Function.update_self ..
  · intro a ha
    exact Function.update_of_ne ha ..

/-- A loop paints what its rounds paint. -/
theorem paints_rounds {f : Nat → (Int → α) → (Int → α)} {S : Nat → Set Int} {n : Nat}
    (h : ∀ k < n, ∀ m, Paints (S k) v m (f k m)) : Paints (⋃ k < n, S k) v m (rounds f m n) := by
  induction n with
  | zero => exact Paints.refl.congr (by simp)
  | succ n ih =>
    have hprev := ih fun k hk => h k (Nat.lt_succ_of_lt hk)
    exact (hprev.trans (h n (Nat.lt_succ_self n) _)).congr (Set.biUnion_lt_succ S n).symm

/-! ### Pointers -/

/-- Store a word at the pointer, and move the pointer. -/
def put (stride : Int) (c : α) (s : Int × (Int → α)) : Int × (Int → α) :=
  (s.1 + stride, Function.update s.2 s.1 c)

/-- From `p`, the pointer ends at `q`, and the words of `S` are painted. -/
def Stroke (v : Int → α) (f : Int × (Int → α) → Int × (Int → α)) (p q : Int) (S : Set Int) : Prop :=
  ∀ m, (f (p, m)).1 = q ∧ Paints S v m (f (p, m)).2

theorem stroke_put (stride : Int) {p : Int} {c : α} (hc : c = v p) :
    Stroke v (put stride c) p (p + stride) {p} :=
  fun _ => ⟨rfl, paints_update hc⟩

/-- A loop whose round moves the pointer by `stride`. -/
theorem Stroke.rounds {f : Nat → Int × (Int → α) → Int × (Int → α)} {S : Nat → Set Int} {p : Int}
    {n : Nat} (stride : Int) (h : ∀ k < n, Stroke v (f k) (p + k * stride) (p + (k + 1 : Nat) * stride) (S k)) :
    Stroke v (fun s => rounds f s n) p (p + n * stride) (⋃ k < n, S k) := by
  induction n with
  | zero => exact fun m => ⟨by simp [Strokes.rounds], Paints.refl.congr (by simp)⟩
  | succ n ih =>
    intro m
    obtain ⟨hp, hprev⟩ := ih (fun k hk => h k (Nat.lt_succ_of_lt hk)) m
    have hround := h n (Nat.lt_succ_self n) (Strokes.rounds f (p, m) n).2
    have hs : (p + n * stride, (Strokes.rounds f (p, m) n).2) = Strokes.rounds f (p, m) n :=
      Prod.ext hp.symm rfl
    rw [hs] at hround
    exact ⟨hround.1, (hprev.trans hround.2).congr (Set.biUnion_lt_succ S n).symm⟩

/-- A line that is drawn from `p`, and then the pointer moved from `p` to the next line. -/
theorem Stroke.line {f : Int × (Int → α) → Int × (Int → α)} {p q : Int} (h : Stroke v f p q S) (stride : Int) :
    Stroke v (fun s => (s.1 + stride, (f s).2)) p (p + stride) S :=
  fun m => ⟨rfl, (h m).2⟩

end Strokes
