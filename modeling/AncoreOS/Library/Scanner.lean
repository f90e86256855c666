import Mathlib.Algebra.Order.BigOperators.Group.List
import Mathlib.Algebra.Order.Group.Nat
import Mathlib.Data.List.Basic
import Mathlib.Tactic

/-!
# Scanners

A scanner reads its input from the left.  A step gets the first symbol, the rest of the input
and the state, and gives output, what is left of the input and the new state.

`Reads step w f` says that the scanner does `f` wherever `w` stands in front of it, and goes on
behind `w`.  So what a scanner does to an input is put together from what it does to the
words of it (`Reads.flatMap`, `Reads.scan_eq`), and the scanner itself can be forgotten.

What is left is a sequence of actions on the state.  `run_measure` counts what they take from
it.  When the state is a list and each action takes its own part off the front,
`run_of_takes` says what they give.
-/

namespace Scanner

variable {α β γ σ ι : Type*}

/-- One step of a scanner. -/
abbrev Step (α β σ : Type*) := α → List α → σ → Option (List β × List α × σ)

/-- What is done to the state, and the output of it. -/
abbrev Action (β σ : Type*) := σ → Option (List β × σ)

namespace Action

def skip : Action β σ := fun s => some ([], s)

/-- One action after another. -/
def seq (f g : Action β σ) : Action β σ :=
  fun s => (f s).bind fun r => (g r.2).map fun q => (r.1 ++ q.1, q.2)

theorem skip_seq (f : Action β σ) : skip.seq f = f := by
  funext s
  simp [skip, seq]

theorem seq_skip (f : Action β σ) : f.seq skip = f := by
  funext s
  cases hf : f s <;> simp [skip, seq, hf]

theorem seq_assoc (f g h : Action β σ) : (f.seq g).seq h = f.seq (g.seq h) := by
  funext s
  simp only [seq]
  cases f s with
  | none => rfl
  | some r =>
    simp only [Option.bind_some]
    cases g r.2 with
    | none => rfl
    | some q =>
      simp only [Option.map_some, Option.bind_some]
      cases h q.2 with
      | none => rfl
      | some t => simp [List.append_assoc]

theorem seq_eq_some {f g : Action β σ} {s s' : σ} {out : List β}
    (h : f.seq g s = some (out, s')) :
    ∃ o s₁ o', f s = some (o, s₁) ∧ g s₁ = some (o', s') ∧ out = o ++ o' := by
  obtain ⟨⟨o, s₁⟩, hf, h⟩ := Option.bind_eq_some_iff.mp h
  obtain ⟨⟨o', s₂⟩, hg, heq⟩ := Option.map_eq_some_iff.mp h
  obtain ⟨rfl, rfl⟩ := Prod.mk.inj heq
  exact ⟨o, s₁, o', hf, hg, rfl⟩

end Action

/-- The actions of the members of a list. -/
def run (f : ι → Action β σ) : List ι → Action β σ
  | [] => Action.skip
  | i :: l => (f i).seq (run f l)

/-- The scanner, for at most so many steps. -/
def scan (step : Step α β σ) : Nat → List α → Action β σ
  | _, [], s => some ([], s)
  | 0, _ :: _, _ => none
  | n + 1, a :: l, s =>
    (step a l s).bind fun r => (scan step n r.2.1 r.2.2).map fun q => (r.1 ++ q.1, q.2)

theorem scan_nil (step : Step α β σ) (n : Nat) : scan step n [] = Action.skip := by
  cases n <;> rfl

/-! ### Words -/

/-- Where `w` is in front, the scanner does `f` and goes on behind `w`. -/
def Reads (step : Step α β σ) (w : List α) (f : Action β σ) : Prop :=
  ∀ (rest : List α) (n : Nat), w.length + rest.length ≤ n →
    ∃ m, rest.length ≤ m ∧ scan step n (w ++ rest) = f.seq (scan step m rest)

variable {step : Step α β σ} {w w' : List α} {f f' : Action β σ}

theorem Reads.nil : Reads step [] Action.skip := by
  intro rest n hn
  refine ⟨n, by simpa using hn, ?_⟩
  rw [Action.skip_seq]
  rfl

theorem Reads.append (h : Reads step w f) (h' : Reads step w' f') :
    Reads step (w ++ w') (f.seq f') := by
  intro rest n hn
  rw [List.length_append] at hn
  obtain ⟨m, hm, hscan⟩ := h (w' ++ rest) n (by rw [List.length_append]; omega)
  obtain ⟨m', hm', hscan'⟩ := h' rest m (by rwa [List.length_append] at hm)
  refine ⟨m', hm', ?_⟩
  rw [List.append_assoc, hscan, hscan', Action.seq_assoc]

/-- A word that is read in one step. -/
theorem Reads.one {a : α}
    (h : ∀ rest s, step a (w ++ rest) s = (f s).map fun r => (r.1, rest, r.2)) :
    Reads step (a :: w) f := by
  intro rest n hn
  cases n with
  | zero =>
    rw [List.length_cons] at hn
    omega
  | succ n =>
    refine ⟨n, by rw [List.length_cons] at hn; omega, ?_⟩
    funext s
    show (step a (w ++ rest) s).bind _ = _
    rw [h, Action.seq]
    cases f s <;> rfl

/-- A word of letters that are copied. -/
theorem Reads.map {g : α → β} (h : ∀ a ∈ w, ∀ l s, step a l s = some ([g a], l, s)) :
    Reads step w fun s => some (w.map g, s) := by
  induction w with
  | nil => exact Reads.nil
  | cons a w ih =>
    have hfirst : Reads step [a] fun s => some ([g a], s) :=
      Reads.one fun rest s => h a List.mem_cons_self rest s
    exact hfirst.append (ih fun b hb => h b (List.mem_cons_of_mem a hb))

theorem Reads.flatMap {word : ι → List α} {f : ι → Action β σ} {l : List ι}
    (h : ∀ i ∈ l, Reads step (word i) (f i)) : Reads step (l.flatMap word) (run f l) := by
  induction l with
  | nil => exact Reads.nil
  | cons i l ih =>
    rw [List.flatMap_cons]
    exact (h i List.mem_cons_self).append (ih fun j hj => h j (List.mem_cons_of_mem i hj))

theorem Reads.scan_eq (h : Reads step w f) : scan step w.length w = f := by
  obtain ⟨m, _, hscan⟩ := h [] w.length (by simp)
  rw [List.append_nil] at hscan
  rw [hscan, scan_nil, Action.seq_skip]

/-! ### Actions -/

/-- What every action takes from the state adds up. -/
theorem run_measure {f : ι → Action β σ} {μ : σ → Nat} {k : ι → Nat}
    (hf : ∀ i s out s', f i s = some (out, s') → μ s = k i + μ s') :
    ∀ {l : List ι} {s s' : σ} {out : List β}, run f l s = some (out, s') →
      μ s = (l.map k).sum + μ s' := by
  intro l
  induction l with
  | nil =>
    intro s s' out h
    obtain ⟨_, rfl⟩ := Prod.mk.inj (Option.some.inj h)
    simp
  | cons i l ih =>
    intro s s' out h
    obtain ⟨o, s₁, o', hi, hl, _⟩ := Action.seq_eq_some h
    rw [hf i s o s₁ hi, ih hl, List.map_cons, List.sum_cons, Nat.add_assoc]

section Takes

variable {f : ι → Action β (List γ)} {part : ι → List γ} {o : ι → Option (List β)} {l : List ι}

/-- Actions that each take their own part off the front, all of which give something. -/
theorem run_of_takes {s : List γ} (ho : ∀ i ∈ l, (o i).isSome)
    (hf : ∀ i ∈ l, ∀ s, f i (part i ++ s) = (o i).map fun out => (out, s)) :
    run f l (l.flatMap part ++ s) = some (l.flatMap fun i => (o i).getD [], s) := by
  induction l with
  | nil => rfl
  | cons i l ih =>
    obtain ⟨out, hout⟩ := Option.isSome_iff_exists.mp (ho i List.mem_cons_self)
    have hl := ih (fun j hj => ho j (List.mem_cons_of_mem i hj))
      (fun j hj => hf j (List.mem_cons_of_mem i hj))
    rw [List.flatMap_cons, List.append_assoc, run, Action.seq, hf i List.mem_cons_self, hout]
    simp [hl, hout]

/-- The other way round: if there is a result, every one of them gave something. -/
theorem isSome_of_run {s : List γ} {r : List β × List γ}
    (hf : ∀ i ∈ l, ∀ s, f i (part i ++ s) = (o i).map fun out => (out, s))
    (h : run f l (l.flatMap part ++ s) = some r) : ∀ i ∈ l, (o i).isSome := by
  induction l generalizing r with
  | nil => simp
  | cons i l ih =>
    rw [List.flatMap_cons, List.append_assoc] at h
    have hseq : (f i).seq (run f l) (part i ++ (l.flatMap part ++ s)) = some (r.1, r.2) := h
    obtain ⟨out, s₁, out', hi, hl, _⟩ := Action.seq_eq_some hseq
    rw [hf i List.mem_cons_self] at hi
    obtain ⟨out, hout, heq⟩ := Option.map_eq_some_iff.mp hi
    obtain ⟨rfl, rfl⟩ := Prod.mk.inj heq
    intro j hj
    rcases List.mem_cons.mp hj with rfl | hj
    · rw [hout]
      rfl
    · exact ih (fun j hj => hf j (List.mem_cons_of_mem i hj)) hl j hj

end Takes

/-- Sums that are equal although no summand is greater are equal one by one. -/
theorem eq_of_sum_eq {f g : ι → Nat} {l : List ι} (hle : ∀ i ∈ l, f i ≤ g i)
    (hsum : (l.map f).sum = (l.map g).sum) : ∀ i ∈ l, f i = g i := by
  intro i hi
  by_contra hne
  have hlt : (l.map f).sum < (l.map g).sum :=
    List.sum_lt_sum f g hle ⟨i, hi, lt_of_le_of_ne (hle i hi) hne⟩
  omega

end Scanner
