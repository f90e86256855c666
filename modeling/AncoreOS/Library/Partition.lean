import Mathlib.Algebra.Order.Group.Int
import Mathlib.Data.Nat.Count
import Mathlib.Logic.Equiv.Basic
import Mathlib.Order.Antisymmetrization
import Mathlib.Tactic

/-!
# Scans from both ends

A window `[lo, hi]` of an array is scanned from both ends.  The scans look for an element that
is not below the pivot and one that is not above it, and the two are swapped, until the scans
meet (`Partition`).  The pivot is not a value but **a place** `m` of the array, so a swap may
move it, and then the scans go on with another value.

Arrays are functions on the integers, so that turning the array round (`i ↦ -i`) and the order
with it is a symmetry of the scans (`Partition.neg`).

The first result is about a pivot that is not moved (`exists_cut`): the scans end, what is on
the left is not above the pivot and what is on the right is not below it, and `Kept` says
which elements are on the left.
-/

namespace Quicksort

variable {α κ : Type*}

/-- A strict weak order is the order of a key. -/
theorem exists_key.{w} {α : Type w} {lt : α → α → Prop} (hasymm : ∀ x y, lt x y → ¬ lt y x)
    (htrans : ∀ x y z, ¬ lt y x → ¬ lt z y → ¬ lt z x) :
    ∃ (κ : Type w) (_ : LinearOrder κ) (key : α → κ), ∀ x y, lt x y ↔ key x < key y := by
  classical
  let order : Preorder α :=
    { le := fun x y => ¬ lt y x
      lt := lt
      le_refl := fun x h => hasymm x x h h
      le_trans := htrans
      lt_iff_le_not_ge := fun x y => ⟨fun h => ⟨hasymm x y h, not_not.mpr h⟩, fun h => not_not.mp h.2⟩ }
  have htotal : Std.Total (α := α) (· ≤ ·) :=
    ⟨fun x y => (em (lt y x)).elim (fun h => Or.inr (hasymm y x h)) Or.inl⟩
  exact ⟨Antisymmetrization α (· ≤ ·), inferInstance, toAntisymmetrization (· ≤ ·), fun x y =>
    (toAntisymmetrization_lt_toAntisymmetrization_iff (a := x) (b := y)).symm⟩

/-! ### Windows -/

/-- `b` is `a` with the elements of a window in another order. -/
def PermOn (lo hi : ℤ) (a b : ℤ → α) : Prop :=
  ∃ σ : Equiv.Perm ℤ, (∀ i, i < lo ∨ hi < i → σ i = i) ∧ b = a ∘ σ

namespace PermOn

variable {lo hi lo' hi' : ℤ} {a b c : ℤ → α}

theorem refl (lo hi : ℤ) (a : ℤ → α) : PermOn lo hi a a := ⟨1, fun _ _ => rfl, rfl⟩

theorem trans (h : PermOn lo hi a b) (h' : PermOn lo hi b c) : PermOn lo hi a c := by
  obtain ⟨σ, hσ, rfl⟩ := h
  obtain ⟨τ, hτ, rfl⟩ := h'
  refine ⟨σ * τ, fun i hi => ?_, rfl⟩
  rw [Equiv.Perm.mul_apply, hτ i hi, hσ i hi]

theorem mono (h : PermOn lo hi a b) (hlo : lo' ≤ lo) (hhi : hi ≤ hi') : PermOn lo' hi' a b := by
  obtain ⟨σ, hσ, rfl⟩ := h
  exact ⟨σ, fun i hi => hσ i (by omega), rfl⟩

theorem swap {i j : ℤ} (hi₁ : lo ≤ i) (hi₂ : i ≤ hi) (hj₁ : lo ≤ j) (hj₂ : j ≤ hi) :
    PermOn lo hi a (a ∘ Equiv.swap i j) :=
  ⟨Equiv.swap i j, fun _ _ => Equiv.swap_apply_of_ne_of_ne (by omega) (by omega), rfl⟩

theorem outside (h : PermOn lo hi a b) {i : ℤ} (hi : i < lo ∨ hi < i) : b i = a i := by
  obtain ⟨σ, hσ, rfl⟩ := h
  rw [Function.comp_apply, hσ i hi]

theorem symm (h : PermOn lo hi a b) : PermOn lo hi b a := by
  obtain ⟨σ, hσ, rfl⟩ := h
  refine ⟨σ⁻¹, fun i hi => ?_, ?_⟩
  · rw [Equiv.Perm.inv_eq_iff_eq, hσ i hi]
  · funext i
    simp

/-- An element of the new window comes from the old one. -/
theorem exists_eq (h : PermOn lo hi a b) {i : ℤ} (h₁ : lo ≤ i) (h₂ : i ≤ hi) :
    ∃ j, lo ≤ j ∧ j ≤ hi ∧ b i = a j := by
  obtain ⟨σ, hσ, rfl⟩ := h
  refine ⟨σ i, ?_, ?_, rfl⟩
  · by_contra hlt
    have hfix := hσ (σ i) (Or.inl (by omega))
    have := σ.injective hfix
    omega
  · by_contra hlt
    have hfix := hσ (σ i) (Or.inr (by omega))
    have := σ.injective hfix
    omega

/-- The elements of the window, one by one. -/
theorem perm_map {n : Nat} (h : PermOn 0 (n - 1) a b) :
    ((List.range n).map fun i : Nat => b i).Perm ((List.range n).map fun i : Nat => a i) := by
  have hmem : ∀ i : ℤ, i ∈ (List.range n).map (Nat.cast : ℕ → ℤ) ↔ 0 ≤ i ∧ i ≤ n - 1 := by
    intro i
    simp only [List.mem_map, List.mem_range]
    constructor
    · rintro ⟨k, hk, rfl⟩
      omega
    · rintro ⟨h₁, h₂⟩
      exact ⟨i.toNat, by omega, by omega⟩
  have hnodup : ((List.range n).map (Nat.cast : ℕ → ℤ)).Nodup :=
    List.nodup_range.map Nat.cast_injective
  obtain ⟨σ, hσ, rfl⟩ := h
  have hplaces : (((List.range n).map (Nat.cast : ℕ → ℤ)).map σ).Perm
      ((List.range n).map (Nat.cast : ℕ → ℤ)) := by
    rw [List.perm_ext_iff_of_nodup (hnodup.map σ.injective) hnodup]
    intro i
    rw [List.mem_map, hmem]
    constructor
    · rintro ⟨j, hj, rfl⟩
      rw [hmem] at hj
      by_contra hout
      have := σ.injective (hσ (σ j) (by omega))
      omega
    · intro hi
      refine ⟨σ.symm i, ?_, σ.apply_symm_apply i⟩
      rw [hmem]
      by_contra hout
      have hfix := hσ (σ.symm i) (by omega)
      rw [Equiv.apply_symm_apply] at hfix
      omega
  have hmap := hplaces.map a
  simpa [List.map_map, Function.comp_def] using hmap

end PermOn

/-- The number of elements of a window with a property. -/
def countOn (p : α → Prop) [DecidablePred p] (a : ℤ → α) (l r : ℤ) : ℕ :=
  Nat.count (fun k => p (a (l + k))) (r + 1 - l).toNat

section Count

variable {p : α → Prop} [DecidablePred p] {a b : ℤ → α} {l r t : ℤ}

theorem countOn_split (h₁ : l ≤ t) (h₂ : t ≤ r + 1) :
    countOn p a l r = countOn p a l (t - 1) + countOn p a t r := by
  obtain ⟨n, rfl⟩ : ∃ n : Nat, t = l + n := ⟨(t - l).toNat, by omega⟩
  obtain ⟨k, rfl⟩ : ∃ k : Nat, r = l + n + k - 1 := ⟨(r + 1 - (l + n)).toNat, by omega⟩
  unfold countOn
  rw [show (l + n + k - 1 + 1 - l).toNat = n + k by omega,
    show (l + n - 1 + 1 - l).toNat = n by omega,
    show (l + n + k - 1 + 1 - (l + n)).toNat = k by omega, Nat.count_add]
  simp only [Nat.cast_add, add_assoc]

theorem countOn_eq_zero_iff : countOn p a l r = 0 ↔ ∀ i, l ≤ i → i ≤ r → ¬ p (a i) := by
  unfold countOn
  rw [Nat.count_iff_forall_not]
  constructor
  · intro h i h₁ h₂
    have hi := h (i - l).toNat (by omega)
    rwa [show l + ((i - l).toNat : ℤ) = i by omega] at hi
  · intro h k hk
    exact h (l + k) (by omega) (by omega)

theorem countOn_eq_length (hle : l ≤ r + 1) (h : ∀ i, l ≤ i → i ≤ r → p (a i)) :
    (countOn p a l r : ℤ) = r + 1 - l := by
  unfold countOn
  rw [Nat.count_iff_forall.mpr fun k hk => h (l + k) (by omega) (by omega)]
  omega

theorem countOn_le (p : α → Prop) [DecidablePred p] (a : ℤ → α) (hle : l ≤ r + 1) :
    (countOn p a l r : ℤ) ≤ r + 1 - l := by
  have h := Nat.count_le (p := fun k : ℕ => p (a (l + k))) (n := (r + 1 - l).toNat)
  unfold countOn
  omega

theorem countOn_transfer {β : Type*} {p' : β → Prop} [DecidablePred p'] {b : ℤ → β} {s : ℤ}
    (h : ∀ i, l ≤ i → i ≤ r → (p (a i) ↔ p' (b (i + s)))) :
    countOn p a l r = countOn p' b (l + s) (r + s) := by
  have hiff : ∀ k < (r + 1 - l).toNat, (p (a (l + k)) ↔ p' (b (l + s + k))) := by
    intro k hk
    rw [h (l + k) (by omega) (by omega), show l + k + s = l + s + k by ring]
  unfold countOn
  rw [show r + s + 1 - (l + s) = r + 1 - l by ring]
  apply le_antisymm
  · exact Nat.count_mono_left fun k hk hp => (hiff k hk).mp hp
  · exact Nat.count_mono_left fun k hk hp => (hiff k hk).mpr hp

theorem countOn_congr (h : ∀ i, l ≤ i → i ≤ r → b i = a i) :
    countOn p b l r = countOn p a l r := by
  have htransfer : countOn p b l r = countOn p a (l + 0) (r + 0) :=
    countOn_transfer fun i h₁ h₂ => by rw [h i h₁ h₂, add_zero]
  rwa [add_zero, add_zero] at htransfer

theorem countOn_first (hle : l ≤ r) (hl : p (a l)) :
    countOn p a l r = 1 + countOn p a (l + 1) r := by
  have hone : (countOn p a l (l + 1 - 1) : ℤ) = l + 1 - 1 + 1 - l := by
    apply countOn_eq_length (by omega)
    intro i h₁ h₂
    rwa [show i = l by omega]
  have hsplit := countOn_split (p := p) (a := a) (l := l) (r := r) (t := l + 1) (by omega) (by omega)
  omega

theorem countOn_last (hle : l ≤ r) (hr : p (a r)) :
    countOn p a l r = countOn p a l (r - 1) + 1 := by
  have hone := countOn_first (p := p) (a := a) (le_refl r) hr
  have hnone : countOn p a (r + 1) r = 0 := countOn_eq_zero_iff.mpr fun i _ _ => by omega
  have hsplit := countOn_split (p := p) (a := a) (l := l) (r := r) (t := r) hle (by omega)
  omega

end Count

/-! ### The scans -/

section Relations

variable (lt : α → α → Prop)

/-- The scan from the left stops at the first element that is not below the pivot. -/
structure Up (m hi : ℤ) (a : ℤ → α) (l l' : ℤ) : Prop where
  le : l ≤ l'
  bound : l' ≤ hi
  below : ∀ i, l ≤ i → i < l' → lt (a i) (a m)
  stop : ¬ lt (a l') (a m)

/-- The scan from the right stops at the first element that is not above the pivot. -/
structure Down (m lo : ℤ) (a : ℤ → α) (r r' : ℤ) : Prop where
  le : r' ≤ r
  bound : lo ≤ r'
  above : ∀ i, r' < i → i ≤ r → lt (a m) (a i)
  stop : ¬ lt (a m) (a r')

/-- The loop of scans and swaps, from one array and pair of places to another. -/
inductive Partition (m lo hi : ℤ) : (ℤ → α) → ℤ → ℤ → (ℤ → α) → ℤ → ℤ → Prop
  | done {a : ℤ → α} {l r : ℤ} (hlt : r < l) : Partition m lo hi a l r a l r
  | cross {a : ℤ → α} {l r l' r' : ℤ} (hle : l ≤ r) (hup : Up lt m hi a l l')
      (hdown : Down lt m lo a r r') (hlt : r' < l') : Partition m lo hi a l r a l' r'
  | swap {a b : ℤ → α} {l r l' r' u v : ℤ} (hle : l ≤ r) (hup : Up lt m hi a l l')
      (hdown : Down lt m lo a r r') (hle' : l' ≤ r')
      (hrest : Partition m lo hi (a ∘ Equiv.swap l' r') (l' + 1) (r' - 1) b u v) :
      Partition m lo hi a l r b u v

end Relations

section Scans

variable {lt : α → α → Prop} {a : ℤ → α} {m lo hi l r l' r' t : ℤ}

theorem comp_swap_left (a : ℤ → α) (i j : ℤ) : (a ∘ Equiv.swap i j) i = a j := by
  rw [Function.comp_apply, Equiv.swap_apply_left]

theorem comp_swap_right (a : ℤ → α) (i j : ℤ) : (a ∘ Equiv.swap i j) j = a i := by
  rw [Function.comp_apply, Equiv.swap_apply_right]

theorem comp_swap_of_ne (a : ℤ → α) {i j k : ℤ} (hi : k ≠ i) (hj : k ≠ j) :
    (a ∘ Equiv.swap i j) k = a k := by
  rw [Function.comp_apply, Equiv.swap_apply_of_ne_of_ne hi hj]

/-- The scan passes nothing that it stops at. -/
theorem Up.countOn_eq_zero [DecidableRel lt] (h : Up lt m hi a l l') (ht : t < l') :
    countOn (fun x => ¬ lt x (a m)) a l t = 0 := by
  apply countOn_eq_zero_iff.mpr
  intro i h₁ h₂ hnot
  exact hnot (h.below i h₁ (by omega))

theorem Down.countOn_eq_zero [DecidableRel lt] (h : Down lt m lo a r r') (ht : r' < t) :
    countOn (fun x => ¬ lt (a m) x) a t r = 0 := by
  apply countOn_eq_zero_iff.mpr
  intro i h₁ h₂ hnot
  exact hnot (h.above i (by omega) h₂)

section Order

variable [LinearOrder κ] {key : α → κ} (hkey : ∀ x y, lt x y ↔ key x < key y)

include hkey

/-- Nothing up to the scan is above the pivot. -/
theorem Up.key_le (h : Up lt m hi a l l') (hleft : ∀ i, lo ≤ i → i < l → ¬ lt (a m) (a i)) :
    ∀ i, lo ≤ i → i < l' → key (a i) ≤ key (a m) := by
  intro i h₁ h₂
  by_cases hi : i < l
  · exact not_lt.mp (mt (hkey _ _).mpr (hleft i h₁ hi))
  · exact ((hkey _ _).mp (h.below i (by omega) h₂)).le

theorem Down.le_key (h : Down lt m lo a r r') (hright : ∀ j, r < j → j ≤ hi → ¬ lt (a j) (a m)) :
    ∀ j, r' < j → j ≤ hi → key (a m) ≤ key (a j) := by
  intro j h₁ h₂
  by_cases hj : r < j
  · exact not_lt.mp (mt (hkey _ _).mpr (hright j hj h₂))
  · exact ((hkey _ _).mp (h.above j h₁ (by omega))).le

end Order

end Scans

/-! ### Turning round -/

section Neg

variable {lt : α → α → Prop} {a b : ℤ → α} {m lo hi l r l' r' u v : ℤ}

theorem Down.neg (h : Down lt m lo a r r') :
    Up (flip lt) (-m) (-lo) (fun i => a (-i)) (-r) (-r') where
  le := by have := h.le; omega
  bound := by have := h.bound; omega
  below := by
    intro i h₁ h₂
    simpa [flip] using h.above (-i) (by omega) (by omega)
  stop := by simpa [flip] using h.stop

theorem Up.neg (h : Up lt m hi a l l') :
    Down (flip lt) (-m) (-hi) (fun i => a (-i)) (-l) (-l') where
  le := by have := h.le; omega
  bound := by have := h.bound; omega
  above := by
    intro i h₁ h₂
    simpa [flip] using h.below (-i) (by omega) (by omega)
  stop := by simpa [flip] using h.stop

theorem swap_neg (a : ℤ → α) (i j : ℤ) :
    (fun k => (a ∘ Equiv.swap i j) (-k)) = (fun k => a (-k)) ∘ Equiv.swap (-j) (-i) := by
  funext k
  simp only [Function.comp_apply, Equiv.swap_apply_def]
  congr 1
  split_ifs <;> omega

theorem Partition.neg (h : Partition lt m lo hi a l r b u v) :
    Partition (flip lt) (-m) (-hi) (-lo) (fun i => a (-i)) (-r) (-l) (fun i => b (-i)) (-v) (-u) := by
  induction h with
  | done hlt => exact .done (by omega)
  | cross hle hup hdown hlt => exact .cross (by omega) hdown.neg hup.neg (by omega)
  | swap hle hup hdown hle' hrest ih =>
    refine .swap (by omega) hdown.neg hup.neg (by omega) ?_
    rw [← swap_neg]
    convert ih using 1 <;> ring

theorem PermOn.neg (h : PermOn lo hi a b) :
    PermOn (-hi) (-lo) (fun i => a (-i)) (fun i => b (-i)) := by
  obtain ⟨σ, hσ, rfl⟩ := h
  refine ⟨(Equiv.neg ℤ).trans (σ.trans (Equiv.neg ℤ)), fun i hi => ?_, ?_⟩
  · simp [hσ (-i) (by omega)]
  · funext i
    simp

end Neg

/-! ### A pivot that stays -/

section Fixed

variable {lt : α → α → Prop} {a b : ℤ → α} {m lo hi l r l' r' u v t : ℤ}

theorem exists_up (hle : l ≤ t) (ht : t ≤ hi) (hstop : ¬ lt (a t) (a m)) :
    ∃ l', l' ≤ t ∧ Up lt m hi a l l' := by
  obtain ⟨n, hn⟩ : ∃ n : Nat, t = l + n := ⟨(t - l).toNat, by omega⟩
  induction n generalizing l with
  | zero => exact ⟨t, le_rfl, hle, ht, fun i _ _ => by omega, hstop⟩
  | succ n ih =>
    by_cases hlow : lt (a l) (a m)
    · obtain ⟨l', hl', hup⟩ := ih (l := l + 1) (by omega) (by push_cast at hn; omega)
      refine ⟨l', hl', by have := hup.le; omega, hup.bound, fun i h₁ h₂ => ?_, hup.stop⟩
      by_cases heq : i = l
      · rwa [heq]
      · exact hup.below i (by omega) h₂
    · exact ⟨l, hle, le_rfl, by omega, fun i _ _ => by omega, hlow⟩

theorem exists_down (hle : t ≤ r) (ht : lo ≤ t) (hstop : ¬ lt (a m) (a t)) :
    ∃ r', t ≤ r' ∧ Down lt m lo a r r' := by
  obtain ⟨l', hl', hup⟩ : ∃ l', l' ≤ -t ∧ Up (flip lt) (-m) (-lo) (fun i => a (-i)) (-r) l' :=
    exists_up (by omega) (by omega) (by simpa [flip] using hstop)
  have hdown := hup.neg
  simp only [neg_neg] at hdown
  exact ⟨-l', by omega, hdown⟩

section Kept

variable (lt) [DecidableRel lt]

/-- What a scan with the pivot `q` keeps on the left: the elements below `q`, and those
equivalent to it which lie behind as many places as there are elements below. -/
def Kept (a : ℤ → α) (l r : ℤ) (q : α) (i : ℤ) : Prop :=
  lt (a i) q ∨ l + countOn (fun x => lt x q) a l r ≤ i ∧ ¬ lt q (a i)

end Kept

theorem kept_congr [DecidableRel lt] {q : α} {i : ℤ} (h : ∀ i, l ≤ i → i ≤ r → b i = a i)
    (h₁ : l ≤ i) (h₂ : i ≤ r) : Kept lt b l r q i ↔ Kept lt a l r q i := by
  rw [Kept, Kept, h i h₁ h₂, countOn_congr h]

/-- What comes of a window when the pivot `q` is not moved. -/
structure Cut [LinearOrder κ] (lt : α → α → Prop) [DecidableRel lt] (key : α → κ) (a : ℤ → α)
    (l r : ℤ) (q : α) (b : ℤ → α) (u v : ℤ) : Prop where
  perm : PermOn l r a b
  le_u : l ≤ u
  u_le : u ≤ r + 1
  le_v : l - 1 ≤ v
  v_le : v ≤ r
  v_lt : v < u
  low : ∀ i, l ≤ i → i < u → key (b i) ≤ key q
  high : ∀ i, v < i → i ≤ r → key q ≤ key (b i)
  kept : ∀ P : κ → Prop, (∀ i, l ≤ i → i < u → P (key (b i))) ↔
    ∀ i, l ≤ i → i ≤ r → Kept lt a l r q i → P (key (a i))

variable [LinearOrder κ] {key : α → κ} (hkey : ∀ x y, lt x y ↔ key x < key y)
variable [DecidableRel lt] {q : α} {P : κ → Prop}

include hkey

/-- Elements that the scans pass. -/
theorem kept_scan (hl : l ≤ l') (hr : r' ≤ r) (hcross : l' ≤ r' + 1)
    (hbelow : ∀ i, l ≤ i → i < l' → lt (a i) q) (habove : ∀ i, r' < i → i ≤ r → lt q (a i)) :
    (∀ i, l ≤ i → i ≤ r → Kept lt a l r q i → P (key (a i))) ↔
      (∀ i, l ≤ i → i < l' → P (key (a i))) ∧
        ∀ i, l' ≤ i → i ≤ r' → Kept lt a l' r' q i → P (key (a i)) := by
  have hnone : countOn (fun x => lt x q) a (r' + 1) r = 0 := by
    apply countOn_eq_zero_iff.mpr
    intro i h₁ h₂ hlow
    have hhigh := habove i (by omega) h₂
    rw [hkey] at hlow hhigh
    exact absurd hlow (not_lt_of_gt hhigh)
  have hall : (countOn (fun x => lt x q) a l (l' - 1) : ℤ) = l' - 1 + 1 - l :=
    countOn_eq_length (by omega) fun i h₁ h₂ => hbelow i h₁ (by omega)
  have hfirst := countOn_split (p := fun x => lt x q) (a := a) (l := l) (r := r) (t := l')
    hl (by omega)
  have hsecond := countOn_split (p := fun x => lt x q) (a := a) (l := l') (r := r) (t := r' + 1)
    (by omega) (by omega)
  rw [show r' + 1 - 1 = r' by omega] at hsecond
  have hcount : l + countOn (fun x => lt x q) a l r = l' + countOn (fun x => lt x q) a l' r' := by
    omega
  constructor
  · intro h
    refine ⟨fun i h₁ h₂ => h i h₁ (by omega) (Or.inl (hbelow i h₁ h₂)), fun i h₁ h₂ hkept => ?_⟩
    apply h i (by omega) (by omega)
    rwa [Kept, hcount]
  · rintro ⟨hpassed, hinner⟩ i h₁ h₂ hkept
    by_cases hlt : i < l'
    · exact hpassed i h₁ hlt
    · apply hinner i (by omega)
      · by_contra hgt
        have hhigh := habove i (by omega) h₂
        rw [Kept, hkey, hkey] at hkept
        rw [hkey] at hhigh
        rcases hkept with hlow | ⟨_, hlow⟩
        · exact absurd hlow (not_lt_of_gt hhigh)
        · exact hlow hhigh
      · rwa [Kept, ← hcount]

/-- The elements at which the scans stop. -/
theorem kept_swap (hlt : l < r) (hl : ¬ lt (a l) q) (hr : ¬ lt q (a r)) :
    (∀ i, l ≤ i → i ≤ r → Kept lt a l r q i → P (key (a i))) ↔
      P (key (a r)) ∧
        ∀ i, l + 1 ≤ i → i ≤ r - 1 → Kept lt a (l + 1) (r - 1) q i → P (key (a i)) := by
  have hnone : countOn (fun x => lt x q) a l l = 0 := by
    apply countOn_eq_zero_iff.mpr
    intro i h₁ h₂
    rwa [show i = l by omega]
  have hfirst := countOn_split (p := fun x => lt x q) (a := a) (l := l) (r := r) (t := l + 1)
    (by omega) (by omega)
  rw [show l + 1 - 1 = l by omega, hnone] at hfirst
  have hinner := countOn_le (fun x => lt x q) a (l := l + 1) (r := r - 1) (by omega)
  by_cases hlow : lt (a r) q
  · have hlast := countOn_last (p := fun x => lt x q) (a := a) (l := l + 1) (r := r) (by omega) hlow
    constructor
    · intro h
      refine ⟨h r (by omega) le_rfl (Or.inl hlow), fun i h₁ h₂ hkept => h i (by omega) (by omega) ?_⟩
      exact hkept.imp_right fun hk => ⟨by omega, hk.2⟩
    · rintro ⟨hPr, hP⟩ i h₁ h₂ hkept
      by_cases hir : i = r
      · rwa [hir]
      · by_cases hil : i = l
        · rcases hkept with hk | ⟨hk, _⟩
          · exact absurd (hil ▸ hk) hl
          · omega
        · exact hP i (by omega) (by omega) (hkept.imp_right fun hk => ⟨by omega, hk.2⟩)
  · have hlast : countOn (fun x => lt x q) a (l + 1) r = countOn (fun x => lt x q) a (l + 1) (r - 1) := by
      have hsplit := countOn_split (p := fun x => lt x q) (a := a) (l := l + 1) (r := r) (t := r)
        (by omega) (by omega)
      have hr0 : countOn (fun x => lt x q) a r r = 0 := by
        apply countOn_eq_zero_iff.mpr
        intro i h₁ h₂
        rwa [show i = r by omega]
      omega
    have hq : key (a r) = key q := by
      rw [hkey] at hlow hr
      exact le_antisymm (not_lt.mp hr) (not_lt.mp hlow)
    constructor
    · intro h
      refine ⟨h r (by omega) le_rfl (Or.inr ⟨by omega, hr⟩), fun i h₁ h₂ hkept =>
        h i (by omega) (by omega) ?_⟩
      exact hkept.imp_right fun hk => ⟨by omega, hk.2⟩
    · rintro ⟨hPr, hP⟩ i h₁ h₂ hkept
      by_cases hlowi : lt (a i) q
      · have hil : i ≠ l := by
          rintro rfl
          exact hl hlowi
        have hir : i ≠ r := by
          rintro rfl
          exact hlow hlowi
        exact hP i (by omega) (by omega) (Or.inl hlowi)
      · -- An element equivalent to `q` has the key of `a r`.
        have hi : ¬ lt q (a i) := (hkept.resolve_left hlowi).2
        rw [hkey] at hlowi hi
        rwa [show key (a i) = key (a r) from hq ▸ le_antisymm (not_lt.mp hi) (not_lt.mp hlowi)]

/-- The scans meet, and nothing is swapped. -/
theorem Cut.of_cross (hup : Up lt m hi a l l') (hdown : Down lt m lo a r r') (hle : l' ≤ r + 1)
    (hge : l - 1 ≤ r') (hlt : r' < l') : Cut lt key a l r (a m) a l' r' where
  perm := PermOn.refl l r a
  le_u := hup.le
  u_le := hle
  le_v := hge
  v_le := hdown.le
  v_lt := hlt
  low := fun i h₁ h₂ => ((hkey _ _).mp (hup.below i h₁ h₂)).le
  high := fun i h₁ h₂ => ((hkey _ _).mp (hdown.above i h₁ h₂)).le
  kept := by
    intro P
    constructor
    · intro h i h₁ h₂ hkept
      apply h i h₁
      by_contra hge
      have hhigh := (hkey _ _).mp (hdown.above i (by omega) h₂)
      rw [Kept, hkey, hkey] at hkept
      rcases hkept with hlow | ⟨_, hlow⟩
      · exact absurd hlow (not_lt_of_gt hhigh)
      · exact hlow hhigh
    · intro h i h₁ h₂
      exact h i h₁ (by omega) (Or.inl (hup.below i h₁ h₂))

/-- The scans stop at the same place. -/
theorem Cut.of_eq (hup : Up lt m hi a l t) (hdown : Down lt m lo a r t) :
    Cut lt key a l r (a m) a (t + 1) (t - 1) where
  perm := PermOn.refl l r a
  le_u := by have := hup.le; omega
  u_le := by have := hdown.le; omega
  le_v := by have := hup.le; omega
  v_le := by have := hdown.le; omega
  v_lt := by omega
  low := by
    intro i h₁ h₂
    by_cases heq : i = t
    · rw [heq]
      exact not_lt.mp (mt (hkey _ _).mpr hdown.stop)
    · exact ((hkey _ _).mp (hup.below i h₁ (by omega))).le
  high := by
    intro i h₁ h₂
    by_cases heq : i = t
    · rw [heq]
      exact not_lt.mp (mt (hkey _ _).mpr hup.stop)
    · exact ((hkey _ _).mp (hdown.above i (by omega) h₂)).le
  kept := by
    intro P
    rw [kept_scan hkey hup.le hdown.le (by omega) hup.below hdown.above]
    have hnone : countOn (fun x => lt x (a m)) a t t = 0 := by
      apply countOn_eq_zero_iff.mpr
      intro i h₁ h₂
      rw [show i = t by omega]
      exact hup.stop
    constructor
    · intro h
      exact ⟨fun i h₁ h₂ => h i h₁ (by omega), fun i h₁ h₂ _ => h i (by have := hup.le; omega) (by omega)⟩
    · rintro ⟨hpassed, hmet⟩ i h₁ h₂
      by_cases heq : i = t
      · exact hmet i (by omega) (by omega) (Or.inr ⟨by omega, heq ▸ hdown.stop⟩)
      · exact hpassed i h₁ (by omega)

/-- The scans stop at two places, and go on behind them. -/
theorem Cut.of_swap (hup : Up lt m hi a l l') (hdown : Down lt m lo a r r') (hlt : l' < r')
    (hrest : Cut lt key (a ∘ Equiv.swap l' r') (l' + 1) (r' - 1) (a m) b u v) :
    Cut lt key a l r (a m) b u v := by
  have hl := hup.le
  have hr := hdown.le
  have hu := hrest.u_le
  have hv := hrest.le_v
  have hbefore : ∀ i, i < l' → b i = a i := by
    intro i hi
    rw [hrest.perm.outside (Or.inl (by omega)), comp_swap_of_ne a (by omega) (by omega)]
  have hafter : ∀ i, r' < i → b i = a i := by
    intro i hi
    rw [hrest.perm.outside (Or.inr (by omega)), comp_swap_of_ne a (by omega) (by omega)]
  have hfirst : b l' = a r' := by
    rw [hrest.perm.outside (Or.inl (by omega)), comp_swap_left]
  have hlast : b r' = a l' := by
    rw [hrest.perm.outside (Or.inr (by omega)), comp_swap_right]
  refine ⟨?_, by have := hrest.le_u; omega, by omega, by omega, by have := hrest.v_le; omega,
    hrest.v_lt, ?_, ?_, ?_⟩
  · apply PermOn.trans (PermOn.swap hl (by omega) (by omega) hr)
    exact hrest.perm.mono (by omega) (by omega)
  · intro i h₁ h₂
    rcases lt_trichotomy i l' with hi | hi | hi
    · rw [hbefore i hi]
      exact ((hkey _ _).mp (hup.below i h₁ hi)).le
    · rw [hi, hfirst]
      exact not_lt.mp (mt (hkey _ _).mpr hdown.stop)
    · exact hrest.low i (by omega) h₂
  · intro i h₁ h₂
    rcases lt_trichotomy i r' with hi | hi | hi
    · exact hrest.high i h₁ (by omega)
    · rw [hi, hlast]
      exact not_lt.mp (mt (hkey _ _).mpr hup.stop)
    · rw [hafter i hi]
      exact ((hkey _ _).mp (hdown.above i hi h₂)).le
  · intro P
    have hinner : ∀ i, l' + 1 ≤ i → i ≤ r' - 1 → (a ∘ Equiv.swap l' r') i = a i :=
      fun i h₁ h₂ => comp_swap_of_ne a (by omega) (by omega)
    rw [kept_scan hkey hl hr (by omega) hup.below hdown.above,
      kept_swap hkey hlt hup.stop hdown.stop]
    have hrestKept := hrest.kept P
    constructor
    · intro h
      refine ⟨fun i h₁ h₂ => ?_, ?_, fun i h₁ h₂ hk => ?_⟩
      · rw [← hbefore i h₂]
        exact h i h₁ (by have := hrest.le_u; omega)
      · rw [← hfirst]
        exact h l' hl (by have := hrest.le_u; omega)
      · rw [← hinner i h₁ h₂]
        exact hrestKept.mp (fun i h₁ h₂ => h i (by omega) h₂) i h₁ h₂
          ((kept_congr hinner h₁ h₂).mpr hk)
    · rintro ⟨hpassed, hstop, hk⟩ i h₁ h₂
      rcases lt_trichotomy i l' with hi | hi | hi
      · rw [hbefore i hi]
        exact hpassed i h₁ hi
      · rwa [hi, hfirst]
      · refine hrestKept.mpr (fun i h₁ h₂ hki => ?_) i (by omega) h₂
        rw [hinner i h₁ h₂]
        exact hk i h₁ h₂ ((kept_congr hinner h₁ h₂).mp hki)

/-- **The scans with a pivot that is not moved**: an element on either side of the window stops
them. -/
theorem exists_cut (hm : m < l ∨ r < m) (hle : l ≤ r + 1) (hlo : lo ≤ l - 1) (hhi : r + 1 ≤ hi)
    (hleft : ¬ lt (a m) (a (l - 1))) (hright : ¬ lt (a (r + 1)) (a m)) :
    ∃ b u v, Partition lt m lo hi a l r b u v ∧ Cut lt key a l r (a m) b u v := by
  induction hn : (r + 1 - l).toNat using Nat.strong_induction_on generalizing a l r with
  | _ n ih =>
    by_cases hempty : r < l
    · refine ⟨a, l, r, .done hempty, PermOn.refl l r a, le_rfl, hle, by omega, le_rfl, hempty,
        fun i _ _ => by omega, fun i _ _ => by omega, fun P => ?_⟩
      exact ⟨fun _ i _ _ => by omega, fun _ i _ _ => by omega⟩
    · obtain ⟨l', hl', hup⟩ := exists_up (l := l) (t := r + 1) hle hhi hright
      obtain ⟨r', hr', hdown⟩ := exists_down (r := r) (t := l - 1) (by omega) hlo hleft
      have hl := hup.le
      have hr := hdown.le
      rcases lt_trichotomy r' l' with hlt | heq | hlt
      · exact ⟨a, l', r', .cross (by omega) hup hdown hlt, .of_cross hkey hup hdown hl' hr' hlt⟩
      · subst heq
        refine ⟨a, r' + 1, r' - 1, .swap (by omega) hup hdown le_rfl ?_, .of_eq hkey hup hdown⟩
        rw [Equiv.swap_self]
        exact .done (by omega)
      · have hpivot : (a ∘ Equiv.swap l' r') m = a m := by
          rw [comp_swap_of_ne a (by omega) (by omega)]
        obtain ⟨b, u, v, hpart, hcut⟩ := ih (r' - 1 + 1 - (l' + 1)).toNat (by omega)
          (a := a ∘ Equiv.swap l' r') (l := l' + 1) (r := r' - 1) (by omega) (by omega) (by omega) (by omega)
          (by
            rw [hpivot, show l' + 1 - 1 = l' by omega, comp_swap_left]
            exact hdown.stop)
          (by
            rw [hpivot, show r' - 1 + 1 = r' by omega, comp_swap_right]
            exact hup.stop)
          rfl
        rw [hpivot] at hcut
        exact ⟨b, u, v, .swap (by omega) hup hdown hlt.le hpart, .of_swap hkey hup hdown hlt hcut⟩

end Fixed

end Quicksort
