import AncoreOS.Library.Partition

/-!
# Quicksort with the pivot left in the array

The scans stay in the window whatever the pivot does (`exists_splits`).  What it does to the
order is `FrontCutIn`, and the same turned round.  When the pivot stays, or an equivalent
element takes its place, all is well.  When another element takes its place, the elements that
are scanned afterwards are compared with that one, and may end up on the wrong side of the ones
that were scanned before.

So the whole array is sorted exactly when every call gets a window that it cuts
(`exists_sorts`).
-/

namespace Quicksort

variable {α κ : Type*}

/-! ### A pivot that moves -/

section Cuts

variable (lt : α → α → Prop) [DecidableRel lt]

instance decidableRelFlip : DecidableRel (flip lt) := fun x y => inferInstanceAs (Decidable (lt y x))

/-- The scans are at `l` and `r`, with the pivot at `m` between them.  If there are more elements
to be swapped in front of the pivot than behind it, `a i₀` is the one for which there is no
partner but the pivot.  It takes the place of the pivot, and the elements between are compared
with it: those that are kept on the left must not be above any that is on the right already. -/
def FrontCutIn (a : ℤ → α) (l m r hi : ℤ) : Prop :=
  ∀ i₀, l ≤ i₀ → i₀ < m → ¬ lt (a i₀) (a m) →
    countOn (fun x => ¬ lt x (a m)) a l (i₀ - 1) = countOn (fun x => ¬ lt (a m) x) a (m + 1) r →
    ∀ i, i₀ < i → i < m → Kept lt a (i₀ + 1) (m - 1) (a i₀) i →
      (∀ j, l ≤ j → j < i₀ → ¬ lt (a j) (a m) → ¬ lt (a j) (a i)) ∧
        ∀ j, m < j → j ≤ hi → r < j ∨ lt (a m) (a j) → ¬ lt (a j) (a i)

/-- Nothing that is left of the cut is above anything that is right of it. -/
def Separated (b : ℤ → α) (lo hi u v : ℤ) : Prop :=
  ∀ i j, lo ≤ i → i < u → v < j → j ≤ hi → i < j → ¬ lt (b j) (b i)

end Cuts

section Moves

variable {lt : α → α → Prop} [DecidableRel lt] {a b : ℤ → α} {m lo hi l r l' r' u v i₀ : ℤ}

/-- Nothing in front of the pivot is to be swapped. -/
theorem FrontCutIn.of_up (hup : Up lt m hi a l m) : FrontCutIn lt a l m r hi := by
  intro i₀ h₁ h₂ hstop
  exact absurd (hup.below i₀ h₁ h₂) hstop

/-- Nothing behind the pivot is to be swapped. -/
theorem frontCutIn_iff_of_down (hup : Up lt m hi a l i₀) (hlt : i₀ < m)
    (hdown : Down lt m lo a r m) :
    FrontCutIn lt a l m r hi ↔ ∀ i, i₀ < i → i < m → Kept lt a (i₀ + 1) (m - 1) (a i₀) i →
      ∀ j, m < j → j ≤ hi → ¬ lt (a j) (a i) := by
  have hright : countOn (fun x => ¬ lt (a m) x) a (m + 1) r = 0 :=
    hdown.countOn_eq_zero (by omega)
  have hleft : countOn (fun x => ¬ lt x (a m)) a l (i₀ - 1) = 0 := hup.countOn_eq_zero (by omega)
  constructor
  · intro h i h₁ h₂ hkept j hj₁ hj₂
    refine (h i₀ hup.le hlt hup.stop (hleft.trans hright.symm) i h₁ h₂ hkept).2 j hj₁ hj₂ ?_
    by_cases hr : r < j
    · exact Or.inl hr
    · exact Or.inr (hdown.above j hj₁ (by omega))
  · intro h i₁ h₁ h₂ hstop hcount
    obtain rfl : i₁ = i₀ := by
      rcases lt_trichotomy i₁ i₀ with hlt' | heq | hlt'
      · exact absurd (hup.below i₁ h₁ hlt') hstop
      · exact heq
      · rw [hright] at hcount
        exact absurd hup.stop (countOn_eq_zero_iff.mp hcount i₀ hup.le (by omega))
    intro i hi₁ hi₂ hkept
    refine ⟨fun j hj₁ hj₂ hnot => absurd (hup.below j hj₁ hj₂) hnot, fun j hj₁ hj₂ _ => ?_⟩
    exact h i hi₁ hi₂ hkept j hj₁ hj₂

/-- A swap leaves one element less to be swapped in front of the pivot. -/
theorem countOn_swap_left (hup : Up lt m hi a l l') (hr : m < r') (hgt : l' < i₀) (hlt : i₀ < m) :
    countOn (fun x => ¬ lt x (a m)) a l (i₀ - 1) =
      countOn (fun x => ¬ lt x (a m)) (a ∘ Equiv.swap l' r') (l' + 1) (i₀ - 1) + 1 := by
  have hl := hup.le
  have hnone : countOn (fun x => ¬ lt x (a m)) a l (l' - 1) = 0 := hup.countOn_eq_zero (by omega)
  have hsplit := countOn_split (p := fun x => ¬ lt x (a m)) (a := a) (l := l) (r := i₀ - 1)
    (t := l') (by omega) (by omega)
  have hfirst := countOn_first (p := fun x => ¬ lt x (a m)) (a := a) (l := l') (r := i₀ - 1)
    (by omega) hup.stop
  have hsame : ∀ i, l' + 1 ≤ i → i ≤ i₀ - 1 → (a ∘ Equiv.swap l' r') i = a i :=
    fun i h₁ h₂ => comp_swap_of_ne a (by omega) (by omega)
  rw [countOn_congr hsame]
  omega

/-- And one less behind it. -/
theorem countOn_swap_right (hdown : Down lt m lo a r r') (hl : l' < m) (hr : m < r') :
    countOn (fun x => ¬ lt (a m) x) a (m + 1) r =
      countOn (fun x => ¬ lt (a m) x) (a ∘ Equiv.swap l' r') (m + 1) (r' - 1) + 1 := by
  have hr₀ := hdown.le
  have hnone : countOn (fun x => ¬ lt (a m) x) a (r' + 1) r = 0 := hdown.countOn_eq_zero (by omega)
  have hsplit := countOn_split (p := fun x => ¬ lt (a m) x) (a := a) (l := m + 1) (r := r)
    (t := r' + 1) (by omega) (by omega)
  have hlast := countOn_last (p := fun x => ¬ lt (a m) x) (a := a) (l := m + 1) (r := r')
    (by omega) hdown.stop
  have hsame : ∀ i, m + 1 ≤ i → i ≤ r' - 1 → (a ∘ Equiv.swap l' r') i = a i :=
    fun i h₁ h₂ => comp_swap_of_ne a (by omega) (by omega)
  rw [countOn_congr hsame]
  rw [show r' + 1 - 1 = r' by omega] at hsplit
  omega

/-- Between the places of the swap the same elements are kept. -/
theorem kept_swap_iff {i : ℤ} (hr : m < r') (h₁ : l' < i₀) (h₂ : i₀ < i) (h₃ : i < m) :
    Kept lt (a ∘ Equiv.swap l' r') (i₀ + 1) (m - 1) (a i₀) i ↔
      Kept lt a (i₀ + 1) (m - 1) (a i₀) i :=
  kept_congr (fun i h₁ h₂ => comp_swap_of_ne a (by omega) (by omega)) (by omega) (by omega)

/-- A swap around the pivot. -/
theorem FrontCutIn.swap (h : FrontCutIn lt a l m r hi) (hup : Up lt m hi a l l')
    (hdown : Down lt m lo a r r') (hl : l' < m) (hr : m < r') :
    FrontCutIn lt (a ∘ Equiv.swap l' r') (l' + 1) m (r' - 1) hi := by
  have hl₀ := hup.le
  have hr₀ := hdown.le
  have hsame : ∀ i, i ≠ l' → i ≠ r' → (a ∘ Equiv.swap l' r') i = a i :=
    fun i => comp_swap_of_ne a
  have hm : (a ∘ Equiv.swap l' r') m = a m := hsame m (by omega) (by omega)
  intro i₀ h₁ h₂ hstop hcount i hi₁ hi₂ hk
  rw [hsame i₀ (by omega) (by omega), hm] at hstop
  rw [hm] at hcount
  rw [hsame i₀ (by omega) (by omega)] at hk
  obtain ⟨hfront, hback⟩ := h i₀ (by omega) h₂ hstop
    (by rw [countOn_swap_left hup hr (by omega) h₂, countOn_swap_right hdown hl hr, hcount]) i hi₁
    hi₂ ((kept_swap_iff hr h₁ hi₁ hi₂).mp hk)
  rw [hsame i (by omega) (by omega), hm]
  refine ⟨fun j hj₁ hj₂ hj₃ => ?_, fun j hj₁ hj₂ hj₃ => ?_⟩
  · rw [hsame j (by omega) (by omega)] at hj₃ ⊢
    exact hfront j (by omega) hj₂ hj₃
  · rcases eq_or_ne j r' with rfl | hne
    · rw [comp_swap_right]
      exact hfront l' hl₀ (by omega) hup.stop
    · rw [hsame j (by omega) hne] at hj₃ ⊢
      refine hback j hj₁ hj₂ ?_
      by_cases hr : r < j
      · exact Or.inl hr
      · refine Or.inr (hj₃.elim (fun hlt => ?_) id)
        exact hdown.above j (by omega) (by omega)

theorem FrontCutIn.of_swap (h : FrontCutIn lt (a ∘ Equiv.swap l' r') (l' + 1) m (r' - 1) hi)
    (hup : Up lt m hi a l l') (hdown : Down lt m lo a r r') (hl : l' < m) (hr : m < r')
    (hle : r ≤ hi) : FrontCutIn lt a l m r hi := by
  have hl₀ := hup.le
  have hr₀ := hdown.le
  have hsame : ∀ i, i ≠ l' → i ≠ r' → (a ∘ Equiv.swap l' r') i = a i :=
    fun i => comp_swap_of_ne a
  have hm : (a ∘ Equiv.swap l' r') m = a m := hsame m (by omega) (by omega)
  intro i₀ h₁ h₂ hstop hcount i hi₁ hi₂ hk
  have hright := countOn_swap_right hdown hl hr
  have hgt : l' < i₀ := by
    by_contra hle'
    rcases (show i₀ < l' ∨ i₀ = l' by omega) with hlt | rfl
    · exact hstop (hup.below i₀ h₁ hlt)
    · have hnone := hup.countOn_eq_zero (t := i₀ - 1) (by omega)
      omega
  have hleft := countOn_swap_left hup hr hgt h₂
  have hi₀ := hsame i₀ (by omega) (by omega)
  obtain ⟨hfront, hback⟩ := h i₀ (by omega) h₂ (by rwa [hi₀, hm]) (by rw [hm]; omega) i hi₁ hi₂
    (by rw [hi₀]; exact (kept_swap_iff hr hgt hi₁ hi₂).mpr hk)
  rw [hsame i (by omega) (by omega)] at hfront hback
  rw [hm] at hfront hback
  refine ⟨fun j hj₁ hj₂ hj₃ => ?_, fun j hj₁ hj₂ hj₃ => ?_⟩
  · rcases lt_trichotomy j l' with hj | rfl | hj
    · exact absurd (hup.below j hj₁ hj) hj₃
    · rw [← comp_swap_right a j r']
      exact hback r' hr (by omega) (Or.inl (by omega))
    · rw [← hsame j (by omega) (by omega)]
      exact hfront j (by omega) hj₂ (by rwa [hsame j (by omega) (by omega)])
  · have hne : j ≠ r' := by
      rintro rfl
      exact hj₃.elim (fun hlt => by omega) hdown.stop
    rw [← hsame j (by omega) hne]
    refine hback j hj₁ hj₂ ?_
    rw [hsame j (by omega) hne]
    exact hj₃.imp_left fun hlt => by omega

theorem frontCutIn_iff_of_swap (hup : Up lt m hi a l l') (hdown : Down lt m lo a r r')
    (hl : l' < m) (hr : m < r') (hle : r ≤ hi) :
    FrontCutIn lt a l m r hi ↔ FrontCutIn lt (a ∘ Equiv.swap l' r') (l' + 1) m (r' - 1) hi :=
  ⟨fun h => h.swap hup hdown hl hr, fun h => h.of_swap hup hdown hl hr hle⟩

/-- The condition depends on comparisons of elements only, and moves with the window. -/
theorem FrontCutIn.transfer {β : Type*} {lt' : β → β → Prop} [DecidableRel lt'] {b : ℤ → β} {s : ℤ}
    (hcut : FrontCutIn lt a l m r hi) (hm : m ≤ r) (hr : r ≤ hi)
    (h : ∀ i j, l ≤ i → i ≤ hi → l ≤ j → j ≤ hi → (lt (a i) (a j) ↔ lt' (b (i + s)) (b (j + s)))) :
    FrontCutIn lt' b (l + s) (m + s) (r + s) (hi + s) := by
  -- Every place of the new window is the shift of one of the old.
  have hshift : ∀ t : ℤ, t = t - s + s := fun t => by ring
  intro i₀ h₁ h₂ hstop hcount i hi₁ hi₂ hkept
  rw [hshift i₀] at h₁ h₂ hstop hcount hi₁ hkept ⊢
  rw [hshift i] at hi₁ hi₂ hkept ⊢
  generalize i₀ - s = i₀' at *
  generalize i - s = i' at *
  have hleft : countOn (fun x => ¬ lt x (a m)) a l (i₀' - 1) =
      countOn (fun x => ¬ lt' x (b (m + s))) b (l + s) (i₀' + s - 1) := by
    rw [show i₀' + s - 1 = i₀' - 1 + s by ring]
    exact countOn_transfer fun i h₁ h₂ => not_congr (h i m h₁ (by omega) (by omega) (by omega))
  have hright : countOn (fun x => ¬ lt (a m) x) a (m + 1) r =
      countOn (fun x => ¬ lt' (b (m + s)) x) b (m + s + 1) (r + s) := by
    rw [show m + s + 1 = m + 1 + s by ring]
    exact countOn_transfer fun i h₁ h₂ =>
      not_congr (h m i (by omega) (by omega) (by omega) (by omega))
  have hlow : countOn (fun x => lt x (a i₀')) a (i₀' + 1) (m - 1) =
      countOn (fun x => lt' x (b (i₀' + s))) b (i₀' + s + 1) (m + s - 1) := by
    rw [show i₀' + s + 1 = i₀' + 1 + s by ring, show m + s - 1 = m - 1 + s by ring]
    exact countOn_transfer fun i h₁ h₂ => h i i₀' (by omega) (by omega) (by omega) (by omega)
  rw [Kept, ← hlow, ← h i' i₀' (by omega) (by omega) (by omega) (by omega),
    ← h i₀' i' (by omega) (by omega) (by omega) (by omega)] at hkept
  rw [← h i₀' m (by omega) (by omega) (by omega) (by omega)] at hstop
  obtain ⟨hfront, hback⟩ := hcut i₀' (by omega) (by omega) hstop (by rw [hleft, hright, hcount]) i'
    (by omega) (by omega) (hkept.imp_right fun hk => ⟨by omega, hk.2⟩)
  refine ⟨fun j hj₁ hj₂ hj₃ => ?_, fun j hj₁ hj₂ hj₃ => ?_⟩
  · rw [hshift j] at hj₁ hj₂ hj₃ ⊢
    generalize j - s = j' at *
    rw [← h j' m (by omega) (by omega) (by omega) (by omega)] at hj₃
    rw [← h j' i' (by omega) (by omega) (by omega) (by omega)]
    exact hfront j' (by omega) (by omega) hj₃
  · rw [hshift j] at hj₁ hj₂ hj₃ ⊢
    generalize j - s = j' at *
    rw [← h m j' (by omega) (by omega) (by omega) (by omega)] at hj₃
    rw [← h j' i' (by omega) (by omega) (by omega) (by omega)]
    exact hback j' (by omega) (by omega) (hj₃.imp_left fun hlt => by omega)

omit [DecidableRel lt] in
theorem separated_neg (b : ℤ → α) (lo hi u v : ℤ) :
    Separated (flip lt) b (-hi) (-lo) u v ↔ Separated lt (fun i => b (-i)) lo hi (-v) (-u) := by
  constructor
  · intro h i j h₁ h₂ h₃ h₄ hij
    exact h (-j) (-i) (by omega) (by omega) (by omega) (by omega) (by omega)
  · intro h i j h₁ h₂ h₃ h₄ hij
    have := h (-j) (-i) (by omega) (by omega) (by omega) (by omega) (by omega)
    simpa [flip] using this

/-- What the loop does to a window that is being scanned. -/
structure Splits (lt : α → α → Prop) (m lo hi : ℤ) (a : ℤ → α) (l r : ℤ) (b : ℤ → α)
    (u v : ℤ) : Prop where
  partition : Partition lt m lo hi a l r b u v
  perm : PermOn lo hi a b
  lo_lt : lo < u
  u_le : u ≤ hi + 1
  lo_le : lo ≤ v
  v_lt : v < hi
  v_lt_u : v < u

omit [DecidableRel lt] in
theorem Splits.neg (h : Splits (flip lt) (-m) (-hi) (-lo) (fun i => a (-i)) (-r) (-l) b u v)
    (hu : u ≤ -lo) : Splits lt m lo hi a l r (fun i => b (-i)) (-v) (-u) where
  partition := by simpa [flip] using h.partition.neg
  perm := by simpa using h.perm.neg
  lo_lt := by have := h.v_lt; omega
  u_le := by have := h.lo_le; omega
  lo_le := by omega
  v_lt := by have := h.lo_lt; omega
  v_lt_u := neg_lt_neg h.v_lt_u

variable [LinearOrder κ] {key : α → κ} (hkey : ∀ x y, lt x y ↔ key x < key y)

include hkey

/-- What the rest of the loop leaves in order, when the element at `i₀` has taken the place of the
pivot. -/
theorem separated_iff_of_cut (hlo : lo ≤ l) (hup : Up lt m hi a l i₀) (hlt : i₀ < m)
    (hdown : Down lt m lo a r m) (hleft : ∀ i, lo ≤ i → i < l → ¬ lt (a m) (a i))
    (hright : ∀ j, r < j → j ≤ hi → ¬ lt (a j) (a m))
    (hcut : Cut lt key (a ∘ Equiv.swap i₀ m) (i₀ + 1) (m - 1) (a i₀) b u v) :
    Separated lt b lo hi u v ↔ FrontCutIn lt a l m r hi := by
  have hl := hup.le
  have hu := hcut.u_le
  have hv := hcut.le_v
  have houtside : ∀ i, i < i₀ ∨ m < i → b i = a i := by
    intro i hi
    rw [hcut.perm.outside (i := i) (by omega), comp_swap_of_ne a (by omega) (by omega)]
  have hb₀ : b i₀ = a m := by rw [hcut.perm.outside (i := i₀) (by omega), comp_swap_left]
  have hbm : b m = a i₀ := by rw [hcut.perm.outside (i := m) (by omega), comp_swap_right]
  -- What is not between `i₀` and `m` is in order in any case.
  have hlow : ∀ i, lo ≤ i → i ≤ i₀ → key (b i) ≤ key (a m) := by
    intro i h₁ h₂
    rcases eq_or_ne i i₀ with rfl | hne
    · rw [hb₀]
    · rw [houtside i (by omega)]
      exact hup.key_le hkey hleft i h₁ (by omega)
  have hhigh : ∀ j, m < j → j ≤ hi → key (a m) ≤ key (a j) := hdown.le_key hkey hright
  have hq : key (a m) ≤ key (a i₀) := not_lt.mp (mt (hkey _ _).mpr hup.stop)
  have hinner : ∀ i, i₀ + 1 ≤ i → i ≤ m - 1 → (a ∘ Equiv.swap i₀ m) i = a i :=
    fun i h₁ h₂ => comp_swap_of_ne a (by omega) (by omega)
  have hkept : ∀ i, i₀ + 1 ≤ i → i ≤ m - 1 →
      (Kept lt (a ∘ Equiv.swap i₀ m) (i₀ + 1) (m - 1) (a i₀) i ↔
        Kept lt a (i₀ + 1) (m - 1) (a i₀) i) := fun i h₁ h₂ => kept_congr hinner h₁ h₂
  have hiff := hcut.kept fun x => ∀ j, m < j → j ≤ hi → x ≤ key (a j)
  rw [frontCutIn_iff_of_down hup hlt hdown]
  constructor
  · intro hsep i h₁ h₂ hk j hj₁ hj₂
    have hbelow : ∀ i, i₀ + 1 ≤ i → i < u → ∀ j, m < j → j ≤ hi → key (b i) ≤ key (a j) := by
      intro i h₁ h₂ j hj₁ hj₂
      have hij := hsep i j (by omega) h₂ (by have := hcut.v_le; omega) hj₂ (by omega)
      rwa [houtside j (by omega), hkey, not_lt] at hij
    have hle := hiff.mp hbelow i (by omega) (by omega)
      ((hkept i (by omega) (by omega)).mpr hk) j hj₁ hj₂
    rwa [hinner i (by omega) (by omega), ← not_lt, ← hkey] at hle
  · intro hfront i j h₁ h₂ hj₁ hj₂ hij
    rw [hkey, not_lt]
    by_cases hi : i ≤ i₀
    · apply (hlow i h₁ hi).trans
      rcases lt_trichotomy j m with hj | rfl | hj
      · by_cases hji : j ≤ i₀
        · omega
        · exact hq.trans (hcut.high j hj₁ (by omega))
      · rwa [hbm]
      · rw [houtside j (by omega)]
        exact hhigh j hj hj₂
    · rcases lt_trichotomy j m with hj | rfl | hj
      · exact (hcut.low i (by omega) h₂).trans (hcut.high j hj₁ (by omega))
      · rw [hbm]
        exact hcut.low i (by omega) h₂
      · rw [houtside j (by omega)]
        refine hiff.mpr (fun i h₁ h₂ hk j hj₁ hj₂ => ?_) i (by omega) h₂ j hj hj₂
        have hle := hfront i (by omega) (by omega) ((hkept i h₁ h₂).mp hk) j hj₁ hj₂
        rwa [hinner i h₁ h₂, ← not_lt, ← hkey]

/-- The pivot is swapped with an element in front of it. -/
theorem exists_splits_of_down (hlo : lo ≤ l) (hhi : r ≤ hi) (hup : Up lt m hi a l i₀)
    (hlt : i₀ < m) (hdown : Down lt m lo a r m) (hleft : ∀ i, lo ≤ i → i < l → ¬ lt (a m) (a i))
    (hright : ∀ j, r < j → j ≤ hi → ¬ lt (a j) (a m)) :
    ∃ b u v, Splits lt m lo hi a l r b u v ∧ u ≤ hi ∧
      (Separated lt b lo hi u v ↔ FrontCutIn lt a l m r hi) := by
  have hl := hup.le
  have hr := hdown.le
  have hpivot : (a ∘ Equiv.swap i₀ m) m = a i₀ := comp_swap_right a i₀ m
  have hleftStop : ¬ lt ((a ∘ Equiv.swap i₀ m) m) ((a ∘ Equiv.swap i₀ m) (i₀ + 1 - 1)) := by
    rw [hpivot, show i₀ + 1 - 1 = i₀ by omega, comp_swap_left]
    exact hup.stop
  have hrightStop : ¬ lt ((a ∘ Equiv.swap i₀ m) (m - 1 + 1)) ((a ∘ Equiv.swap i₀ m) m) := by
    rw [show m - 1 + 1 = m by omega, hkey]
    exact lt_irrefl _
  have hlo' : lo ≤ i₀ + 1 - 1 := by omega
  have hhi' : m - 1 + 1 ≤ hi := by omega
  obtain ⟨b, u, v, hpart, hcut⟩ :=
    exists_cut hkey (by omega) (by omega) hlo' hhi' hleftStop hrightStop
  rw [hpivot] at hcut
  have hu := hcut.u_le
  have hv := hcut.le_v
  have hv' := hcut.v_le
  refine ⟨b, u, v, ⟨.swap (by omega) hup hdown hlt.le hpart, ?_, by have := hcut.le_u; omega,
    by omega, by omega, by omega, hcut.v_lt⟩, by omega,
    separated_iff_of_cut hkey hlo hup hlt hdown hleft hright hcut⟩
  apply PermOn.trans (PermOn.swap (i := i₀) (j := m) (by omega) (by omega) (by omega) (by omega))
  exact hcut.perm.mono (by omega) (by omega)

/-- The pivot is swapped with an element behind it. -/
theorem exists_splits_of_up (hlo : lo ≤ l) (hhi : r ≤ hi) (hup : Up lt m hi a l m)
    (hdown : Down lt m lo a r i₀) (hlt : m < i₀) (hleft : ∀ i, lo ≤ i → i < l → ¬ lt (a m) (a i))
    (hright : ∀ j, r < j → j ≤ hi → ¬ lt (a j) (a m)) :
    ∃ b u v, Splits lt m lo hi a l r b u v ∧
      (Separated lt b lo hi u v ↔
        FrontCutIn (flip lt) (fun i => a (-i)) (-r) (-m) (-l) (-lo)) := by
  have hkey' : ∀ x y, flip lt x y ↔ OrderDual.toDual (key x) < OrderDual.toDual (key y) :=
    fun x y => hkey y x
  have hlo' : -hi ≤ -r := by omega
  have hhi' : -l ≤ -lo := by omega
  obtain ⟨b, u, v, hsplits, hu, hsep⟩ := exists_splits_of_down hkey' hlo' hhi' hdown.neg
    (by omega) hup.neg
    (fun i h₁ h₂ => by simpa [flip] using hright (-i) (by omega) (by omega))
    (fun j h₁ h₂ => by simpa [flip] using hleft (-j) (by omega) (by omega))
  refine ⟨fun i => b (-i), -v, -u, hsplits.neg hu, ?_⟩
  rw [← hsep, separated_neg]

omit [DecidableRel lt] in
/-- The scans meet at the pivot. -/
theorem splits_of_eq (hlo : lo < m) (hr : r ≤ hi) (hup : Up lt m hi a l m)
    (hdown : Down lt m lo a r m) (hleft : ∀ i, lo ≤ i → i < l → ¬ lt (a m) (a i))
    (hright : ∀ j, r < j → j ≤ hi → ¬ lt (a j) (a m)) :
    Splits lt m lo hi a l r a (m + 1) (m - 1) ∧ Separated lt a lo hi (m + 1) (m - 1) := by
  have hl' := hup.le
  have hr' := hdown.le
  refine ⟨⟨.swap (by omega) hup hdown le_rfl ?_, PermOn.refl lo hi a, by omega, by omega, by omega,
    by omega, by omega⟩, ?_⟩
  · rw [Equiv.swap_self]
    exact .done (by omega)
  · intro i j h₁ h₂ h₃ h₄ hij
    have hlow : key (a i) ≤ key (a m) := by
      rcases eq_or_ne i m with rfl | hne
      · exact le_rfl
      · exact hup.key_le hkey hleft i h₁ (by omega)
    have hhigh : key (a m) ≤ key (a j) := by
      rcases eq_or_ne j m with rfl | hne
      · exact le_rfl
      · exact hdown.le_key hkey hright j (by omega) h₄
    rw [hkey, not_lt]
    exact hlow.trans hhigh

omit [DecidableRel lt] in
/-- What the scans have passed, and the two elements that are swapped, is on its side of the
pivot. -/
theorem passed_of_swap (hlm : l' < m) (hmr : m < r')
    (hup : Up lt m hi a l l') (hdown : Down lt m lo a r r')
    (hleft : ∀ i, lo ≤ i → i < l → ¬ lt (a m) (a i))
    (hright : ∀ j, r < j → j ≤ hi → ¬ lt (a j) (a m)) :
    (∀ i, lo ≤ i → i < l' + 1 →
      ¬ lt ((a ∘ Equiv.swap l' r') m) ((a ∘ Equiv.swap l' r') i)) ∧
    ∀ j, r' - 1 < j → j ≤ hi →
      ¬ lt ((a ∘ Equiv.swap l' r') j) ((a ∘ Equiv.swap l' r') m) := by
  have hpivot : (a ∘ Equiv.swap l' r') m = a m := comp_swap_of_ne a (by omega) (by omega)
  rw [hpivot]
  constructor
  · intro i h₁ h₂
    rcases eq_or_ne i l' with rfl | hne
    · rw [comp_swap_left]
      exact hdown.stop
    · rw [comp_swap_of_ne a hne (by omega), hkey, not_lt]
      exact hup.key_le hkey hleft i h₁ (by omega)
  · intro j h₁ h₂
    rcases eq_or_ne j r' with rfl | hne
    · rw [comp_swap_right]
      exact hup.stop
    · rw [comp_swap_of_ne a (by omega) hne, hkey, not_lt]
      exact hdown.le_key hkey hright j (by omega) h₂

/-- **The loop**, from any point at which the pivot has not been moved. -/
theorem exists_splits (hlo : lo < m) (hl : lo ≤ l) (hlm : l ≤ m) (hmr : m ≤ r) (hr : r ≤ hi)
    (hleft : ∀ i, lo ≤ i → i < l → ¬ lt (a m) (a i))
    (hright : ∀ j, r < j → j ≤ hi → ¬ lt (a j) (a m)) :
    ∃ b u v, Splits lt m lo hi a l r b u v ∧ (Separated lt b lo hi u v ↔
      FrontCutIn lt a l m r hi ∧
        FrontCutIn (flip lt) (fun i => a (-i)) (-r) (-m) (-l) (-lo)) := by
  induction hn : (r - l).toNat using Nat.strong_induction_on generalizing a l r with
  | _ n ih =>
    have hself : ¬ lt (a m) (a m) := by
      rw [hkey]
      exact lt_irrefl _
    obtain ⟨l', hl', hup⟩ : ∃ l', l' ≤ m ∧ Up lt m hi a l l' := exists_up hlm (by omega) hself
    obtain ⟨r', hr', hdown⟩ : ∃ r', m ≤ r' ∧ Down lt m lo a r r' :=
      exists_down hmr (by omega) hself
    have hll := hup.le
    have hrr := hdown.le
    rcases eq_or_ne l' m with rfl | hlne
    · have hfront : FrontCutIn lt a l l' r hi := .of_up hup
      rcases eq_or_ne r' l' with rfl | hrne
      · obtain ⟨hsplits, hsep⟩ := splits_of_eq hkey hlo hr hup hdown hleft hright
        exact ⟨a, r' + 1, r' - 1, hsplits, fun _ => ⟨hfront, .of_up hdown.neg⟩, fun _ => hsep⟩
      · obtain ⟨b, u, v, hsplits, hsep⟩ := exists_splits_of_up hkey hl hr hup hdown (by omega)
          hleft hright
        exact ⟨b, u, v, hsplits, hsep.trans ⟨fun h => ⟨hfront, h⟩, And.right⟩⟩
    · rcases eq_or_ne r' m with rfl | hrne
      · have hback : FrontCutIn (flip lt) (fun i => a (-i)) (-r) (-r') (-l) (-lo) :=
          .of_up hdown.neg
        obtain ⟨b, u, v, hsplits, _, hsep⟩ := exists_splits_of_down hkey hl hr hup (by omega) hdown
          hleft hright
        exact ⟨b, u, v, hsplits, hsep.trans ⟨fun h => ⟨h, hback⟩, And.left⟩⟩
      · obtain ⟨hleft', hright'⟩ := passed_of_swap hkey (by omega) (by omega) hup hdown
          hleft hright
        obtain ⟨b, u, v, hsplits, hsep⟩ := ih (r' - 1 - (l' + 1)).toNat (by omega) (by omega)
          (by omega) (by omega) (by omega) hleft' hright' rfl
        have hfront : FrontCutIn lt a l m r hi ↔
            FrontCutIn lt (a ∘ Equiv.swap l' r') (l' + 1) m (r' - 1) hi :=
          frontCutIn_iff_of_swap hup hdown (by omega) (by omega) hr
        have hback := frontCutIn_iff_of_swap hdown.neg hup.neg (m := -m) (by omega) (by omega)
          (by omega)
        rw [← swap_neg, show -r' + 1 = -(r' - 1) by omega, show -l' - 1 = -(l' + 1) by omega] at hback
        rw [← hfront, ← hback] at hsep
        refine ⟨b, u, v, ⟨.swap (by omega) hup hdown (by omega) hsplits.partition, ?_, hsplits.lo_lt,
          hsplits.u_le, hsplits.lo_le, hsplits.v_lt, hsplits.v_lt_u⟩, hsep⟩
        exact (PermOn.swap (by omega) (by omega) (by omega) (by omega)).trans hsplits.perm

end Moves

/-! ### Sorting -/

/-- The place of the pivot. -/
def middle (lo hi : ℤ) : ℤ := lo + (hi - lo + 1) / 2

/-- What a call is given. -/
structure Window (α : Type*) where
  array : ℤ → α
  lo : ℤ
  hi : ℤ

section Calls

variable (lt : α → α → Prop)

/-- The scans of a call on this window leave nothing on the wrong side. -/
def Window.Cuts [DecidableRel lt] (w : Window α) : Prop :=
  FrontCutIn lt w.array w.lo (middle w.lo w.hi) w.hi w.hi ∧
    FrontCutIn (flip lt) (fun i => w.array (-i)) (-w.hi) (-middle w.lo w.hi) (-w.lo) (-w.lo)

/-- Quicksort, with the calls that have something to sort. -/
inductive Sorts : (ℤ → α) → ℤ → ℤ → (ℤ → α) → List (Window α) → Prop
  | small {a : ℤ → α} {lo hi : ℤ} (hle : hi ≤ lo) : Sorts a lo hi a []
  | split {a b c d : ℤ → α} {lo hi u v : ℤ} {ws ws' : List (Window α)} (hlt : lo < hi)
      (hsplits : Splits lt (middle lo hi) lo hi a lo hi b u v) (hleft : Sorts b lo v c ws)
      (hright : Sorts c u hi d ws') : Sorts a lo hi d (⟨a, lo, hi⟩ :: (ws ++ ws'))

def SortedOn (a : ℤ → α) (lo hi : ℤ) : Prop := ∀ i, lo ≤ i → i < hi → ¬ lt (a (i + 1)) (a i)

end Calls

/-- Two windows in which all comparisons come out the same. -/
theorem Window.Cuts.transfer {β : Type*} {lt : α → α → Prop} [DecidableRel lt]
    {lt' : β → β → Prop} [DecidableRel lt'] {w : Window α} {w' : Window β} {s : ℤ}
    (hcuts : w.Cuts lt) (hlo : w'.lo = w.lo + s) (hhi : w'.hi = w.hi + s) (hlt : w.lo < w.hi)
    (h : ∀ i j, w.lo ≤ i → i ≤ w.hi → w.lo ≤ j → j ≤ w.hi →
      (lt (w.array i) (w.array j) ↔ lt' (w'.array (i + s)) (w'.array (j + s)))) : w'.Cuts lt' := by
  have hmiddle : middle w'.lo w'.hi = middle w.lo w.hi + s := by
    unfold middle
    rw [hlo, hhi, show w.hi + s - (w.lo + s) = w.hi - w.lo by ring]
    ring
  have hm : w.lo ≤ middle w.lo w.hi ∧ middle w.lo w.hi ≤ w.hi := by
    unfold middle
    omega
  refine ⟨?_, ?_⟩
  · rw [hmiddle, hlo, hhi]
    exact hcuts.1.transfer hm.2 le_rfl h
  · have hflip : ∀ i j, -w.hi ≤ i → i ≤ -w.lo → -w.hi ≤ j → j ≤ -w.lo →
        (flip lt (w.array (-i)) (w.array (-j)) ↔
          flip lt' ((fun k => w'.array (-k)) (i + -s)) ((fun k => w'.array (-k)) (j + -s))) := by
      intro i j h₁ h₂ h₃ h₄
      have hji := h (-j) (-i) (by omega) (by omega) (by omega) (by omega)
      rwa [show -j + s = -(j + -s) by ring, show -i + s = -(i + -s) by ring] at hji
    have hback : FrontCutIn (flip lt') (fun k => w'.array (-k)) (-w.hi + -s)
        (-middle w.lo w.hi + -s) (-w.lo + -s) (-w.lo + -s) :=
      hcuts.2.transfer (by omega) le_rfl hflip
    rw [hmiddle, hlo, hhi]
    simpa only [neg_add] using hback

section Sorting

variable {lt : α → α → Prop} {a b c d : ℤ → α} {lo hi u v : ℤ}

theorem Sorts.perm {ws : List (Window α)} (h : Sorts lt a lo hi b ws) : PermOn lo hi a b := by
  induction h with
  | small _ => exact PermOn.refl _ _ _
  | split hlt hsplits _ _ ihleft ihright =>
    have hv := hsplits.v_lt
    have hu := hsplits.lo_lt
    exact (hsplits.perm.trans (ihleft.mono le_rfl (by omega))).trans (ihright.mono (by omega) le_rfl)

theorem Sorts.eq_of_le {ws : List (Window α)} (h : Sorts lt a lo hi b ws) (hle : hi ≤ lo) :
    b = a ∧ ws = [] := by
  cases h with
  | small _ => exact ⟨rfl, rfl⟩
  | split hlt _ _ _ => omega

variable [LinearOrder κ] {key : α → κ} (hkey : ∀ x y, lt x y ↔ key x < key y)

include hkey

theorem SortedOn.le (h : SortedOn lt a lo hi) {i j : ℤ} (h₁ : lo ≤ i) (hij : i ≤ j) (h₂ : j ≤ hi) :
    key (a i) ≤ key (a j) := by
  obtain ⟨n, rfl⟩ : ∃ n : Nat, j = i + n := ⟨(j - i).toNat, by omega⟩
  induction n with
  | zero => simp
  | succ n ih =>
    have hnext := h (i + n) (by omega) (by push_cast at h₂; omega)
    rw [hkey, not_lt] at hnext
    push_cast at h₂ ⊢
    rw [← add_assoc]
    exact (ih (by omega) (by omega)).trans hnext

/-- Two parts that are sorted one by one. -/
theorem sortedOn_iff (hleft : PermOn lo v b c) (hright : PermOn u hi c d) (hvu : v < u)
    (hlo : lo < u) (hhi : v < hi) :
    SortedOn lt d lo hi ↔ Separated lt b lo hi u v ∧ SortedOn lt c lo v ∧ SortedOn lt d u hi := by
  have hd : ∀ i, i < u → d i = c i := fun i hi => hright.outside (Or.inl hi)
  have hc : ∀ i, v < i → c i = b i := fun i hi => hleft.outside (Or.inr hi)
  constructor
  · intro h
    refine ⟨fun i j h₁ h₂ h₃ h₄ hij => ?_, fun i h₁ h₂ => ?_, fun i h₁ h₂ => h i (by omega) h₂⟩
    · -- The places to which the two elements go.
      obtain ⟨i', hi₁, hi₂, hi'⟩ : ∃ i', lo ≤ i' ∧ (i' ≤ v ∨ i' = i) ∧ b i = d i' := by
        by_cases hiv : i ≤ v
        · obtain ⟨i', h₁, h₂, heq⟩ := hleft.symm.exists_eq h₁ hiv
          exact ⟨i', h₁, Or.inl h₂, by rw [heq, hd i' (by omega)]⟩
        · exact ⟨i, h₁, Or.inr rfl, by rw [hd i h₂, hc i (by omega)]⟩
      obtain ⟨j', hj₁, hj₂, hj'⟩ : ∃ j', j' ≤ hi ∧ (u ≤ j' ∨ j' = j) ∧ b j = d j' := by
        by_cases hj : u ≤ j
        · obtain ⟨j', h₁, h₂, heq⟩ := hright.symm.exists_eq hj h₄
          exact ⟨j', h₂, Or.inl h₁, by rw [← hc j h₃, heq]⟩
        · exact ⟨j, h₄, Or.inr rfl, by rw [hd j (by omega), hc j h₃]⟩
      rw [hkey, not_lt, hi', hj']
      exact h.le hkey hi₁ (by omega) hj₁
    · rw [← hd i (by omega), ← hd (i + 1) (by omega)]
      exact h i h₁ (by omega)
  · rintro ⟨hsep, hsort, hsort'⟩ i h₁ h₂
    by_cases hiv : i + 1 ≤ v
    · rw [hd i (by omega), hd (i + 1) (by omega)]
      exact hsort i h₁ (by omega)
    · by_cases hu : u ≤ i
      · exact hsort' i hu h₂
      · -- The places from which the two elements come.
        obtain ⟨i', hi₁, hi₂, hi'⟩ : ∃ i', lo ≤ i' ∧ (i' ≤ v ∨ i' = i) ∧ d i = b i' := by
          by_cases hiv : i ≤ v
          · obtain ⟨i', h₁, h₂, heq⟩ := hleft.exists_eq h₁ hiv
            exact ⟨i', h₁, Or.inl h₂, by rw [hd i (by omega), heq]⟩
          · exact ⟨i, h₁, Or.inr rfl, by rw [hd i (by omega), hc i (by omega)]⟩
        obtain ⟨j', hj₁, hj₂, hj'⟩ : ∃ j', j' ≤ hi ∧ (u ≤ j' ∨ j' = i + 1) ∧ d (i + 1) = b j' := by
          by_cases hj : u ≤ i + 1
          · obtain ⟨j', h₁, h₂, heq⟩ := hright.exists_eq hj (by omega)
            exact ⟨j', h₂, Or.inl h₁, by rw [heq, hc j' (by omega)]⟩
          · exact ⟨i + 1, by omega, Or.inr rfl, by rw [hd (i + 1) (by omega), hc (i + 1) (by omega)]⟩
        rw [hi', hj']
        exact hsep i' j' hi₁ (by omega) (by omega) hj₁ (by omega)

/-- **Quicksort ends, and sorts exactly when every call gets a window that it cuts.** -/
theorem exists_sorts [DecidableRel lt] (a : ℤ → α) (lo hi : ℤ) :
    ∃ b ws, Sorts lt a lo hi b ws ∧ (SortedOn lt b lo hi ↔ ∀ w ∈ ws, w.Cuts lt) := by
  induction hn : (hi - lo).toNat using Nat.strong_induction_on generalizing a lo hi with
  | _ n ih =>
    by_cases hle : hi ≤ lo
    · exact ⟨a, [], .small hle, fun _ w hw => absurd hw List.not_mem_nil, fun _ i _ _ => by omega⟩
    · have hmiddle : lo < middle lo hi ∧ middle lo hi ≤ hi := by
        unfold middle
        omega
      have hleft : ∀ i, lo ≤ i → i < lo → ¬ lt (a (middle lo hi)) (a i) := fun i _ _ => by omega
      have hright : ∀ j, hi < j → j ≤ hi → ¬ lt (a j) (a (middle lo hi)) := fun j _ _ => by omega
      obtain ⟨b, u, v, hsplits, hsep⟩ :=
        exists_splits hkey hmiddle.1 le_rfl hmiddle.1.le hmiddle.2 le_rfl hleft hright
      have hv := hsplits.v_lt
      have hu := hsplits.lo_lt
      obtain ⟨c, ws, hleft, hsort⟩ := ih (v - lo).toNat (by omega) b lo v rfl
      obtain ⟨d, ws', hright, hsort'⟩ := ih (hi - u).toNat (by omega) c u hi rfl
      refine ⟨d, ⟨a, lo, hi⟩ :: (ws ++ ws'), .split (by omega) hsplits hleft hright, ?_⟩
      rw [sortedOn_iff hkey hleft.perm hright.perm hsplits.v_lt_u hu hv, hsep, hsort, hsort',
        List.forall_mem_cons, List.forall_mem_append]
      exact Iff.rfl

end Sorting

end Quicksort
