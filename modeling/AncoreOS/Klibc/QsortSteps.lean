import AncoreOS.Klibc.Sort

/-!
# `qsort` on the array

The code of `qsort` works on addresses and bytes.  `Holds` says that the objects in memory are
the elements of an array on the integers, and then the code does what the scans of
`Library/Partition.lean` do: `qsortUp_of_up`, `qsortDown_of_down`, `qsortLoop_of_partition`, and
`qsortRun_of_sorts` for the whole sort.

The places that matter lie in the array or one past its end, so comparisons of addresses are
comparisons of places (`place_le_iff`).
-/

namespace AncoreOS.Klibc

open ByteMemory Quicksort

/-! ### Places -/

/-- The address of a place, which may be outside of the array. -/
def place (base size : Word) (i : ℤ) : Word := base + BitVec.ofInt 64 i * size

section Places

variable {base num size : Word} {i j : ℤ}

theorem place_natCast (base size : Word) (n : Nat) : place base size n = elementAddr base size n := by
  rw [place, elementAddr, BitVec.ofInt_natCast]

theorem place_add (base size : Word) (i j : ℤ) :
    place base size (i + j) = place (place base size i) size j := by
  rw [place, place, place, BitVec.ofInt_add, BitVec.add_mul, BitVec.add_assoc]

theorem place_succ (base size : Word) (i : ℤ) : place base size (i + 1) = place base size i + size := by
  rw [place_add, place]
  simp

theorem place_pred (base size : Word) (i : ℤ) : place base size (i - 1) = place base size i - size := by
  have h := place_succ base size (i - 1)
  rw [sub_add_cancel] at h
  rw [h, BitVec.add_sub_cancel]

theorem place_zero (base size : Word) : place base size 0 = base := by
  simp [place]

theorem place_toNat (harr : IsArray base num size) (h₁ : 0 ≤ i) (h₂ : i ≤ num.toNat) :
    (place base size i).toNat = base.toNat + i.toNat * size.toNat := by
  obtain ⟨n, rfl⟩ := Int.eq_ofNat_of_zero_le h₁
  have hn : n ≤ num.toNat := by omega
  have hmul : n * size.toNat ≤ num.toNat * size.toNat := Nat.mul_le_mul_right _ hn
  have hfits := harr.fits
  have hnum := num.isLt
  rw [place_natCast, elementAddr, BitVec.toNat_add, BitVec.toNat_mul, BitVec.toNat_ofNat,
    Nat.mod_eq_of_lt (a := n) (by omega), Nat.mod_eq_of_lt (a := n * size.toNat) (by omega),
    Nat.mod_eq_of_lt (by omega)]
  rfl

theorem place_le_iff (harr : IsArray base num size) (hi₁ : 0 ≤ i) (hi₂ : i ≤ num.toNat)
    (hj₁ : 0 ≤ j) (hj₂ : j ≤ num.toNat) : place base size i ≤ place base size j ↔ i ≤ j := by
  rw [BitVec.le_def, place_toNat harr hi₁ hi₂, place_toNat harr hj₁ hj₂, Nat.add_le_add_iff_left,
    Nat.mul_le_mul_right_iff harr.size_pos]
  omega

theorem place_lt_iff (harr : IsArray base num size) (hi₁ : 0 ≤ i) (hi₂ : i ≤ num.toNat)
    (hj₁ : 0 ≤ j) (hj₂ : j ≤ num.toNat) : place base size i < place base size j ↔ i < j := by
  have hle := place_le_iff harr hj₁ hj₂ hi₁ hi₂
  rw [BitVec.le_def] at hle
  rw [BitVec.lt_def]
  omega

theorem place_inj (harr : IsArray base num size) (hi₁ : 0 ≤ i) (hi₂ : i ≤ num.toNat)
    (hj₁ : 0 ≤ j) (hj₂ : j ≤ num.toNat) : place base size i = place base size j ↔ i = j := by
  constructor
  · intro h
    have h₁ := place_le_iff harr hi₁ hi₂ hj₁ hj₂
    have h₂ := place_le_iff harr hj₁ hj₂ hi₁ hi₂
    rw [h] at h₁ h₂
    have := h₁.mp (BitVec.le_refl _)
    have := h₂.mp (BitVec.le_refl _)
    omega
  · rintro rfl
    rfl

/-- Bytes of two elements. -/
theorem place_add_ne (harr : IsArray base num size) (hi₁ : 0 ≤ i) (hi₂ : i < num.toNat)
    (hj₁ : 0 ≤ j) (hj₂ : j < num.toNat) (hne : i ≠ j) {k k' : Nat} (hk : k < size.toNat)
    (hk' : k' < size.toNat) :
    place base size i + BitVec.ofNat 64 k ≠ place base size j + BitVec.ofNat 64 k' := by
  have hfits := harr.fits
  have haddr : ∀ (n : Nat) (t : Nat), n < num.toNat → t < size.toNat →
      (place base size n + BitVec.ofNat 64 t).toNat = base.toNat + (n * size.toNat + t) := by
    intro n t hn ht
    have hmul : (n + 1) * size.toNat ≤ num.toNat * size.toNat := Nat.mul_le_mul_right _ hn
    rw [Nat.add_mul, Nat.one_mul] at hmul
    rw [BitVec.toNat_add, place_toNat harr (by omega) (by omega), BitVec.toNat_ofNat,
      Int.toNat_natCast, Nat.mod_eq_of_lt (a := t) (by omega), Nat.mod_eq_of_lt (by omega),
      Nat.add_assoc]
  obtain ⟨n, rfl⟩ := Int.eq_ofNat_of_zero_le hi₁
  obtain ⟨n', rfl⟩ := Int.eq_ofNat_of_zero_le hj₁
  intro h
  have hnat := congrArg BitVec.toNat h
  rw [haddr n k (by omega) hk, haddr n' k' (by omega) hk', Nat.add_left_cancel_iff] at hnat
  have hdiv : ∀ a b : Nat, b < size.toNat → (a * size.toNat + b) / size.toNat = a := by
    intro a b hb
    rw [Nat.mul_comm, Nat.mul_add_div harr.size_pos, Nat.div_eq_of_lt hb, Nat.add_zero]
  have := hdiv n k hk
  rw [hnat, hdiv n' k' hk'] at this
  omega

end Places

/-! ### `swap_bytes` -/

theorem ofNat_succ_add (a : Word) (k : Nat) :
    a + BitVec.ofNat 64 (k + 1) = a + 1 + BitVec.ofNat 64 k := by
  rw [Nat.add_comm, BitVec.ofNat_add, ← BitVec.add_assoc]
  rfl

theorem swapBytes_apply_of_ne {a b x : Word} {n : Nat} (mem : Mem)
    (hx : ∀ k < n, x ≠ a + BitVec.ofNat 64 k ∧ x ≠ b + BitVec.ofNat 64 k) :
    swapBytes mem a b n x = mem x := by
  induction n generalizing mem a b with
  | zero => rfl
  | succ n ih =>
    have hfirst := hx 0 (by omega)
    simp only [BitVec.add_zero] at hfirst
    rw [swapBytes, ih _ fun k hk => by
      rw [← ofNat_succ_add, ← ofNat_succ_add]
      exact hx (k + 1) (by omega)]
    rw [Function.update_of_ne hfirst.2, Function.update_of_ne hfirst.1]

/-- The bytes of two objects that do not overlap. -/
theorem swapBytes_apply {a b : Word} {n : Nat} (mem : Mem) (hn : n < 2 ^ 64)
    (hdisjoint : ∀ i < n, ∀ j < n, a + BitVec.ofNat 64 i ≠ b + BitVec.ofNat 64 j) :
    ∀ k < n, swapBytes mem a b n (a + BitVec.ofNat 64 k) = mem (b + BitVec.ofNat 64 k) ∧
      swapBytes mem a b n (b + BitVec.ofNat 64 k) = mem (a + BitVec.ofNat 64 k) := by
  induction n generalizing mem a b with
  | zero => intro k hk; omega
  | succ n ih =>
    have hsmall : ∀ (c : Word) (k : Nat), k < n → c ≠ c + 1 + BitVec.ofNat 64 k := by
      intro c k hk h
      rw [← ofNat_succ_add] at h
      have hzero : BitVec.ofNat 64 (k + 1) = 0 := by simpa using h.symm
      have hnat := congrArg BitVec.toNat hzero
      rw [BitVec.toNat_ofNat, Nat.mod_eq_of_lt (by omega)] at hnat
      exact absurd hnat (by simp)
    have hab : a ≠ b := by simpa using hdisjoint 0 (by omega) 0 (by omega)
    have hcross : ∀ k < n, a ≠ b + 1 + BitVec.ofNat 64 k ∧ b ≠ a + 1 + BitVec.ofNat 64 k := by
      intro k hk
      rw [← ofNat_succ_add, ← ofNat_succ_add]
      have h₁ := hdisjoint 0 (by omega) (k + 1) (by omega)
      have h₂ := hdisjoint (k + 1) (by omega) 0 (by omega)
      simp only [BitVec.add_zero] at h₁ h₂
      exact ⟨h₁, h₂.symm⟩
    have hrest := ih (Function.update (Function.update mem a (mem b)) b (mem a)) (a := a + 1)
      (b := b + 1) (by omega) fun i hi j hj => by
        rw [← ofNat_succ_add, ← ofNat_succ_add]
        exact hdisjoint (i + 1) (by omega) (j + 1) (by omega)
    intro k hk
    cases k with
    | zero =>
      simp only [BitVec.add_zero, swapBytes]
      rw [swapBytes_apply_of_ne _ fun k hk => ⟨hsmall a k hk, (hcross k hk).1⟩,
        swapBytes_apply_of_ne _ fun k hk => ⟨(hcross k hk).2, hsmall b k hk⟩]
      exact ⟨by rw [Function.update_of_ne hab, Function.update_self], Function.update_self _ _ _⟩
    | succ k =>
      obtain ⟨h₁, h₂⟩ := hrest k (by omega)
      rw [ofNat_succ_add, ofNat_succ_add, swapBytes, h₁, h₂]
      have ha := hcross k (by omega)
      rw [Function.update_of_ne (hsmall b k (by omega)).symm, Function.update_of_ne ha.1.symm,
        Function.update_of_ne ha.2.symm, Function.update_of_ne (hsmall a k (by omega)).symm]
      exact ⟨rfl, rfl⟩

/-! ### The array in memory -/

/-- The objects in memory are the elements of an array. -/
def Holds (mem : Mem) (base num size : Word) {s : Set Bytes} (a : ℤ → s) : Prop :=
  ∀ i : ℤ, 0 ≤ i → i < num.toNat → object mem (place base size i) size.toNat = (a i).val

section Steps

variable {base num size : Word} {compar : Compar} {s : Set Bytes} {mem : Mem} {a b : ℤ → s}

theorem Holds.swap (harr : IsArray base num size) (h : Holds mem base num size a) {i j : ℤ}
    (hi₁ : 0 ≤ i) (hi₂ : i < num.toNat) (hj₁ : 0 ≤ j) (hj₂ : j < num.toNat) (hne : i ≠ j) :
    Holds (swapBytes mem (place base size i) (place base size j) size.toNat) base num size
      (a ∘ Equiv.swap i j) := by
  have hswap := swapBytes_apply (a := place base size i) (b := place base size j) mem size.isLt
    fun k hk k' hk' => place_add_ne harr hi₁ hi₂ hj₁ hj₂ hne hk hk'
  intro t ht₁ ht₂
  rw [Function.comp_apply]
  rcases eq_or_ne t i with rfl | hti
  · rw [Equiv.swap_apply_left, ← h j hj₁ hj₂]
    exact List.map_congr_left fun k hk => (hswap k (List.mem_range.mp hk)).1
  · rcases eq_or_ne t j with rfl | htj
    · rw [Equiv.swap_apply_right, ← h i hi₁ hi₂]
      exact List.map_congr_left fun k hk => (hswap k (List.mem_range.mp hk)).2
    · rw [Equiv.swap_apply_of_ne_of_ne hti htj, ← h t ht₁ ht₂]
      refine List.map_congr_left fun k hk => swapBytes_apply_of_ne mem fun k' hk' => ?_
      exact ⟨place_add_ne harr ht₁ ht₂ hi₁ hi₂ hti (List.mem_range.mp hk) hk',
        place_add_ne harr ht₁ ht₂ hj₁ hj₂ htj (List.mem_range.mp hk) hk'⟩

/-- The swap is left out when both scans have stopped at one element. -/
theorem Holds.swap_of_ne (harr : IsArray base num size) (h : Holds mem base num size a) {i j : ℤ}
    (hi₁ : 0 ≤ i) (hi₂ : i < num.toNat) (hj₁ : 0 ≤ j) (hj₂ : j < num.toNat) :
    Holds (if place base size i ≠ place base size j then
      swapBytes mem (place base size i) (place base size j) size.toNat else mem) base num size
      (a ∘ Equiv.swap i j) := by
  rcases eq_or_ne i j with rfl | hne
  · rw [if_neg (by simp), Equiv.swap_self]
    exact h
  · have hplaces : place base size i ≠ place base size j := by
      rwa [ne_eq, place_inj harr (by omega) (by omega) (by omega) (by omega)]
    rw [if_pos hplaces]
    exact h.swap harr hi₁ hi₂ hj₁ hj₂ hne

/-- The comparator on the elements of an array. -/
def below (compar : Compar) (s : Set Bytes) (x y : s) : Prop := (compar x y).toInt < 0

instance decidableBelow (compar : Compar) (s : Set Bytes) : DecidableRel (below compar s) :=
  fun _ _ => inferInstanceAs (Decidable (_ < _))

/-- An address of an element. -/
def IsPlace (base num size p : Word) : Prop := ∃ i : ℤ, 0 ≤ i ∧ i < num.toNat ∧ p = place base size i

variable {m lo hi l r l' r' u v : ℤ}

theorem qsortUp_of_up (hholds : Holds mem base num size a) (hm₁ : 0 ≤ m) (hm₂ : m < num.toNat)
    (hl : 0 ≤ l) (hhi : hi < num.toNat) (hup : Up (below compar s) m hi a l l') {n : Nat}
    (hn : l' - l < n) :
    ∃ t, qsortUp size compar mem (place base size m) n (place base size l) =
        some (place base size l', t) ∧ ∀ p ∈ t, IsPlace base num size p := by
  induction n generalizing l with
  | zero => have := hup.le; omega
  | succ n ih =>
    have hle := hup.le
    have hbound := hup.bound
    have hplaces : ∀ p ∈ [place base size l, place base size m], IsPlace base num size p := by
      intro p hp
      rcases List.mem_pair.mp hp with rfl | rfl
      · exact ⟨l, hl, by omega, rfl⟩
      · exact ⟨m, hm₁, hm₂, rfl⟩
    rw [qsortUp, hholds l hl (by omega), hholds m hm₁ hm₂]
    rcases hle.lt_or_eq with hlt | rfl
    · obtain ⟨t, hrun, ht⟩ := ih (l := l + 1) (by omega)
        ⟨by omega, hbound, fun i h₁ h₂ => hup.below i (by omega) h₂, hup.stop⟩ (by omega)
      rw [if_pos (by exact hup.below l le_rfl hlt), ← place_succ, hrun]
      refine ⟨_, rfl, fun p hp => ?_⟩
      exact (List.mem_append.mp (show p ∈ [_, _] ++ t from hp)).elim (hplaces p) (ht p)
    · rw [if_neg (by exact hup.stop)]
      exact ⟨_, rfl, hplaces⟩

theorem qsortDown_of_down (hcompar : TotalPreorderOn compar s)
    (hholds : Holds mem base num size a) (hm₁ : 0 ≤ m) (hm₂ : m < num.toNat)
    (hr : r < num.toNat) (hlo : 0 ≤ lo) (hdown : Down (below compar s) m lo a r r') {n : Nat}
    (hn : r - r' < n) :
    ∃ t, qsortDown size compar mem (place base size m) n (place base size r) =
        some (place base size r', t) ∧ ∀ p ∈ t, IsPlace base num size p := by
  induction n generalizing r with
  | zero => have := hdown.le; omega
  | succ n ih =>
    have hle := hdown.le
    have hbound := hdown.bound
    have hplaces : ∀ p ∈ [place base size r, place base size m], IsPlace base num size p := by
      intro p hp
      rcases List.mem_pair.mp hp with rfl | rfl
      · exact ⟨r, by omega, hr, rfl⟩
      · exact ⟨m, hm₁, hm₂, rfl⟩
    have habove := hcompar.neg_iff _ (a m).2 _ (a r).2
    rw [qsortDown, hholds r (by omega) hr, hholds m hm₁ hm₂]
    rcases hle.lt_or_eq with hlt | rfl
    · obtain ⟨t, hrun, ht⟩ := ih (r := r - 1) (by omega)
        ⟨by omega, hbound, fun i h₁ h₂ => hdown.above i h₁ (by omega), hdown.stop⟩ (by omega)
      rw [if_pos (habove.mp (hdown.above r hlt le_rfl)), ← place_pred, hrun]
      refine ⟨_, rfl, fun p hp => ?_⟩
      exact (List.mem_append.mp (show p ∈ [_, _] ++ t from hp)).elim (hplaces p) (ht p)
    · rw [if_neg (mt habove.mpr hdown.stop)]
      exact ⟨_, rfl, hplaces⟩

/-- The scan from the right is never in front of the window. -/
theorem lo_le_of_partition {lt : s → s → Prop} (hpart : Partition lt m lo hi a l r b u v)
    (hl : lo ≤ l) (hv : lo ≤ v) : lo ≤ r := by
  cases hpart with
  | done _ => exact hv
  | cross hle _ _ _ => omega
  | swap hle _ _ _ _ => omega

/-- Both scans of one round. -/
theorem qsort_scans (hcompar : TotalPreorderOn compar s) (hlo : 0 ≤ lo) (hhi : hi < num.toNat)
    (hm₁ : lo ≤ m) (hm₂ : m ≤ hi) {rounds : Nat} (hrounds : hi - lo < rounds)
    (hl : lo ≤ l) (hr : r ≤ hi) (hup : Up (below compar s) m hi a l l')
    (hdown : Down (below compar s) m lo a r r') (hholds : Holds mem base num size a) :
    ∃ t t', qsortUp size compar mem (place base size m) rounds (place base size l) =
        some (place base size l', t) ∧
      qsortDown size compar mem (place base size m) rounds (place base size r) =
        some (place base size r', t') ∧ ∀ p ∈ t ++ t', IsPlace base num size p := by
  have hll := hup.le
  have hrr := hdown.le
  have hub := hup.bound
  have hdb := hdown.bound
  obtain ⟨t, hrun, ht⟩ := qsortUp_of_up hholds (by omega) (by omega) (by omega) hhi hup
    (n := rounds) (by omega)
  obtain ⟨t', hrun', ht'⟩ := qsortDown_of_down hcompar hholds (by omega) (by omega) (by omega) hlo
    hdown (n := rounds) (by omega)
  exact ⟨t, t', hrun, hrun', fun p hp => (List.mem_append.mp hp).elim (ht p) (ht' p)⟩

theorem qsortLoop_of_partition (harr : IsArray base num size) (hcompar : TotalPreorderOn compar s)
    (hlo : 0 ≤ lo) (hhi : hi < num.toNat) (hm₁ : lo ≤ m) (hm₂ : m ≤ hi) {rounds : Nat}
    (hrounds : hi - lo < rounds) (hpart : Partition (below compar s) m lo hi a l r b u v)
    (hl₁ : lo ≤ l) (hl₂ : l ≤ hi + 1) (hr : r ≤ hi) (hv : lo ≤ v) {n : Nat} (hpos : 1 ≤ n)
    (hn : r - l + 2 ≤ n) (hholds : Holds mem base num size a) :
    ∃ mem' t, qsortLoop size compar (place base size m) rounds n mem (place base size l)
        (place base size r) = some (mem', place base size u, place base size v, t) ∧
      Holds mem' base num size b ∧ ∀ p ∈ t, IsPlace base num size p := by
  have hr' := lo_le_of_partition hpart hl₁ hv
  induction hpart generalizing mem n with
  | @done a l r hlt =>
    obtain ⟨n, rfl⟩ := Nat.exists_eq_add_of_le' hpos
    have hgt : ¬ place base size l ≤ place base size r := by
      rw [place_le_iff harr (by omega) (by omega) (by omega) (by omega)]
      omega
    refine ⟨mem, [], ?_, hholds, fun p hp => absurd hp List.not_mem_nil⟩
    rw [qsortLoop, if_neg hgt]
  | @cross a l r l' r' hle hup hdown hlt =>
    have hll := hup.le
    have hrr := hdown.le
    have hub := hup.bound
    have hdb := hdown.bound
    obtain ⟨n, rfl⟩ : ∃ k, n = k + 2 := ⟨n - 2, by omega⟩
    obtain ⟨t, t', hrun, hrun', ht⟩ :=
      qsort_scans hcompar hlo hhi hm₁ hm₂ hrounds hl₁ hr hup hdown hholds
    have hfirst : place base size l ≤ place base size r := by
      rwa [place_le_iff harr (by omega) (by omega) (by omega) (by omega)]
    have hcrossed : ¬ place base size l' ≤ place base size r' := by
      rw [place_le_iff harr (by omega) (by omega) (by omega) (by omega)]
      omega
    refine ⟨mem, t ++ t' ++ [], ?_, hholds, fun p hp => ?_⟩
    · rw [qsortLoop, if_pos hfirst, hrun, hrun']
      simp only [Option.bind_some, if_neg hcrossed, qsortLoop, Option.map_some]
    · rw [List.append_nil] at hp
      exact ht p hp
  | @swap a b l r l' r' u v hle hup hdown hle' hrest ih =>
    have hll := hup.le
    have hrr := hdown.le
    have hub := hup.bound
    have hdb := hdown.bound
    obtain ⟨n, rfl⟩ := Nat.exists_eq_add_of_le' hpos
    obtain ⟨t, t', hrun, hrun', ht⟩ :=
      qsort_scans hcompar hlo hhi hm₁ hm₂ hrounds hl₁ hr hup hdown hholds
    have hfirst : place base size l ≤ place base size r := by
      rwa [place_le_iff harr (by omega) (by omega) (by omega) (by omega)]
    have hsecond : place base size l' ≤ place base size r' := by
      rwa [place_le_iff harr (by omega) (by omega) (by omega) (by omega)]
    have hswapped := hholds.swap_of_ne harr (i := l') (j := r') (by omega) (by omega) (by omega)
      (by omega)
    obtain ⟨mem', t'', hloop, hholds', ht''⟩ := ih (n := n) (by omega) (by omega) (by omega) hv
      (by omega) (by omega) hswapped (lo_le_of_partition hrest (by omega) hv)
    refine ⟨mem', t ++ t' ++ place base size l' :: place base size r' :: t'', ?_, hholds',
      fun p hp => ?_⟩
    · rw [qsortLoop, if_pos hfirst, hrun, hrun']
      simp only [Option.bind_some, if_pos hsecond, ← place_succ, ← place_pred, hloop,
        Option.map_some]
    · rcases List.mem_append.mp hp with hp | hp
      · exact ht p hp
      · rcases List.mem_cons.mp hp with rfl | hp
        · exact ⟨l', by omega, by omega, rfl⟩
        · rcases List.mem_cons.mp hp with rfl | hp
          · exact ⟨r', by omega, by omega, rfl⟩
          · exact ht'' p hp

/-! ### The calls -/

/-- A call as it is made, and as a window of the array. -/
structure Matches (base num size : Word) (c : QsortCall) (w : Window s) : Prop where
  base_eq : c.base = place base size w.lo
  num_eq : (c.num.toNat : ℤ) = w.hi + 1 - w.lo
  lo_nonneg : 0 ≤ w.lo
  lo_lt : w.lo < w.hi
  hi_lt : w.hi < num.toNat
  holds : Holds c.mem base num size w.array

theorem place_sub_div (harr : IsArray base num size) {i j : ℤ} (h₁ : 0 ≤ i) (hij : i ≤ j)
    (h₂ : j < num.toNat) :
    (((place base size j - place base size i) / size + 1).toNat : ℤ) = j + 1 - i := by
  have hi := place_toNat harr h₁ (by omega)
  have hj := place_toNat harr (show 0 ≤ j by omega) (by omega)
  have hle := (place_le_iff harr h₁ (by omega) (by omega) (by omega)).mpr hij
  have hnum := num.isLt
  have hmul : j.toNat * size.toNat = i.toNat * size.toNat + (j - i).toNat * size.toNat := by
    rw [← Nat.add_mul]
    congr 1
    omega
  have hdiff : (place base size j - place base size i).toNat = (j - i).toNat * size.toNat := by
    rw [BitVec.toNat_sub_of_le hle, hi, hj]
    omega
  have hdiv : ((place base size j - place base size i) / size).toNat = (j - i).toNat := by
    rw [BitVec.toNat_udiv, hdiff, Nat.mul_div_cancel _ harr.size_pos]
  have hone : (1 : Word).toNat = 1 := rfl
  rw [BitVec.toNat_add, hdiv, hone, Nat.mod_eq_of_lt (by omega)]
  omega

omit num in
theorem pivot_eq {num' : Word} (hnum : (num'.toNat : ℤ) = hi + 1 - lo) :
    place base size lo + num' / 2 * size = place base size (middle lo hi) := by
  rw [half_mul, ← place_natCast, ← place_add, middle]
  congr 2
  push_cast
  omega

omit num in
theorem last_eq {num' : Word} (hnum : (num'.toNat : ℤ) = hi + 1 - lo) (hle : lo ≤ hi) :
    place base size lo + (num' - 1) * size = place base size hi := by
  have hone : (1 : Word).toNat = 1 := rfl
  have hpred : num' - 1 = BitVec.ofNat 64 (num'.toNat - 1) := by
    apply BitVec.eq_of_toNat_eq
    rw [BitVec.toNat_sub_of_le (by rw [BitVec.le_def]; omega), BitVec.toNat_ofNat,
      Nat.mod_eq_of_lt (by have := num'.isLt; omega), hone]
  rw [hpred, ← elementAddr, ← place_natCast, ← place_add]
  congr 1
  omega

/-- What a run leaves behind. -/
structure Ends (base num size : Word) (b : ℤ → s) (ws : List (Window s)) (run : QsortRun) :
    Prop where
  holds : Holds run.mem base num size b
  touched : ∀ p ∈ run.touched, IsPlace base num size p
  calls : List.Forall₂ (Matches base num size) run.calls ws

theorem Ends.of_small (hholds : Holds mem base num size a) :
    Ends base num size a [] ⟨mem, [], []⟩ :=
  ⟨hholds, fun _ hp => absurd hp List.not_mem_nil, .nil⟩

/-- A call that is made when there is something to sort. -/
theorem exists_ends_of_call (harr : IsArray base num size) {ws : List (Window s)}
    (hsorts : Sorts (below compar s) a lo hi b ws) (hlo : 0 ≤ lo) (hle : lo ≤ hi + 1) (hhi₁ : 0 ≤ hi)
    (hhi₂ : hi < num.toNat) {n : Nat} (hholds : Holds mem base num size a)
    (hrun : ∀ num' : Word, lo < hi → (num'.toNat : ℤ) = hi + 1 - lo → ∃ run,
      qsortRun size compar n ⟨mem, place base size lo, num'⟩ = some run ∧
        Ends base num size b ws run) :
    ∃ run, (if place base size lo < place base size hi then
        qsortRun size compar n
          ⟨mem, place base size lo, (place base size hi - place base size lo) / size + 1⟩
        else some ⟨mem, [], []⟩) = some run ∧ Ends base num size b ws run := by
  have hiff := place_lt_iff harr hlo (show lo ≤ num.toNat by omega) hhi₁ (by omega)
  split
  · rename_i hlt
    rw [hiff] at hlt
    exact hrun _ hlt (place_sub_div harr hlo hlt.le hhi₂)
  · rename_i hnot
    rw [hiff] at hnot
    obtain ⟨rfl, rfl⟩ := hsorts.eq_of_le (by omega)
    exact ⟨_, rfl, .of_small hholds⟩

theorem qsortRun_of_sorts (harr : IsArray base num size) (hcompar : TotalPreorderOn compar s)
    {ws : List (Window s)} (hsorts : Sorts (below compar s) a lo hi b ws) (hlo : 0 ≤ lo)
    (hhi : hi < num.toNat) (hle : lo ≤ hi + 1) {num' : Word} (hnum : (num'.toNat : ℤ) = hi + 1 - lo)
    {n : Nat} (hn : num'.toNat < n) (hholds : Holds mem base num size a) :
    ∃ run, qsortRun size compar n ⟨mem, place base size lo, num'⟩ = some run ∧
      Ends base num size b ws run := by
  induction hsorts generalizing mem num' n with
  | @small a lo hi hle' =>
    obtain ⟨n, rfl⟩ := Nat.exists_eq_add_of_lt hn
    have hsmall : num' < 2 := by
      rw [BitVec.lt_def]
      show num'.toNat < 2
      omega
    refine ⟨_, ?_, .of_small hholds⟩
    rw [qsortRun, if_pos hsmall]
  | @split a b c d lo hi u v ws ws' hlt hsplits hleft hright ihleft ihright =>
    obtain ⟨n, rfl⟩ := Nat.exists_eq_add_of_lt hn
    have hbig : ¬ num' < 2 := by
      rw [BitVec.lt_def]
      show ¬ num'.toNat < 2
      omega
    have hu := hsplits.lo_lt
    have hu' := hsplits.u_le
    have hv := hsplits.lo_le
    have hv' := hsplits.v_lt
    have hrounds : hi - lo < (num'.toNat + 1 : Nat) := by omega
    obtain ⟨sorted, t, hloop, hsorted, ht⟩ := qsortLoop_of_partition harr hcompar hlo hhi
      (by unfold middle; omega) (by unfold middle; omega) hrounds hsplits.partition le_rfl hle le_rfl
      hv (n := num'.toNat + 1) (by omega) (by omega) hholds
    obtain ⟨first, hfirst, hends⟩ := exists_ends_of_call harr hleft hlo (by omega) (by omega)
      (by omega) hsorted (n := num'.toNat + n) fun num'' _ hnum'' =>
        ihleft hlo (by omega) (by omega) hnum'' (by omega) hsorted
    obtain ⟨second, hsecond, hends'⟩ := exists_ends_of_call harr hright (by omega) hu' (by omega)
      hhi hends.holds (n := num'.toNat + n) fun num'' _ hnum'' =>
        ihright (by omega) hhi hu' hnum'' (by omega) hends.holds
    refine ⟨⟨second.mem, t ++ first.touched ++ second.touched,
      ⟨mem, place base size lo, num'⟩ :: (first.calls ++ second.calls)⟩, ?_, hends'.holds,
      fun p hp => ?_, .cons ⟨rfl, hnum, hlo, hlt, hhi, hholds⟩ (List.rel_append hends.calls hends'.calls)⟩
    · rw [qsortRun, if_neg hbig]
      simp only [pivot_eq hnum, last_eq hnum hlt.le, hloop, Option.bind_some, hfirst, hsecond,
        Option.map_some]
    · rcases List.mem_append.mp hp with hp | hp
      · exact (List.mem_append.mp hp).elim (ht p) (hends.touched p)
      · exact hends'.touched p hp

end Steps

end AncoreOS.Klibc
