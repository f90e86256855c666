import AncoreOS.Klibc.QsortSteps

/-!
# What `qsort` does

`qsort` ends, looks at nothing but elements of the array and leaves a permutation of it
(`qsort_perm`).  It does not always leave a sorted array.  The pivot is kept as an address, and
when a swap moves another element to it, the rest is compared with that element
(`qsort_unsorted`).  `QsortCall.Cuts` is the condition on what a call is given under which no
element comes to the wrong side, and the array is sorted exactly when every call is given such
an array (`qsort_sorted_iff`).
-/

namespace AncoreOS.Klibc

open ByteMemory Quicksort

/-! ### The array and the run -/

section Run

variable {base num size : Word} {compar : Compar} {mem : Mem}

theorem TotalPreorderOn.exists_key {s : Set Bytes} (hcompar : TotalPreorderOn compar s) :
    ∃ (κ : Type) (_ : LinearOrder κ) (key : s → κ), ∀ x y, below compar s x y ↔ key x < key y := by
  have hneg : ∀ x y : s, (compar x y).toInt < 0 ↔ 0 < (compar y x).toInt :=
    fun x y => hcompar.neg_iff x x.2 y y.2
  have hle : ∀ x y : s, ¬ below compar s y x ↔ (compar x y).toInt ≤ 0 := by
    intro x y
    have := hneg y x
    unfold below
    omega
  apply Quicksort.exists_key
  · intro x y hxy
    rw [hle]
    exact Int.le_of_lt hxy
  · intro x y z
    rw [hle, hle, hle]
    exact hcompar.trans x x.2 y y.2 z z.2

theorem object_place_natCast (mem : Mem) (base size : Word) (i : Nat) :
    object mem (place base size i) size.toNat = element mem base size i := by
  rw [place_natCast, element]

/-- The elements of an array in memory. -/
theorem exists_holds (hnum : 0 < num.toNat) :
    ∃ a : ℤ → {x | x ∈ elements mem base num size}, Holds mem base num size a := by
  have hmem : ∀ i < num.toNat, element mem base size i ∈ elements mem base num size :=
    fun i hi => List.mem_map.mpr ⟨i, List.mem_range.mpr hi, rfl⟩
  refine ⟨fun i => if h : i.toNat < num.toNat then ⟨_, hmem i.toNat h⟩ else ⟨_, hmem 0 hnum⟩, ?_⟩
  intro i h₁ h₂
  have hlt : i.toNat < num.toNat := by omega
  simp only [dif_pos hlt]
  obtain ⟨n, rfl⟩ := Int.eq_ofNat_of_zero_le h₁
  exact object_place_natCast mem base size n

theorem Holds.elements_eq {s : Set Bytes} {a : ℤ → s} (h : Holds mem base num size a) :
    elements mem base num size = ((List.range num.toNat).map fun i : Nat => a i).map (·.val) := by
  rw [elements, List.map_map]
  refine List.map_congr_left fun i hi => ?_
  rw [← object_place_natCast, h i (by omega) (by have := List.mem_range.mp hi; omega)]
  rfl

/-- The run of `qsort` and the sort it performs. -/
theorem exists_run (harr : IsArray base num size)
    (hcompar : TotalPreorderOn compar {x | x ∈ elements mem base num size})
    (hnum : 0 < num.toNat) :
    ∃ (a b : ℤ → {x | x ∈ elements mem base num size}) (ws : List (Window _)) (run : QsortRun),
      qsort mem base num size compar = some run ∧ Holds mem base num size a ∧
      PermOn 0 (num.toNat - 1) a b ∧ Ends base num size b ws run ∧
      (SortedOn (below compar _) b 0 (num.toNat - 1) ↔ ∀ w ∈ ws, w.Cuts (below compar _)) := by
  obtain ⟨κ, _, key, hkey⟩ := hcompar.exists_key
  obtain ⟨a, ha⟩ : ∃ a : ℤ → {x | x ∈ elements mem base num size}, Holds mem base num size a :=
    exists_holds hnum
  obtain ⟨b, ws, hsorts, hiff⟩ := exists_sorts hkey a 0 (num.toNat - 1)
  have hcount : (num.toNat : ℤ) = (num.toNat : ℤ) - 1 + 1 - 0 := by omega
  obtain ⟨run, hrun, hends⟩ := qsortRun_of_sorts harr hcompar hsorts le_rfl (by omega) (by omega)
    hcount (Nat.lt_succ_self _) ha
  rw [place_zero] at hrun
  exact ⟨a, b, ws, run, hrun, ha, hsorts.perm, hends, hiff⟩

theorem qsort_of_num_eq_zero (hnum : num.toNat = 0) :
    qsort mem base num size compar = some ⟨mem, [], []⟩ := by
  obtain rfl : num = 0 := BitVec.eq_of_toNat_eq hnum
  rfl

end Run

/-- **`qsort` ends, looks at nothing but elements of the array, and leaves a permutation of it.** -/
theorem qsort_perm (mem : Mem) (base num size : Word) (compar : Compar)
    (harr : IsArray base num size)
    (hcompar : TotalPreorderOn compar {x | x ∈ elements mem base num size}) :
    ∃ run, qsort mem base num size compar = some run ∧
      (∀ p ∈ run.touched, ∃ i < num.toNat, p = elementAddr base size i) ∧
      (elements run.mem base num size).Perm (elements mem base num size) := by
  rcases Nat.eq_zero_or_pos num.toNat with hzero | hpos
  · refine ⟨_, qsort_of_num_eq_zero hzero, fun p hp => absurd hp List.not_mem_nil, ?_⟩
    exact List.Perm.refl _
  · obtain ⟨a, b, ws, run, hrun, ha, hperm, hends, -⟩ := exists_run harr hcompar hpos
    refine ⟨run, hrun, fun p hp => ?_, ?_⟩
    · obtain ⟨i, h₁, h₂, rfl⟩ := hends.touched p hp
      obtain ⟨n, rfl⟩ := Int.eq_ofNat_of_zero_le h₁
      exact ⟨n, by omega, place_natCast base size n⟩
    · rw [ha.elements_eq, hends.holds.elements_eq]
      exact hperm.perm_map.map _

/-- An array of four bytes. -/
theorem qsort_perm_four : IsArray 0x1000 4 1 ∧ ∃ run,
    qsort (fun p => [5, 4, 1, 2].getD (p.toNat - 0x1000) 0) 0x1000 4 1 compareBytes = some run ∧
      (∀ p ∈ run.touched, ∃ i < 4, p = elementAddr 0x1000 1 i) ∧
      (elements run.mem 0x1000 4 1).Perm
        (elements (fun p => [5, 4, 1, 2].getD (p.toNat - 0x1000) 0) 0x1000 4 1) := by
  have harr : IsArray 0x1000 4 1 := ⟨by decide, by decide⟩
  exact ⟨harr, qsort_perm _ _ _ _ _ harr (totalPreorderOn_compareBytes _)⟩

/-! ### Sorting -/

/-- The array that a call is given, as a window. -/
def QsortCall.window (size : Word) (c : QsortCall) : Window Bytes where
  array := fun i => object c.mem (place c.base size i) size.toNat
  lo := 0
  hi := c.num.toNat - 1

/-- A call that does not put any element on the wrong side of the elements that it has compared
with another pivot: a condition on the array that it is given. -/
def QsortCall.Cuts (size : Word) (compar : Compar) (c : QsortCall) : Prop :=
  (c.window size).Cuts fun x y => (compar x y).toInt < 0

theorem Matches.cuts_iff {base num size : Word} {compar : Compar} {s : Set Bytes} {c : QsortCall}
    {w : Window s} (h : Matches base num size c w) :
    c.Cuts size compar ↔ w.Cuts (below compar s) := by
  have hnum := h.num_eq
  have hlt := h.lo_lt
  have hval : ∀ i, w.lo ≤ i → i ≤ w.hi →
      object c.mem (place c.base size (i + -w.lo)) size.toNat = (w.array i).val := by
    intro i h₁ h₂
    have hlo := h.lo_nonneg
    have hhi := h.hi_lt
    rw [h.base_eq, ← place_add, show w.lo + (i + -w.lo) = i by ring,
      h.holds i (by omega) (by omega)]
  constructor
  · intro hcuts
    refine Window.Cuts.transfer (s := w.lo) hcuts (zero_add _).symm ?_ ?_ fun i j h₁ h₂ h₃ h₄ => ?_
    · show w.hi = c.num.toNat - 1 + w.lo
      omega
    · show 0 < (c.num.toNat : ℤ) - 1
      omega
    · have hi := hval (i + w.lo) (by have : 0 ≤ i := h₁; omega) (by have : i ≤ c.num.toNat - 1 := h₂; omega)
      have hj := hval (j + w.lo) (by have : 0 ≤ j := h₃; omega) (by have : j ≤ c.num.toNat - 1 := h₄; omega)
      rw [add_neg_cancel_right] at hi hj
      simp only [QsortCall.window, below, hi, hj]
  · intro hcuts
    refine Window.Cuts.transfer (s := -w.lo) hcuts (add_neg_cancel _).symm ?_ hlt
      fun i j h₁ h₂ h₃ h₄ => ?_
    · show (c.num.toNat : ℤ) - 1 = w.hi + -w.lo
      omega
    · simp only [QsortCall.window, below, hval i h₁ h₂, hval j h₃ h₄]

theorem forall₂_cuts_iff {base num size : Word} {compar : Compar} {s : Set Bytes}
    {cs : List QsortCall} {ws : List (Window s)} (h : List.Forall₂ (Matches base num size) cs ws) :
    (∀ c ∈ cs, c.Cuts size compar) ↔ ∀ w ∈ ws, w.Cuts (below compar s) := by
  induction h with
  | nil => simp
  | cons hmatch _ ih => rw [List.forall_mem_cons, List.forall_mem_cons, ih, hmatch.cuts_iff]

theorem Holds.sortedArray_iff {base num size : Word} {compar : Compar} {mem : Mem} {s : Set Bytes}
    (hcompar : TotalPreorderOn compar s) {b : ℤ → s} (h : Holds mem base num size b) :
    SortedArray compar mem base num size ↔ SortedOn (below compar s) b 0 (num.toNat - 1) := by
  have hle : ∀ i : Nat, i < num.toNat - 1 →
      ((compar (element mem base size i) (element mem base size (i + 1))).toInt ≤ 0 ↔
        ¬ below compar s (b (i + 1)) (b i)) := by
    intro i hi
    have hneg := hcompar.neg_iff _ (b (i + 1)).2 _ (b i).2
    have hfirst := h i (by omega) (by omega)
    have hsecond := h (i + 1 : Nat) (by omega) (by omega)
    rw [object_place_natCast] at hfirst hsecond
    rw [hfirst, hsecond, below]
    push_cast
    omega
  constructor
  · intro hsorted i h₁ h₂
    obtain ⟨n, rfl⟩ := Int.eq_ofNat_of_zero_le h₁
    exact (hle n (by omega)).mp (hsorted n (by omega))
  · intro hsorted i hi
    exact (hle i hi).mpr (hsorted i (by omega) (by omega))

/-- **`qsort` leaves a sorted array exactly when every call cuts the array it is given.** -/
theorem qsort_sorted_iff (mem : Mem) (base num size : Word) (compar : Compar)
    (harr : IsArray base num size)
    (hcompar : TotalPreorderOn compar {x | x ∈ elements mem base num size}) :
    ∃ run, qsort mem base num size compar = some run ∧
      (SortedArray compar run.mem base num size ↔ ∀ c ∈ run.calls, c.Cuts size compar) := by
  rcases Nat.eq_zero_or_pos num.toNat with hzero | hpos
  · refine ⟨_, qsort_of_num_eq_zero hzero, fun _ c hc => absurd hc List.not_mem_nil, ?_⟩
    intro _ i hi
    omega
  · obtain ⟨a, b, ws, run, hrun, _, _, hends, hiff⟩ := exists_run harr hcompar hpos
    refine ⟨run, hrun, ?_⟩
    rw [hends.holds.sortedArray_iff hcompar, hiff, forall₂_cuts_iff hends.calls]

theorem qsort_sorted_iff_four : IsArray 0x1000 4 1 ∧ ∃ run,
    qsort (fun p => [2, 1, 4, 5].getD (p.toNat - 0x1000) 0) 0x1000 4 1 compareBytes = some run ∧
      (SortedArray compareBytes run.mem 0x1000 4 1 ↔ ∀ c ∈ run.calls, c.Cuts 1 compareBytes) := by
  have harr : IsArray 0x1000 4 1 := ⟨by decide, by decide⟩
  exact ⟨harr, qsort_sorted_iff _ _ _ _ _ harr (totalPreorderOn_compareBytes _)⟩

/-- The bytes 5, 4, 1 and 2.  The pivot 1 is swapped with 5, then 4 is compared with 5, and stays
in front of 2, which was compared with 1. -/
theorem qsort_unsorted :
    ¬ ∀ (mem : Mem) (base num size : Word) (compar : Compar), IsArray base num size →
      TotalPreorderOn compar {x | x ∈ elements mem base num size} →
      ∀ run, qsort mem base num size compar = some run →
        SortedArray compar run.mem base num size := by
  intro h
  have hrun : ((qsort (fun p => [5, 4, 1, 2].getD (p.toNat - 0x1000) 0) 0x1000 4 1 compareBytes).map
      fun run => decide (SortedArray compareBytes run.mem 0x1000 4 1)) = some false := by
    decide +kernel
  obtain ⟨run, heq, hfalse⟩ := Option.map_eq_some_iff.mp hrun
  exact of_decide_eq_false hfalse (h _ _ _ _ _ ⟨by decide, by decide⟩
    (totalPreorderOn_compareBytes _) run heq)

end AncoreOS.Klibc
