import AncoreOS.Klibc.Sort

/-!
# What `bsearch` finds

The key is compared with one element of the part that is left, and the part in front of it or
the part behind it goes.  In a sorted array the comparisons of the key come in three runs, above,
equal and below (`InRuns`), and this is all that the search needs.
-/

namespace AncoreOS.Klibc

open ByteMemory

/-! ### The search -/

/-- The key is above the first elements, then equal, then below. -/
def InRuns (compar : Compar) (mem : Mem) (key : Bytes) (base size : Word) (n : Nat) : Prop :=
  ∀ i j, i < j → j < n →
    (0 < (compar key (element mem base size j)).toInt →
      0 < (compar key (element mem base size i)).toInt) ∧
    ((compar key (element mem base size i)).toInt < 0 →
      (compar key (element mem base size j)).toInt < 0)

variable {compar : Compar} {mem : Mem} {key : Bytes} {base size : Word}

theorem InRuns.drop {n k : Nat} (h : InRuns compar mem key base size n) (hk : k ≤ n) :
    InRuns compar mem key (elementAddr base size k) size (n - k) := by
  intro i j hij hj
  rw [element_add, element_add]
  exact h (k + i) (k + j) (by omega) (by omega)

theorem InRuns.take {n k : Nat} (h : InRuns compar mem key base size n) (hk : k ≤ n) :
    InRuns compar mem key base size k :=
  fun i j hij hj => h i j hij (by omega)

/-- What a search of `n` elements comes to. -/
structure Found (compar : Compar) (mem : Mem) (key : Bytes) (base size : Word) (n : Nat)
    (r : Word × List Word) : Prop where
  result : (∃ i < n, r.1 = elementAddr base size i ∧ compar key (element mem base size i) = 0) ∨
    r.1 = 0 ∧ ∀ i < n, compar key (element mem base size i) ≠ 0
  compared : ∀ p ∈ r.2, ∃ i < n, p = elementAddr base size i

/-- The part behind the element `k`. -/
theorem Found.of_drop {n k : Nat} {r : Word × List Word} (hk : k < n)
    (h : Found compar mem key (elementAddr base size (k + 1)) size (n - (k + 1)) r)
    (hfront : ∀ i ≤ k, compar key (element mem base size i) ≠ 0) :
    Found compar mem key base size n (r.1, elementAddr base size k :: r.2) where
  result := by
    rcases h.result with ⟨i, hi, hr, hzero⟩ | ⟨hr, hne⟩
    · rw [elementAddr_add] at hr
      rw [element_add] at hzero
      exact Or.inl ⟨k + 1 + i, by omega, hr, hzero⟩
    · refine Or.inr ⟨hr, fun i hi => ?_⟩
      by_cases hik : i ≤ k
      · exact hfront i hik
      · have hback := hne (i - (k + 1)) (by omega)
        rwa [element_add, show k + 1 + (i - (k + 1)) = i by omega] at hback
  compared := by
    intro p hp
    rcases List.mem_cons.mp hp with rfl | hp
    · exact ⟨k, hk, rfl⟩
    · obtain ⟨i, hi, rfl⟩ := h.compared p hp
      exact ⟨k + 1 + i, by omega, elementAddr_add base size (k + 1) i⟩

/-- The part in front of the element `k`. -/
theorem Found.of_take {n k : Nat} {r : Word × List Word} (hk : k < n)
    (h : Found compar mem key base size k r)
    (hback : ∀ i, k ≤ i → i < n → compar key (element mem base size i) ≠ 0) :
    Found compar mem key base size n (r.1, elementAddr base size k :: r.2) where
  result := by
    rcases h.result with ⟨i, hi, hr, hzero⟩ | ⟨hr, hne⟩
    · exact Or.inl ⟨i, by omega, hr, hzero⟩
    · refine Or.inr ⟨hr, fun i hi => ?_⟩
      by_cases hik : i < k
      · exact hne i hik
      · exact hback i (by omega) hi
  compared := by
    intro p hp
    rcases List.mem_cons.mp hp with rfl | hp
    · exact ⟨k, hk, rfl⟩
    · obtain ⟨i, hi, rfl⟩ := h.compared p hp
      exact ⟨i, by omega, rfl⟩

theorem elementAddr_succ (base size : Word) (i : Nat) :
    elementAddr base size i + size = elementAddr base size (i + 1) := by
  rw [← elementAddr_add]
  simp [elementAddr]

/-- What is behind the middle element. -/
theorem sub_half_toNat {num : Word} (hpos : 0 < num.toNat) :
    (num - num / 2 - 1).toNat = num.toNat - (num.toNat / 2 + 1) := by
  have hhalf : (num / 2).toNat = num.toNat / 2 := BitVec.toNat_udiv
  have hone : (1 : Word).toNat = 1 := rfl
  have hrest : (num - num / 2).toNat = num.toNat - num.toNat / 2 := by
    rw [BitVec.toNat_sub_of_le (by rw [BitVec.le_def]; omega), hhalf]
  rw [BitVec.toNat_sub_of_le (by rw [BitVec.le_def, hrest]; omega), hrest, hone]
  omega

theorem bsearchLoop_found {n : Nat} {num : Word} (hn : num.toNat < n)
    (hruns : InRuns compar mem key base size num.toNat) :
    ∃ r, bsearchLoop mem key size compar n base num = some r ∧
      Found compar mem key base size num.toNat r := by
  induction n generalizing base num with
  | zero => omega
  | succ n ih =>
    by_cases hpos : 0 < num
    · have hnum : 0 < num.toNat := hpos
      have hhalf : num.toNat / 2 < num.toNat := by omega
      simp only [bsearchLoop, if_pos hpos, half_mul]
      rw [← element]
      by_cases hzero : compar key (element mem base size (num.toNat / 2)) = 0
      · rw [if_pos hzero]
        refine ⟨_, rfl, Or.inl ⟨num.toNat / 2, hhalf, rfl, hzero⟩, fun p hp => ?_⟩
        exact ⟨num.toNat / 2, hhalf, List.mem_singleton.mp hp⟩
      · have hint : (compar key (element mem base size (num.toNat / 2))).toInt ≠ 0 := by
          intro h
          exact hzero (BitVec.eq_of_toInt_eq (by simpa using h))
        have hhalfNat : (num / 2).toNat = num.toNat / 2 := BitVec.toNat_udiv
        rw [if_neg hzero]
        by_cases hgt : 0 < (compar key (element mem base size (num.toNat / 2))).toInt
        · have hrest := sub_half_toNat hnum
          rw [if_pos hgt, elementAddr_succ]
          have hdrop : InRuns compar mem key (elementAddr base size (num.toNat / 2 + 1)) size
              (num - num / 2 - 1).toNat := by
            rw [hrest]
            exact hruns.drop (by omega)
          obtain ⟨r, hrun, hfound⟩ := ih (by omega) hdrop
          rw [hrest] at hfound
          refine ⟨_, by rw [hrun]; rfl, hfound.of_drop hhalf fun i hi hzero' => ?_⟩
          rcases hi.lt_or_eq with hlt | rfl
          · have := (hruns i (num.toNat / 2) hlt hhalf).1 hgt
            rw [hzero'] at this
            exact absurd this (by decide)
          · exact hzero hzero'
        · rw [if_neg hgt]
          have htake : InRuns compar mem key base size (num / 2).toNat := by
            rw [hhalfNat]
            exact hruns.take (by omega)
          obtain ⟨r, hrun, hfound⟩ := ih (by omega) htake
          rw [hhalfNat] at hfound
          refine ⟨_, by rw [hrun]; rfl, hfound.of_take hhalf fun i hi hin hzero' => ?_⟩
          rcases hi.lt_or_eq with hlt | rfl
          · have := (hruns (num.toNat / 2) i hlt hin).2 (by omega)
            rw [hzero'] at this
            exact absurd this (by decide)
          · exact hzero hzero'
    · have hnum : num.toNat = 0 := by
        have : ¬ 0 < num.toNat := hpos
        omega
      simp only [bsearchLoop, if_neg hpos]
      refine ⟨_, rfl, Or.inr ⟨rfl, fun i hi => by omega⟩, fun p hp => absurd hp List.not_mem_nil⟩

/-! ### Sorted arrays -/

theorem element_mem_elements {num : Word} {i : Nat} (hi : i < num.toNat) :
    element mem base size i ∈ elements mem base num size :=
  List.mem_map.mpr ⟨i, List.mem_range.mpr hi, rfl⟩

theorem SortedArray.le {num : Word} {s : Set Bytes} (hcompar : TotalPreorderOn compar s)
    (hs : ∀ x ∈ elements mem base num size, x ∈ s)
    (hsorted : SortedArray compar mem base num size) {i j : Nat} (hij : i < j)
    (hj : j < num.toNat) :
    (compar (element mem base size i) (element mem base size j)).toInt ≤ 0 := by
  have hmem : ∀ k < num.toNat, element mem base size k ∈ s :=
    fun k hk => hs _ (element_mem_elements hk)
  induction j with
  | zero => omega
  | succ j ih =>
    have hnext := hsorted j (by omega)
    rcases (Nat.lt_succ_iff_lt_or_eq.mp hij) with hlt | rfl
    · exact hcompar.trans _ (hmem i (by omega)) _ (hmem j (by omega)) _ (hmem (j + 1) hj)
        (ih hlt (by omega)) hnext
    · exact hnext

theorem inRuns_of_sorted {num : Word}
    (hcompar : TotalPreorderOn compar (insert key {x | x ∈ elements mem base num size}))
    (hsorted : SortedArray compar mem base num size) :
    InRuns compar mem key base size num.toNat := by
  have hkey : key ∈ insert key {x | x ∈ elements mem base num size} := Set.mem_insert _ _
  have hmem : ∀ k < num.toNat, element mem base size k ∈
      insert key {x | x ∈ elements mem base num size} :=
    fun k hk => Set.mem_insert_of_mem _ (element_mem_elements hk)
  intro i j hij hj
  have hle := hsorted.le hcompar (fun x hx => Set.mem_insert_of_mem _ hx) hij hj
  constructor
  · intro hgt
    by_contra hnot
    have := hcompar.trans _ hkey _ (hmem i (by omega)) _ (hmem j hj) (by omega) hle
    omega
  · intro hlt
    by_contra hnot
    have hback := hcompar.neg_iff _ hkey _ (hmem j hj)
    have hfront := hcompar.neg_iff _ hkey _ (hmem i (by omega))
    have := hcompar.trans _ (hmem i (by omega)) _ (hmem j hj) _ hkey hle (by omega)
    omega

/-- **`bsearch` finds an element that compares equal to the key when there is one**, returns a
null pointer when there is none, and looks at nothing but elements of the array. -/
theorem bsearch_finds (compar : Compar) (mem : Mem) (key : Bytes) (base num size : Word)
    (hcompar : TotalPreorderOn compar (insert key {x | x ∈ elements mem base num size}))
    (hsorted : SortedArray compar mem base num size) :
    ∃ p compared, bsearch mem key base num size compar = some (p, compared) ∧
      ((∃ i < num.toNat, p = elementAddr base size i ∧
          compar key (element mem base size i) = 0) ↔
        ∃ i < num.toNat, compar key (element mem base size i) = 0) ∧
      ((¬ ∃ i < num.toNat, compar key (element mem base size i) = 0) → p = 0) ∧
      ∀ q ∈ compared, ∃ i < num.toNat, q = elementAddr base size i := by
  obtain ⟨⟨p, compared⟩, hrun, hfound⟩ := bsearchLoop_found (Nat.lt_succ_self num.toNat)
    (inRuns_of_sorted hcompar hsorted)
  refine ⟨p, compared, hrun, ⟨?_, ?_⟩, ?_, hfound.compared⟩
  · rintro ⟨i, hi, _, hzero⟩
    exact ⟨i, hi, hzero⟩
  · rintro ⟨i, hi, hzero⟩
    exact hfound.result.elim id fun hnone => absurd hzero (hnone.2 i hi)
  · intro hnone
    rcases hfound.result with ⟨i, hi, _, hzero⟩ | ⟨hnull, _⟩
    · exact absurd ⟨i, hi, hzero⟩ hnone
    · exact hnull

theorem bsearch_finds_three :
    ∃ p compared, bsearch (fun a => a.setWidth 8) [3] 0x1001 5 1 compareBytes = some (p, compared) ∧
      ((∃ i < 5, p = elementAddr 0x1001 1 i ∧
          compareBytes [3] (element (fun a => a.setWidth 8) 0x1001 1 i) = 0) ↔
        ∃ i < 5, compareBytes [3] (element (fun a => a.setWidth 8) 0x1001 1 i) = 0) ∧
      ((¬ ∃ i < 5, compareBytes [3] (element (fun a => a.setWidth 8) 0x1001 1 i) = 0) → p = 0) ∧
      ∀ q ∈ compared, ∃ i < 5, q = elementAddr 0x1001 1 i :=
  bsearch_finds compareBytes (fun a => a.setWidth 8) [3] 0x1001 5 1
    (totalPreorderOn_compareBytes _) (by decide)

end AncoreOS.Klibc
