import AncoreOS.Klibc.StringMemory

/-!
# `strlcpy`

`strlcpy` copies a string into a buffer of `n` bytes and cuts it off where the buffer ends
(`StrlcpyContract`).  The counter is decremented before it is looked at, so a buffer of no bytes is
taken for one of `2 ^ 64`.

The buffer may also start in the string.  Then the loop reads what it has written, and does not get
to the null character (`copyUp_read`).  `strlcpy_contract_iff` says in which cases the result is
right.
-/

namespace AncoreOS.Klibc

open ByteMemory ByteStore

/-! ### The code -/

/-- The copying loop, with `n` as it is behind `--n`.  The results are `n`, `d` and `s`. -/
def strlcpyLoop : Nat → Word → Word → Store → Nat × Word × Word × Store
  | 0, d, s, store => (0, d, s, store)
  | n + 1, d, s, store =>
    let c := store.mem s
    let store := store.put d c
    if c = 0 then (n + 1, d + 1, s + 1, store) else strlcpyLoop n (d + 1) (s + 1) store

/-- Behind the null character. -/
def strlcpyRest (m : Mem) : Nat → Word → Option Word
  | 0, _ => none
  | fuel + 1, s => if m s = 0 then some (s + 1) else strlcpyRest m fuel (s + 1)

def strlcpy (dst src n : Word) (store : Store) : Option (Store × Word) :=
  let (left, d, s, store) := strlcpyLoop (n - 1).toNat dst src store
  if left = 0 then
    let store := if n = 0 then store else store.put d 0
    (strlcpyRest store.mem (2 ^ 64) s).map fun s => (store, s - src - 1)
  else some (store, s - src - 1)

/-! ### Contract -/

variable {m : Mem} {dst src n : Word} {str : List (BitVec 8)}

/-- The string up to the size of the buffer, nothing outside, and the length of the string. -/
def StrlcpyContract (m : Mem) (dst src n : Word) (str : List (BitVec 8)) : Prop :=
  ∃ store r, strlcpy dst src n ⟨m, []⟩ = some (store, r) ∧
    (∀ x ∈ store.written, InRange dst n.toNat x) ∧
    (n ≠ 0 → StrAt store.mem dst (str.take (n.toNat - 1))) ∧ r.toNat = str.length

/-- The buffer has a size, and it does not start in the string; or it is the string itself, with
its null character; or it ends where the string does, and what is copied has the distance between
the two for a period. -/
def StrlcpyFits (dst src n : Word) (str : List (BitVec 8)) : Prop :=
  n ≠ 0 ∧ (str.length < (dst - src).toNat ∨ dst = src ∧ str.length < n.toNat ∨
    n.toNat + (dst - src).toNat = str.length + 1 ∧
      ∀ i, i + 1 < n.toNat → str[i % (dst - src).toNat]? = str[i]?)

/-! ### Loops -/

/-- One round later. -/
theorem copyUp_shift (i : Nat) (d s : Word) (store : Store) :
    (copyUp i (d + 1) (s + 1) (store.put d (store.mem s))).mem (s + 1 + BitVec.ofNat 64 i) =
      (copyUp (i + 1) d s store).mem (s + BitVec.ofNat 64 (i + 1)) := by
  rw [add_ofNat_succ, copyUp]

theorem strlcpyLoop_nonzero {k : Nat} {d s : Word} {store : Store}
    (h : ∀ i < k, (copyUp i d s store).mem (s + BitVec.ofNat 64 i) ≠ 0) :
    strlcpyLoop k d s store =
      (0, d + BitVec.ofNat 64 k, s + BitVec.ofNat 64 k, copyUp k d s store) := by
  induction k generalizing d s store with
  | zero => rw [strlcpyLoop, BitVec.add_zero, BitVec.add_zero, copyUp]
  | succ k ih =>
    have hfirst : store.mem s ≠ 0 := by
      have := h 0 (Nat.succ_pos k)
      rwa [BitVec.add_zero] at this
    have hnext : ∀ i < k, (copyUp i (d + 1) (s + 1) (store.put d (store.mem s))).mem
        (s + 1 + BitVec.ofNat 64 i) ≠ 0 := by
      intro i hi
      rw [copyUp_shift]
      exact h (i + 1) (Nat.succ_lt_succ hi)
    simp only [strlcpyLoop]
    rw [if_neg hfirst, ih hnext, add_ofNat_succ, add_ofNat_succ, copyUp]

theorem strlcpyLoop_zero {k j : Nat} (hj : j < k) {d s : Word} {store : Store}
    (h : ∀ i < j, (copyUp i d s store).mem (s + BitVec.ofNat 64 i) ≠ 0)
    (hzero : (copyUp j d s store).mem (s + BitVec.ofNat 64 j) = 0) :
    strlcpyLoop k d s store =
      (k - j, d + BitVec.ofNat 64 (j + 1), s + BitVec.ofNat 64 (j + 1),
        copyUp (j + 1) d s store) := by
  induction k generalizing j d s store with
  | zero => exact absurd hj (Nat.not_lt_zero j)
  | succ k ih =>
    simp only [strlcpyLoop]
    cases j with
    | zero =>
      rw [BitVec.add_zero] at hzero
      rw [if_pos (show store.mem s = 0 from hzero)]
      rfl
    | succ j =>
      have hfirst : store.mem s ≠ 0 := by
        have := h 0 (Nat.succ_pos j)
        rwa [BitVec.add_zero] at this
      have hnext : ∀ i < j, (copyUp i (d + 1) (s + 1) (store.put d (store.mem s))).mem
          (s + 1 + BitVec.ofNat 64 i) ≠ 0 := by
        intro i hi
        rw [copyUp_shift]
        exact h (i + 1) (Nat.succ_lt_succ hi)
      rw [← copyUp_shift] at hzero
      rw [if_neg hfirst, ih (Nat.lt_of_succ_lt_succ hj) hnext hzero, Nat.succ_sub_succ,
        add_ofNat_succ d (j + 1), add_ofNat_succ s (j + 1)]
      rfl

theorem strlcpyRest_eq {j : Nat} {s : Word} (h : ∀ i < j, m (s + BitVec.ofNat 64 i) ≠ 0)
    (hzero : m (s + BitVec.ofNat 64 j) = 0) {fuel : Nat} (hfuel : j < fuel) :
    strlcpyRest m fuel s = some (s + BitVec.ofNat 64 (j + 1)) := by
  induction j generalizing s fuel with
  | zero =>
    rw [BitVec.add_zero] at hzero
    cases fuel with
    | zero => exact absurd hfuel (Nat.not_lt_zero _)
    | succ fuel => rw [strlcpyRest, if_pos hzero]; rfl
  | succ j ih =>
    have hfirst : m s ≠ 0 := by
      have := h 0 (Nat.succ_pos j)
      rwa [BitVec.add_zero] at this
    have hnext : ∀ i < j, m (s + 1 + BitVec.ofNat 64 i) ≠ 0 := by
      intro i hi
      rw [← add_ofNat_succ]
      exact h (i + 1) (Nat.succ_lt_succ hi)
    rw [add_ofNat_succ] at hzero
    cases fuel with
    | zero => exact absurd hfuel (Nat.not_lt_zero _)
    | succ fuel =>
      rw [strlcpyRest, if_neg hfirst, ih hnext hzero (Nat.lt_of_succ_lt_succ hfuel),
        add_ofNat_succ s (j + 1)]

theorem toNat_sub_one (hn : n ≠ 0) : (n - 1).toNat + 1 = n.toNat := by
  have hpos : 0 < n.toNat := by
    rw [Nat.pos_iff_ne_zero]
    exact fun h => hn (BitVec.eq_of_toNat_eq h)
  have hone : (1 : Word).toNat = 1 := rfl
  rw [BitVec.toNat_sub_of_le (by rw [BitVec.le_def, hone]; exact hpos), hone]
  omega

/-- The distance from the start, without the null character. -/
theorem end_sub_start (s : Word) (j : Nat) :
    s + BitVec.ofNat 64 (j + 1) - s - 1 = BitVec.ofNat 64 j := by
  rw [BitVec.add_comm s, BitVec.add_sub_cancel, BitVec.ofNat_add]
  exact BitVec.add_sub_cancel _ _

/-- The null character is copied. -/
theorem strlcpy_whole {store : Store} {j : Nat} (hn : n ≠ 0) (hj : j + 1 < n.toNat)
    (h : ∀ i < j, (copyUp i dst src store).mem (src + BitVec.ofNat 64 i) ≠ 0)
    (hzero : (copyUp j dst src store).mem (src + BitVec.ofNat 64 j) = 0) :
    strlcpy dst src n store = some (copyUp (j + 1) dst src store, BitVec.ofNat 64 j) := by
  have hcount := toNat_sub_one hn
  have hlt : j < (n - 1).toNat := by omega
  simp only [strlcpy, strlcpyLoop_zero hlt h hzero]
  rw [if_neg (by omega), end_sub_start]

/-- The buffer is full, and the rest of the string is skipped. -/
theorem strlcpy_cut {store full : Store} {k j : Nat} (hn : n ≠ 0) (hk : k + 1 = n.toNat)
    (hkj : k ≤ j) (hj : j - k < 2 ^ 64)
    (hfull : full = (copyUp k dst src store).put (dst + BitVec.ofNat 64 k) 0)
    (h : ∀ i < k, (copyUp i dst src store).mem (src + BitVec.ofNat 64 i) ≠ 0)
    (hrest : ∀ i, k ≤ i → i < j → full.mem (src + BitVec.ofNat 64 i) ≠ 0)
    (hzero : full.mem (src + BitVec.ofNat 64 j) = 0) :
    strlcpy dst src n store = some (full, BitVec.ofNat 64 j) := by
  have hcount : (n - 1).toNat = k := by
    have := toNat_sub_one hn
    omega
  have hshift : ∀ i, src + BitVec.ofNat 64 k + BitVec.ofNat 64 i =
      src + BitVec.ofNat 64 (k + i) := by
    intro i
    rw [BitVec.add_assoc, ← BitVec.ofNat_add]
  have hskip : strlcpyRest full.mem (2 ^ 64) (src + BitVec.ofNat 64 k) =
      some (src + BitVec.ofNat 64 k + BitVec.ofNat 64 (j - k + 1)) := by
    refine strlcpyRest_eq (fun i hi => ?_) ?_ hj
    · rw [hshift]
      exact hrest _ (by omega) (by omega)
    · rw [hshift, Nat.add_sub_cancel' hkj]
      exact hzero
  rw [hshift, ← Nat.add_assoc, Nat.add_sub_cancel' hkj] at hskip
  subst hfull
  simp only [strlcpy, hcount, strlcpyLoop_nonzero h, if_true, if_neg hn]
  rw [hskip, Option.map_some, end_sub_start]

/-! ### Cases -/

/-- The reads of the loop. -/
theorem read_eq {i : Nat} (hi : i < 2 ^ 64) :
    (copyUp i dst src ⟨m, []⟩).mem (src + BitVec.ofNat 64 i) =
      m (src + BitVec.ofNat 64 (i % (dst - src).toNat)) := copyUp_read hi dst src ⟨m, []⟩

theorem read_ne_zero (h : StrAt m src str) {i : Nat} (hi : i < 2 ^ 64)
    (hmod : i % (dst - src).toNat < str.length) :
    (copyUp i dst src ⟨m, []⟩).mem (src + BitVec.ofNat 64 i) ≠ 0 := by
  rw [read_eq hi]
  exact h.get_ne_zero hmod

/-- The whole string, with its null character. -/
theorem contract_whole (h : StrAt m src str) (hn : n ≠ 0) (hlen : str.length + 1 < n.toNat)
    (hdist : (dst - src).toNat = 0 ∨ str.length < (dst - src).toNat) :
    StrlcpyContract m dst src n str := by
  have hlt := h.length_lt
  have hmod : ∀ i ≤ str.length, i % (dst - src).toNat = i := by
    intro i hi
    rcases hdist with hzero | hgt
    · rw [hzero, Nat.mod_zero]
    · exact Nat.mod_eq_of_lt (by omega)
  have hread : ∀ i < str.length,
      (copyUp i dst src ⟨m, []⟩).mem (src + BitVec.ofNat 64 i) ≠ 0 := by
    intro i hi
    exact read_ne_zero h (by omega) (by rw [hmod i hi.le]; exact hi)
  have hzero : (copyUp str.length dst src ⟨m, []⟩).mem (src + BitVec.ofNat 64 str.length) = 0 := by
    rw [read_eq hlt, hmod _ le_rfl]
    exact h.terminated
  refine ⟨_, _, strlcpy_whole hn hlen hread hzero, ?_, ?_, ?_⟩
  · intro x hx
    rw [copyUp_written hlt] at hx
    exact (hx.resolve_right List.not_mem_nil).mono hlen.le
  · intro _
    rw [List.take_of_length_le (by omega)]
    have hcopy : ∀ i ≤ str.length, (copyUp (str.length + 1) dst src ⟨m, []⟩).mem
        (dst + BitVec.ofNat 64 i) = m (src + BitVec.ofNat 64 i) := by
      intro i hi
      rw [copyUp_mem_add hlt (Nat.lt_succ_of_le hi), hmod i hi]
    refine ⟨fun i hi => (hcopy i hi.le).trans (h.bytes i hi), h.ne_zero, ?_⟩
    exact (hcopy _ le_rfl).trans h.terminated
  · exact toNat_ofNat_of_lt hlt

/-- As much as the buffer has room for, where the buffer does not start in the string. -/
theorem contract_cut (h : StrAt m src str) (hn : n ≠ 0) {k : Nat} (hk : k + 1 = n.toNat)
    (hle : k ≤ str.length)
    (hdist : str.length < (dst - src).toNat ∨ dst = src ∧ k = str.length) :
    StrlcpyContract m dst src n str := by
  have hlt := h.length_lt
  have hkn := n.isLt
  have hmod : ∀ i < k, i % (dst - src).toNat = i := by
    intro i hi
    rcases hdist with hgt | ⟨rfl, rfl⟩
    · exact Nat.mod_eq_of_lt (by omega)
    · rw [BitVec.sub_self, BitVec.toNat_zero, Nat.mod_zero]
  have hread : ∀ i < k, (copyUp i dst src ⟨m, []⟩).mem (src + BitVec.ofNat 64 i) ≠ 0 := by
    intro i hi
    exact read_ne_zero h (by omega) (by rw [hmod i hi]; omega)
  have hkeep : ∀ i, k ≤ i → i ≤ str.length → (cutOff m dst src k).mem (src + BitVec.ofNat 64 i) =
      m (src + BitVec.ofNat 64 i) := by
    intro i hki hi
    rcases hdist with hgt | ⟨rfl, rfl⟩
    · refine cutOff_mem_of_not_inRange (by omega) fun hin => ?_
      -- Going up from the string, the buffer is behind it.
      obtain ⟨j, hj, heq⟩ := eq_add_of_inRange hin
      rw [eq_add_sub src dst, BitVec.add_assoc, ← BitVec.ofNat_add] at heq
      have := mod_eq_of_add_eq heq
      omega
    · obtain rfl : i = str.length := by omega
      rw [h.terminated, cutOff]
      exact Store.put_mem_self ..
  refine ⟨cutOff m dst src k, BitVec.ofNat 64 str.length,
    strlcpy_cut hn hk hle (by omega) rfl hread ?_ ?_, ?_, ?_, ?_⟩
  · intro i hki hi
    rw [hkeep i hki hi.le]
    exact h.get_ne_zero hi
  · rw [hkeep _ hle le_rfl]
    exact h.terminated
  · intro x hx
    rw [← hk]
    exact cutOff_written (by omega) hx
  · intro _
    rw [← hk, Nat.add_sub_cancel, cutOff_strAt_iff h hle]
    intro i hi
    rw [hmod i hi]
  · exact toNat_ofNat_of_lt hlt

/-- The string itself, cut off: the null character is the new one. -/
theorem strlcpy_self (h : StrAt m src str) (hn : n ≠ 0) {k : Nat} (hk : k + 1 = n.toNat)
    (hlt : k < str.length) :
    strlcpy src src n ⟨m, []⟩ = some (cutOff m src src k, BitVec.ofNat 64 k) := by
  have hlen := h.length_lt
  refine strlcpy_cut hn hk le_rfl (by omega) rfl ?_ (fun i hki hik => absurd hik (by omega)) ?_
  · intro i hi
    exact read_ne_zero h (by omega) (lt_of_le_of_lt (Nat.mod_le _ _) (by omega))
  · rw [cutOff]
    exact Store.put_mem_self ..

/-- A buffer that starts in the string, but not with it: the loop does not see a null character. -/
theorem strlcpy_inside (h : StrAt m src str) (hn : n ≠ 0) {k : Nat} (hk : k + 1 = n.toNat)
    (hpos : 0 < (dst - src).toNat) (hle : (dst - src).toNat ≤ str.length) :
    strlcpy dst src n ⟨m, []⟩ =
      some (cutOff m dst src k, BitVec.ofNat 64 (k + (dst - src).toNat)) := by
  have hlen := h.length_lt
  have hkn := n.isLt
  generalize ho : (dst - src).toNat = o at hpos hle
  have hmod : ∀ i, i % o < str.length := fun i => lt_of_lt_of_le (Nat.mod_lt i hpos) hle
  have hdst : dst = src + BitVec.ofNat 64 o := ho ▸ eq_add_sub src dst
  have hshift : ∀ i, dst + BitVec.ofNat 64 i = src + BitVec.ofNat 64 (o + i) := by
    intro i
    rw [hdst, BitVec.add_assoc, ← BitVec.ofNat_add]
  refine strlcpy_cut hn hk (Nat.le_add_right k o) (by omega) rfl ?_ ?_ ?_
  · intro i hi
    exact read_ne_zero h (by omega) (by rw [ho]; exact hmod i)
  · intro i hki hik
    by_cases hin : o ≤ i
    · -- These have been copied.
      obtain ⟨j, rfl⟩ := Nat.exists_eq_add_of_le hin
      rw [← hshift, cutOff_mem (by omega) (by omega), ho]
      exact h.get_ne_zero (hmod j)
    · have hout : ¬ InRange dst (k + 1) (src + BitVec.ofNat 64 i) := by
        intro hrange
        obtain ⟨j, hj, heq⟩ := eq_add_of_inRange hrange
        rw [hshift] at heq
        have := mod_eq_of_add_eq heq
        omega
      rw [cutOff_mem_of_not_inRange (by omega) hout]
      exact h.get_ne_zero (by omega)
  · rw [Nat.add_comm, ← hshift, cutOff]
    exact Store.put_mem_self ..

/-- A buffer of no bytes is written to. -/
theorem strlcpyLoop_written (k : Nat) (d s : Word) (store : Store) {x : Word}
    (hx : x ∈ store.written) : x ∈ (strlcpyLoop k d s store).2.2.2.written := by
  induction k generalizing d s store with
  | zero => exact hx
  | succ k ih =>
    simp only [strlcpyLoop]
    split
    · exact List.mem_cons_of_mem d hx
    · exact ih _ _ _ (List.mem_cons_of_mem d hx)

theorem strlcpy_zero_writes {store : Store} {r : Word}
    (h : strlcpy dst src 0 ⟨m, []⟩ = some (store, r)) : dst ∈ store.written := by
  obtain ⟨k, hk⟩ : ∃ k, (0 - 1 : Word).toNat = k + 1 := ⟨2 ^ 64 - 2, rfl⟩
  have hfirst : dst ∈ (strlcpyLoop (k + 1) dst src ⟨m, []⟩).2.2.2.written := by
    simp only [strlcpyLoop]
    split
    · exact List.mem_cons_self
    · exact strlcpyLoop_written _ _ _ _ List.mem_cons_self
  simp only [strlcpy, hk, if_true] at h
  split at h
  · obtain ⟨s, -, heq⟩ := Option.map_eq_some_iff.mp h
    rw [← (Prod.mk.inj heq).1]
    exact hfirst
  · rw [← (Prod.mk.inj (Option.some.inj h)).1]
    exact hfirst

theorem contract_ne_zero (h : StrlcpyContract m dst src n str) : n ≠ 0 := by
  rintro rfl
  obtain ⟨store, r, hrun, hwritten, -⟩ := h
  exact inRange_zero dst dst (hwritten dst (strlcpy_zero_writes hrun))

theorem fits_of_contract (h : StrAt m src str) (hcontract : StrlcpyContract m dst src n str) :
    StrlcpyFits dst src n str := by
  have hlen := h.length_lt
  have hnlt := n.isLt
  have hn := contract_ne_zero hcontract
  obtain ⟨k, hk⟩ : ∃ k, k + 1 = n.toNat := ⟨_, toNat_sub_one hn⟩
  refine ⟨hn, ?_⟩
  obtain ⟨store, r, hrun, -, hstr, hr⟩ := hcontract
  by_cases hout : str.length < (dst - src).toNat
  · exact Or.inl hout
  by_cases hsame : dst = src
  · subst hsame
    refine Or.inr (Or.inl ⟨rfl, ?_⟩)
    by_contra hge
    rw [strlcpy_self h hn hk (by omega)] at hrun
    rw [← (Prod.mk.inj (Option.some.inj hrun)).2, toNat_ofNat_of_lt (by omega)] at hr
    omega
  · rw [strlcpy_inside h hn hk (sub_toNat_pos hsame) (by omega)] at hrun
    obtain ⟨rfl, rfl⟩ := Prod.mk.inj (Option.some.inj hrun)
    rw [BitVec.toNat_ofNat] at hr
    have hend : k + (dst - src).toNat = str.length := by omega
    refine Or.inr (Or.inr ⟨by omega, ?_⟩)
    have hcut := hstr hn
    rw [← hk, Nat.add_sub_cancel, cutOff_strAt_iff h (by omega)] at hcut
    intro i hi
    exact hcut i (by omega)

theorem contract_of_fits (h : StrAt m src str) (hfits : StrlcpyFits dst src n str) :
    StrlcpyContract m dst src n str := by
  have hlen := h.length_lt
  have hnlt := n.isLt
  obtain ⟨hn, hfits⟩ := hfits
  obtain ⟨k, hk⟩ : ∃ k, k + 1 = n.toNat := ⟨_, toNat_sub_one hn⟩
  rcases hfits with hout | ⟨rfl, hroom⟩ | ⟨hend, hperiod⟩
  · by_cases hwhole : str.length < k
    · exact contract_whole h hn (by omega) (Or.inr hout)
    · exact contract_cut h hn hk (by omega) (Or.inl hout)
  · by_cases hwhole : str.length < k
    · exact contract_whole h hn (by omega) (Or.inl (by rw [BitVec.sub_self]; rfl))
    · exact contract_cut h hn hk (by omega) (Or.inr ⟨rfl, by omega⟩)
  · by_cases hsame : dst = src
    · subst hsame
      rw [BitVec.sub_self, BitVec.toNat_zero] at hend
      exact contract_cut h hn hk (by omega) (Or.inr ⟨rfl, by omega⟩)
    · have hlast : k + (dst - src).toNat = str.length := by omega
      refine ⟨_, _, strlcpy_inside h hn hk (sub_toNat_pos hsame) (by omega), ?_, ?_, ?_⟩
      · intro x hx
        rw [← hk]
        exact cutOff_written (by omega) hx
      · intro _
        rw [← hk, Nat.add_sub_cancel, cutOff_strAt_iff h (by omega)]
        exact fun i hi => hperiod i (by omega)
      · rw [hlast, toNat_ofNat_of_lt hlen]

/-- **When `strlcpy` does what it is for.** -/
theorem strlcpy_contract_iff (m : Mem) (dst src n : Word) (str : List (BitVec 8))
    (h : StrAt m src str) : StrlcpyContract m dst src n str ↔ StrlcpyFits dst src n str :=
  ⟨fits_of_contract h, contract_of_fits h⟩

theorem strlcpy_contract_iff_exampleAbC : StrAt exampleAbC 0x1000 [0x61, 0x62] ∧
    (StrlcpyContract exampleAbC 0x3000 0x1000 4 [0x61, 0x62] ↔
      StrlcpyFits 0x3000 0x1000 4 [0x61, 0x62]) :=
  ⟨exampleAbC_ab, strlcpy_contract_iff exampleAbC 0x3000 0x1000 4 [0x61, 0x62] exampleAbC_ab⟩

/-- With a buffer of no bytes, the string is copied all the same. -/
theorem strlcpy_zero_not_contract : ¬ ∀ (m : Mem) (dst src n : Word) (str : List (BitVec 8)),
    StrAt m src str → StrlcpyContract m dst src n str := by
  intro h
  exact contract_ne_zero (h exampleAbC 0x3000 0x1000 0 [0x61, 0x62] exampleAbC_ab) rfl

end AncoreOS.Klibc
