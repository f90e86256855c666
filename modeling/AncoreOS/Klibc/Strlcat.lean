import AncoreOS.Klibc.StringMemory

/-!
# `strlcat`

`strlcat` appends a string to the one in a buffer of `size` bytes, and cuts it off where the buffer
ends (`StrlcatContract`).

`size - dl` is taken of unsigned numbers.  Where the string in the buffer is longer than `size`, the
difference wraps, and the string is appended as if there was room for it.  The other case that goes
wrong is that of two strings that end in the same null character: it is overwritten before it is
copied (`strlcat_contract_iff`).
-/

namespace AncoreOS.Klibc

open ByteMemory ByteStore

/-! ### The code -/

def strlcat (dst src size : Word) (store : Store) : Option (Store × Word) :=
  (strlen store.mem src).bind fun sl =>
    (strlen store.mem dst).map fun dl =>
      if dl = size then (store, size + sl)
      else if sl.toNat < (size - dl).toNat then
        ((memcpy (dst + dl) src (sl + 1) store).1, sl + dl)
      else
        ((memcpy (dst + dl) src (size - dl - 1) store).1.put (dst + (size - 1)) 0, sl + dl)

/-! ### Contract -/

variable {m : Mem} {dst src size : Word} {d s : List (BitVec 8)}

/-- Both strings up to the size of the buffer, nothing outside, and the length of both. -/
def StrlcatContract (m : Mem) (dst src size : Word) (d s : List (BitVec 8)) : Prop :=
  ∃ store r, strlcat dst src size ⟨m, []⟩ = some (store, r) ∧
    (∀ x ∈ store.written, InRange dst size.toNat x) ∧
    (d.length < size.toNat → StrAt store.mem dst ((d ++ s).take (size.toNat - 1))) ∧
    (size.toNat ≤ d.length → store.mem = m) ∧
    r.toNat = min size.toNat d.length + s.length

/-- The string in the buffer is not longer than `size`, a `size_t` has room for both lengths, and
what is copied as a whole does not end with the null character that is overwritten. -/
def StrlcatFits (dst src size : Word) (d s : List (BitVec 8)) : Prop :=
  d.length ≤ size.toNat ∧ d.length + s.length < 2 ^ 64 ∧
    ¬ (dst + BitVec.ofNat 64 d.length = src + BitVec.ofNat 64 s.length ∧ s ≠ [] ∧
      d.length + s.length < size.toNat)

/-! ### Cases -/

/-- Where the copy starts, seen from the string that is copied. -/
theorem end_distance (hd : StrAt m dst d) (hs : StrAt m src s) :
    s.length < (dst + BitVec.ofNat 64 d.length - src).toNat ∨
      (dst + BitVec.ofNat 64 d.length - src).toNat = s.length := by
  by_contra h
  rw [not_or] at h
  -- Otherwise there is a null character in the string.
  have hzero := hd.terminated
  rw [eq_add_sub src (dst + BitVec.ofNat 64 d.length)] at hzero
  exact h.2 (hs.eq_length (by omega) hzero)

theorem end_eq_iff (hs : s.length < 2 ^ 64) :
    dst + BitVec.ofNat 64 d.length = src + BitVec.ofNat 64 s.length ↔
      (dst + BitVec.ofNat 64 d.length - src).toNat = s.length := by
  constructor
  · intro h
    rw [h, add_ofNat_sub_toNat src hs]
  · intro h
    rw [← h]
    exact eq_add_sub src _

/-- The branches of `strlcat`, with the lengths. -/
theorem strlcat_eq (hd : StrAt m dst d) (hs : StrAt m src s) : strlcat dst src size ⟨m, []⟩ =
    some (if BitVec.ofNat 64 d.length = size then (⟨m, []⟩, size + BitVec.ofNat 64 s.length)
      else if s.length < (size - BitVec.ofNat 64 d.length).toNat then
        (copyUp (s.length + 1) (dst + BitVec.ofNat 64 d.length) src ⟨m, []⟩,
          BitVec.ofNat 64 s.length + BitVec.ofNat 64 d.length)
      else
        ((copyUp (size - BitVec.ofNat 64 d.length - 1).toNat (dst + BitVec.ofNat 64 d.length) src
            ⟨m, []⟩).put (dst + (size - 1)) 0,
          BitVec.ofNat 64 s.length + BitVec.ofNat 64 d.length)) := by
  have hlen : (BitVec.ofNat 64 s.length).toNat = s.length := toNat_ofNat_of_lt hs.length_lt
  simp only [strlcat, strlen_eq hs, strlen_eq hd, Option.bind_some, Option.map_some, hlen, memcpy]
  congr 1
  split
  · rfl
  · split
    · rename_i hlt
      have hsucc : (BitVec.ofNat 64 s.length + 1).toNat = s.length + 1 := by
        have hbound := (size - BitVec.ofNat 64 d.length).isLt
        have hone : (1 : Word).toNat = 1 := rfl
        rw [BitVec.toNat_add, hlen, hone]
        exact Nat.mod_eq_of_lt (by omega)
      rw [hsucc]
    · rfl

theorem strlcat_full (hd : StrAt m dst d) (hs : StrAt m src s) (h : d.length = size.toNat) :
    strlcat dst src size ⟨m, []⟩ = some (⟨m, []⟩, size + BitVec.ofNat 64 s.length) := by
  have hsize : BitVec.ofNat 64 d.length = size := by
    rw [h, BitVec.ofNat_toNat, BitVec.setWidth_eq]
  rw [strlcat_eq hd hs, if_pos hsize]

/-- The room that is left in the buffer. -/
theorem size_sub (h : d.length < size.toNat) :
    BitVec.ofNat 64 d.length ≠ size ∧
      (size - BitVec.ofNat 64 d.length).toNat = size.toNat - d.length := by
  have hlt := size.isLt
  have hlen : (BitVec.ofNat 64 d.length).toNat = d.length := toNat_ofNat_of_lt (by omega)
  constructor
  · intro heq
    rw [← heq, hlen] at h
    exact Nat.lt_irrefl _ h
  · rw [BitVec.toNat_sub, hlen]
    omega

theorem strlcat_room (hd : StrAt m dst d) (hs : StrAt m src s)
    (h : d.length + s.length < size.toNat) : strlcat dst src size ⟨m, []⟩ =
      some (copyUp (s.length + 1) (dst + BitVec.ofNat 64 d.length) src ⟨m, []⟩,
        BitVec.ofNat 64 s.length + BitVec.ofNat 64 d.length) := by
  obtain ⟨hne, hsub⟩ := size_sub (by omega : d.length < size.toNat)
  rw [strlcat_eq hd hs, if_neg hne, if_pos (by omega)]

theorem strlcat_cut (hd : StrAt m dst d) (hs : StrAt m src s) {k : Nat}
    (hk : d.length + (k + 1) = size.toNat) (h : k < s.length) : strlcat dst src size ⟨m, []⟩ =
      some (cutOff m (dst + BitVec.ofNat 64 d.length) src k,
        BitVec.ofNat 64 s.length + BitVec.ofNat 64 d.length) := by
  have hone : (1 : Word).toNat = 1 := rfl
  obtain ⟨hne, hsub⟩ := size_sub (by omega : d.length < size.toNat)
  have hcount : (size - BitVec.ofNat 64 d.length - 1).toNat = k := by
    rw [BitVec.toNat_sub, hone, hsub]
    omega
  have hlast : dst + (size - 1) = dst + BitVec.ofNat 64 d.length + BitVec.ofNat 64 k := by
    rw [← hcount, BitVec.ofNat_toNat, BitVec.setWidth_eq]
    ring
  rw [strlcat_eq hd hs, if_neg hne, if_neg (by omega), hcount, hlast]
  rfl

/-- A byte that is written, and not in the buffer. -/
theorem strlcat_long (hd : StrAt m dst d) (hs : StrAt m src s) (h : size.toNat < d.length)
    {store : Store} {r : Word} (hrun : strlcat dst src size ⟨m, []⟩ = some (store, r)) :
    ∃ x ∈ store.written, ¬ InRange dst size.toNat x := by
  have hdlt := hd.length_lt
  have hslt := hs.length_lt
  have hone : (1 : Word).toNat = 1 := rfl
  have hlen : (BitVec.ofNat 64 d.length).toNat = d.length := toNat_ofNat_of_lt hdlt
  have hne : BitVec.ofNat 64 d.length ≠ size := by
    intro heq
    rw [← heq, hlen] at h
    exact Nat.lt_irrefl _ h
  have hend : ¬ InRange dst size.toNat (dst + BitVec.ofNat 64 d.length) := by
    rw [InRange, add_ofNat_sub_toNat dst hdlt]
    omega
  rw [strlcat_eq hd hs, if_neg hne] at hrun
  have hrun := Option.some.inj hrun
  split at hrun
  · rw [← (Prod.mk.inj hrun).1]
    refine ⟨_, (copyUp_written hslt _ _ _ _).mpr (Or.inl ?_), hend⟩
    exact inRange_self (Nat.succ_pos _)
  · rw [← (Prod.mk.inj hrun).1]
    by_cases hzero : size = 0
    · subst hzero
      exact ⟨_, List.mem_cons_self, inRange_zero dst _⟩
    · -- The difference has wrapped, and is not 1.
      have hpos : 0 < size.toNat := by
        rw [Nat.pos_iff_ne_zero]
        exact fun h => hzero (BitVec.eq_of_toNat_eq h)
      have hcount : 0 < (size - BitVec.ofNat 64 d.length - 1).toNat := by
        rw [BitVec.toNat_sub, hone, BitVec.toNat_sub, hlen]
        omega
      refine ⟨_, List.mem_cons_of_mem _ ?_, hend⟩
      rw [copyUp_written (BitVec.isLt _).le]
      exact Or.inl (inRange_self hcount)

/-- The string in the buffer is in front of what is written. -/
theorem bytesAt_before (hd : StrAt m dst d) {m' : Mem} {k : Nat} (hk : d.length + k ≤ 2 ^ 64)
    (hkeep : ∀ x, ¬ InRange (dst + BitVec.ofNat 64 d.length) k x → m' x = m x) :
    BytesAt m' dst d := by
  intro i hi
  rw [← hd.bytes i hi]
  refine hkeep _ (not_inRange_of_offset (inRange_self (Nat.succ_pos 0)) (Or.inl hi) (by omega) hk)

theorem length_sum {a b : Nat} (h : a + b < 2 ^ 64) :
    (BitVec.ofNat 64 a + BitVec.ofNat 64 b).toNat = a + b := by
  rw [← BitVec.ofNat_add, toNat_ofNat_of_lt h]

/-- There is room for both strings. -/
theorem strlcat_contract_room (hd : StrAt m dst d) (hs : StrAt m src s)
    (hlen : d.length + s.length < size.toNat)
    (hend : dst + BitVec.ofNat 64 d.length = src + BitVec.ofNat 64 s.length → s = []) :
    StrlcatContract m dst src size d s := by
  have hslt := hs.length_lt
  have hsize := size.isLt
  have hmod : ∀ i ≤ s.length, i % (dst + BitVec.ofNat 64 d.length - src).toNat = i := by
    intro i hi
    rcases end_distance hd hs with hgt | heq
    · exact Nat.mod_eq_of_lt (by omega)
    · obtain rfl := hend ((end_eq_iff hslt).mpr heq)
      rw [heq, List.length_nil, Nat.mod_zero]
  have hcopy : ∀ i ≤ s.length, (copyUp (s.length + 1) (dst + BitVec.ofNat 64 d.length) src
      ⟨m, []⟩).mem (dst + BitVec.ofNat 64 d.length + BitVec.ofNat 64 i) =
        m (src + BitVec.ofNat 64 i) := by
    intro i hi
    rw [copyUp_mem_add hslt (Nat.lt_succ_of_le hi), hmod i hi]
  refine ⟨_, _, strlcat_room hd hs hlen, ?_, fun _ => ?_, fun h => by omega, ?_⟩
  · intro x hx
    rw [copyUp_written hslt] at hx
    exact InRange.of_offset (hx.resolve_right List.not_mem_nil) (by omega) hsize.le
  · rw [List.take_of_length_le (by rw [List.length_append]; omega)]
    refine StrAt.append (bytesAt_before hd (k := s.length + 1) (by omega) fun x hx => ?_) hd.ne_zero
      ⟨fun i hi => (hcopy i hi.le).trans (hs.bytes i hi), hs.ne_zero, ?_⟩
    · rw [copyUp_mem hslt, if_neg hx]
    · exact (hcopy _ le_rfl).trans hs.terminated
  · rw [length_sum (by omega)]
    omega

/-- The string is cut off. -/
theorem strlcat_contract_cut (hd : StrAt m dst d) (hs : StrAt m src s) {k : Nat}
    (hk : d.length + (k + 1) = size.toNat) (hlt : k < s.length)
    (hsum : d.length + s.length < 2 ^ 64) : StrlcatContract m dst src size d s := by
  have hsize := size.isLt
  refine ⟨_, _, strlcat_cut hd hs hk hlt, ?_, fun _ => ?_, fun h => by omega, ?_⟩
  · intro x hx
    exact InRange.of_offset (cutOff_written (by omega) hx) (by omega) hsize.le
  · have htake : (d ++ s).take (size.toNat - 1) = d ++ s.take k := by
      rw [← hk, ← Nat.add_assoc, Nat.add_sub_cancel, List.take_length_add_append]
    rw [htake]
    refine StrAt.append (bytesAt_before hd (k := k + 1) (by omega) fun x hx => ?_) hd.ne_zero ?_
    · exact cutOff_mem_of_not_inRange (by omega) hx
    · rw [cutOff_strAt_iff hs hlt.le]
      intro i hi
      rw [Nat.mod_eq_of_lt]
      have := end_distance hd hs
      omega
  · rw [length_sum (by omega)]
    omega

/-- **When `strlcat` does what it is for.** -/
theorem strlcat_contract_iff (m : Mem) (dst src size : Word) (d s : List (BitVec 8))
    (hd : StrAt m dst d) (hs : StrAt m src s) :
    StrlcatContract m dst src size d s ↔ StrlcatFits dst src size d s := by
  have hdlt := hd.length_lt
  have hslt := hs.length_lt
  have hsize := size.isLt
  constructor
  · rintro ⟨store, r, hrun, hwritten, hstr, -, hr⟩
    have hle : d.length ≤ size.toNat := by
      by_contra hgt
      obtain ⟨x, hx, hout⟩ := strlcat_long hd hs (by omega) hrun
      exact hout (hwritten x hx)
    have hrlt := r.isLt
    refine ⟨hle, by omega, ?_⟩
    rintro ⟨hend, hne, hroom⟩
    have hpos : 0 < s.length := List.length_pos_iff.mpr hne
    rw [strlcat_room hd hs hroom] at hrun
    obtain ⟨rfl, -⟩ := Prod.mk.inj (Option.some.inj hrun)
    have hzero := (hstr (by omega)).terminated
    -- The last byte copied is the first one of the string.
    rw [List.take_of_length_le (by rw [List.length_append]; omega), List.length_append,
      BitVec.ofNat_add, ← BitVec.add_assoc, copyUp_mem_add hslt (Nat.lt_succ_self _),
      (end_eq_iff hslt).mp hend, Nat.mod_self] at hzero
    exact hs.get_ne_zero hpos hzero
  · rintro ⟨hle, hsum, hend⟩
    rcases Nat.lt_or_ge (d.length + s.length) size.toNat with hroom | hcut
    · refine strlcat_contract_room hd hs hroom fun heq => ?_
      by_contra hne
      exact hend ⟨heq, hne, hroom⟩
    · rcases Nat.lt_or_ge d.length size.toNat with hlt | hge
      · obtain ⟨k, hk⟩ := Nat.exists_eq_add_of_lt hlt
        exact strlcat_contract_cut hd hs hk.symm (by omega) hsum
      · have heq : d.length = size.toNat := by omega
        refine ⟨_, _, strlcat_full hd hs heq, ?_, fun h => by omega, fun _ => rfl, ?_⟩
        · intro x hx
          exact absurd hx List.not_mem_nil
        · have hword : size = BitVec.ofNat 64 d.length := by
            rw [heq, BitVec.ofNat_toNat, BitVec.setWidth_eq]
          rw [← heq, Nat.min_self, hword, length_sum hsum]

theorem strlcat_contract_iff_exampleAbC : (StrAt exampleAbC 0x1000 [0x61, 0x62] ∧
      StrAt exampleAbC 0x2000 [0x63]) ∧
    (StrlcatContract exampleAbC 0x1000 0x2000 8 [0x61, 0x62] [0x63] ↔
      StrlcatFits 0x1000 0x2000 8 [0x61, 0x62] [0x63]) :=
  ⟨⟨exampleAbC_ab, exampleAbC_c⟩,
    strlcat_contract_iff exampleAbC 0x1000 0x2000 8 [0x61, 0x62] [0x63] exampleAbC_ab exampleAbC_c⟩

/-- With a size of 1, `"c"` is written behind `"ab"`. -/
theorem strlcat_long_not_contract : ¬ ∀ (m : Mem) (dst src size : Word) (d s : List (BitVec 8)),
    StrAt m dst d → StrAt m src s → StrlcatContract m dst src size d s := by
  intro h
  obtain ⟨store, r, hrun, hwritten, -⟩ :=
    h exampleAbC 0x1000 0x2000 1 _ _ exampleAbC_ab exampleAbC_c
  obtain ⟨x, hx, hout⟩ := strlcat_long exampleAbC_ab exampleAbC_c (by decide) hrun
  exact hout (hwritten x hx)

end AncoreOS.Klibc
