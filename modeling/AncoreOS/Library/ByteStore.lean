import AncoreOS.Library.ByteMemory

/-!
# Copying bytes

A `Store` is a memory with the addresses that have been written, so that a write can be seen also
where it writes what is already there.

`copyUp` copies byte after byte upwards and `copyDown` downwards.  The ranges may overlap.  What
`copyUp` then leaves is known in any case: it repeats the bytes between the two starts
(`copyUp_mem`).  `copyDown` leaves the source bytes when the destination does not start below the
source (`copyDown_mem`).

`StrAt` is a string with a null character behind it.
-/

namespace ByteStore

open ByteMemory

structure Store where
  mem : Mem
  /-- The addresses written, last one first. -/
  written : List Word

namespace Store

def put (s : Store) (a : Word) (v : BitVec 8) : Store where
  mem := Function.update s.mem a v
  written := a :: s.written

@[simp] theorem put_mem_self (s : Store) (a : Word) (v : BitVec 8) : (s.put a v).mem a = v :=
  Function.update_self ..

theorem put_mem_of_ne {s : Store} {a x : Word} {v : BitVec 8} (h : x ≠ a) :
    (s.put a v).mem x = s.mem x :=
  Function.update_of_ne h ..

@[simp] theorem put_written (s : Store) (a : Word) (v : BitVec 8) :
    (s.put a v).written = a :: s.written := rfl

end Store

/-! ### Addresses -/

theorem add_ofNat_succ (a : Word) (n : Nat) :
    a + BitVec.ofNat 64 (n + 1) = a + 1 + BitVec.ofNat 64 n := by
  rw [Nat.add_comm, BitVec.ofNat_add, ← BitVec.add_assoc]
  rfl

theorem add_ofNat_sub_toNat (a : Word) {n : Nat} (hn : n < 2 ^ 64) :
    (a + BitVec.ofNat 64 n - a).toNat = n := by
  rw [BitVec.add_comm, BitVec.add_sub_cancel, toNat_ofNat_of_lt hn]

/-- Two offsets of one address. -/
theorem mod_eq_of_add_eq {a : Word} {i j : Nat}
    (h : a + BitVec.ofNat 64 i = a + BitVec.ofNat 64 j) : i % 2 ^ 64 = j % 2 ^ 64 := by
  have := congrArg BitVec.toNat ((BitVec.add_right_inj a).mp h)
  rwa [BitVec.toNat_ofNat, BitVec.toNat_ofNat] at this

theorem inRange_zero (a x : Word) : ¬ InRange a 0 x := Nat.not_lt_zero _

/-- A range with one more address. -/
theorem inRange_succ {a x : Word} {n : Nat} (hn : n < 2 ^ 64) :
    InRange a (n + 1) x ↔ x = a + BitVec.ofNat 64 n ∨ InRange a n x := by
  constructor
  · intro h
    obtain ⟨j, hj, rfl⟩ := eq_add_of_inRange h
    by_cases hlast : j = n
    · exact Or.inl (by rw [hlast])
    · exact Or.inr (inRange_add (by omega) (by omega))
  · rintro (rfl | h)
    · exact inRange_add (Nat.lt_succ_self n) hn
    · exact h.mono (Nat.le_succ n)

/-- The first address of a range, and the others. -/
theorem inRange_succ_first {a x : Word} {n : Nat} (hn : n < 2 ^ 64) :
    InRange a (n + 1) x ↔ x = a ∨ InRange (a + 1) n x := by
  constructor
  · intro h
    obtain ⟨j, hj, rfl⟩ := eq_add_of_inRange h
    cases j with
    | zero => exact Or.inl (BitVec.add_zero a)
    | succ j =>
      rw [add_ofNat_succ]
      exact Or.inr (inRange_add (by omega) hn.le)
  · rintro (rfl | h)
    · exact inRange_self (Nat.succ_pos n)
    · exact InRange.of_offset (o := 1) h (by omega) hn

theorem eq_add_sub (a x : Word) : x = a + BitVec.ofNat 64 (x - a).toNat := by
  rw [BitVec.ofNat_toNat, BitVec.setWidth_eq]
  bv_omega

theorem sub_toNat_pos {a x : Word} (h : x ≠ a) : 0 < (x - a).toNat := by
  rw [Nat.pos_iff_ne_zero]
  intro hzero
  have heq := eq_add_sub a x
  rw [hzero, BitVec.add_zero] at heq
  exact h heq

theorem not_inRange_end (a : Word) {n : Nat} (hn : n < 2 ^ 64) :
    ¬ InRange a n (a + BitVec.ofNat 64 n) := by
  rw [InRange, add_ofNat_sub_toNat a hn]
  exact Nat.lt_irrefl n

/-- A range that does not wrap. -/
theorem inRange_iff_of_fits {a x : Word} {n : Nat} (h : a.toNat + n ≤ 2 ^ 64) :
    InRange a n x ↔ a.toNat ≤ x.toNat ∧ x.toNat < a.toNat + n := by
  have ha := a.isLt
  have hx := x.isLt
  rw [InRange, BitVec.toNat_sub]
  constructor
  · intro hlt
    omega
  · intro hin
    omega

/-! ### Copies -/

def copyUp : Nat → Word → Word → Store → Store
  | 0, _, _, s => s
  | n + 1, dst, src, s => copyUp n (dst + 1) (src + 1) (s.put dst (s.mem src))

/-- The last byte is copied last. -/
theorem copyUp_succ (n : Nat) (dst src : Word) (s : Store) :
    copyUp (n + 1) dst src s = (copyUp n dst src s).put (dst + BitVec.ofNat 64 n)
      ((copyUp n dst src s).mem (src + BitVec.ofNat 64 n)) := by
  induction n generalizing dst src s with
  | zero =>
    rw [copyUp, copyUp, copyUp, BitVec.add_zero, BitVec.add_zero]
  | succ n ih =>
    rw [copyUp, ih, add_ofNat_succ, add_ofNat_succ]
    rfl

theorem copyUp_written {n : Nat} (hn : n ≤ 2 ^ 64) (dst src : Word) (s : Store) (x : Word) :
    x ∈ (copyUp n dst src s).written ↔ InRange dst n x ∨ x ∈ s.written := by
  induction n with
  | zero => exact (or_iff_right (inRange_zero dst x)).symm
  | succ n ih =>
    rw [copyUp_succ, Store.put_written, List.mem_cons, ih (by omega), inRange_succ (by omega),
      or_assoc]

/-- **What is copied upwards repeats the bytes between the two starts.**  Where the destination
does not start behind the source, and in front of its end, these are the source bytes. -/
theorem copyUp_mem {n : Nat} (hn : n ≤ 2 ^ 64) (dst src : Word) (s : Store) (x : Word) :
    (copyUp n dst src s).mem x = if InRange dst n x then
      s.mem (src + BitVec.ofNat 64 ((x - dst).toNat % (dst - src).toNat)) else s.mem x := by
  induction n generalizing x with
  | zero => rw [if_neg (inRange_zero dst x)]; rfl
  | succ n ih =>
    rw [copyUp_succ]
    by_cases hx : x = dst + BitVec.ofNat 64 n
    · subst hx
      rw [Store.put_mem_self, ih (by omega), if_pos (inRange_add (Nat.lt_succ_self n) hn),
        add_ofNat_sub_toNat dst (by omega)]
      generalize ho : (dst - src).toNat = o
      have hlt : o < 2 ^ 64 := ho ▸ (dst - src).isLt
      have hdst : dst = src + BitVec.ofNat 64 o := ho ▸ eq_add_sub src dst
      -- The byte has been written before, or it is still the source byte.
      by_cases hin : 0 < o ∧ o ≤ n
      · have hsub : src + BitVec.ofNat 64 n = dst + BitVec.ofNat 64 (n - o) := by
          rw [hdst, BitVec.add_assoc, ← BitVec.ofNat_add, Nat.add_sub_cancel' hin.2]
        rw [hsub, if_pos (inRange_add (by omega) (by omega)), add_ofNat_sub_toNat dst (by omega),
          Nat.mod_eq_sub_mod hin.2]
      · have hout : ¬ InRange dst n (src + BitVec.ofNat 64 n) := by
          intro h
          obtain ⟨j, hj, heq⟩ := eq_add_of_inRange h
          rw [hdst, BitVec.add_assoc, ← BitVec.ofNat_add] at heq
          have := mod_eq_of_add_eq heq
          omega
        have hmod : n % o = n := by
          rcases Nat.eq_zero_or_pos o with rfl | hpos
          · exact Nat.mod_zero n
          · exact Nat.mod_eq_of_lt (by omega)
        rw [if_neg hout, hmod]
    · rw [Store.put_mem_of_ne hx, ih (by omega)]
      by_cases hin : InRange dst n x
      · rw [if_pos hin, if_pos (hin.mono (Nat.le_succ n))]
      · rw [if_neg hin, if_neg fun h => ((inRange_succ (by omega)).mp h).elim hx hin]

/-- The byte that is read after `n` bytes have been copied. -/
theorem copyUp_read {n : Nat} (hn : n < 2 ^ 64) (dst src : Word) (s : Store) :
    (copyUp n dst src s).mem (src + BitVec.ofNat 64 n) =
      s.mem (src + BitVec.ofNat 64 (n % (dst - src).toNat)) := by
  have h := copyUp_mem (n := n + 1) hn dst src s (dst + BitVec.ofNat 64 n)
  rwa [copyUp_succ, Store.put_mem_self, if_pos (inRange_add (Nat.lt_succ_self n) hn),
    add_ofNat_sub_toNat dst hn] at h

theorem copyUp_mem_add {n i : Nat} (hn : n ≤ 2 ^ 64) (hi : i < n) (dst src : Word) (s : Store) :
    (copyUp n dst src s).mem (dst + BitVec.ofNat 64 i) =
      s.mem (src + BitVec.ofNat 64 (i % (dst - src).toNat)) := by
  rw [copyUp_mem hn, if_pos (inRange_add hi hn), add_ofNat_sub_toNat dst (by omega)]

/-- `n` bytes, the last one first. -/
def copyDown (dst src : Word) : Nat → Store → Store
  | 0, s => s
  | n + 1, s => copyDown dst src n
      (s.put (dst + BitVec.ofNat 64 n) (s.mem (src + BitVec.ofNat 64 n)))

theorem copyDown_written {n : Nat} (hn : n ≤ 2 ^ 64) (dst src : Word) (s : Store) (x : Word) :
    x ∈ (copyDown dst src n s).written ↔ InRange dst n x ∨ x ∈ s.written := by
  induction n generalizing s with
  | zero => exact (or_iff_right (inRange_zero dst x)).symm
  | succ n ih =>
    rw [copyDown, ih (by omega), Store.put_written, List.mem_cons, inRange_succ (by omega),
      or_left_comm, or_assoc]

/-- **What is copied downwards is the source, unless this starts in front of the destination's
end.** -/
theorem copyDown_mem {n : Nat} (hn : n ≤ 2 ^ 64) {dst src : Word}
    (h : src = dst ∨ n ≤ (src - dst).toNat) (s : Store) (x : Word) :
    (copyDown dst src n s).mem x =
      if InRange dst n x then s.mem (src + (x - dst)) else s.mem x := by
  induction n generalizing s with
  | zero => rw [if_neg (inRange_zero dst x)]; rfl
  | succ n ih =>
    rw [copyDown, ih (by omega) (h.imp_right fun h => by omega)]
    by_cases hin : InRange dst n x
    · rw [if_pos hin, if_pos (hin.mono (Nat.le_succ n))]
      obtain ⟨j, hj, rfl⟩ := eq_add_of_inRange hin
      refine Store.put_mem_of_ne fun heq => ?_
      -- Then the byte at `n` would have been written before it is read.
      have hsrc : src = dst + BitVec.ofNat 64 (n - j) := by
        have hn : BitVec.ofNat 64 n = BitVec.ofNat 64 (n - j) + BitVec.ofNat 64 j := by
          rw [← BitVec.ofNat_add, Nat.sub_add_cancel (by omega)]
        rw [BitVec.add_comm dst, BitVec.add_sub_cancel, hn, ← BitVec.add_assoc] at heq
        exact (BitVec.add_left_inj _).mp heq
      have hsub : (src - dst).toNat = n - j := by
        rw [hsrc, add_ofNat_sub_toNat dst (by omega)]
      rcases h with rfl | h
      · rw [BitVec.sub_self, BitVec.toNat_zero] at hsub
        omega
      · omega
    · rw [if_neg hin]
      by_cases hx : x = dst + BitVec.ofNat 64 n
      · subst hx
        rw [Store.put_mem_self, if_pos (inRange_add (Nat.lt_succ_self n) hn)]
        congr 2
        bv_omega
      · rw [Store.put_mem_of_ne hx, if_neg fun h => ((inRange_succ (by omega)).mp h).elim hx hin]

/-! ### Strings -/

/-- The bytes from an address on. -/
def BytesAt (m : Mem) (p : Word) (bytes : List (BitVec 8)) : Prop :=
  ∀ i (h : i < bytes.length), m (p + BitVec.ofNat 64 i) = bytes[i]

/-- A string, with the null character behind it. -/
structure StrAt (m : Mem) (p : Word) (str : List (BitVec 8)) : Prop where
  bytes : BytesAt m p str
  ne_zero : ∀ c ∈ str, c ≠ 0
  terminated : m (p + BitVec.ofNat 64 str.length) = 0

section

variable {m : Mem} {p : Word} {str : List (BitVec 8)}

/-- The bytes, and one more. -/
theorem bytesAt_concat {c : BitVec 8} :
    BytesAt m p (str ++ [c]) ↔ BytesAt m p str ∧ m (p + BitVec.ofNat 64 str.length) = c := by
  constructor
  · intro h
    constructor
    · intro i hi
      rw [h i (by rw [List.length_append]; omega), List.getElem_append_left hi]
    · rw [h str.length (by simp), List.getElem_append_right (Nat.le_refl _)]
      simp
  · rintro ⟨hbytes, hlast⟩ i hi
    rw [List.length_append, List.length_singleton] at hi
    by_cases hlt : i < str.length
    · rw [hbytes i hlt, List.getElem_append_left hlt]
    · obtain rfl : i = str.length := by omega
      rw [hlast, List.getElem_append_right (Nat.le_refl _)]
      simp

/-- A byte is written behind the others. -/
theorem BytesAt.update (h : BytesAt m p str) (hlen : str.length < 2 ^ 64) (c : BitVec 8) :
    BytesAt (Function.update m (p + BitVec.ofNat 64 str.length) c) p str := by
  intro i hi
  rw [Function.update_of_ne, h i hi]
  intro heq
  have hmod := mod_eq_of_add_eq heq
  rw [Nat.mod_eq_of_lt (by omega), Nat.mod_eq_of_lt hlen] at hmod
  omega

theorem StrAt.get_ne_zero (h : StrAt m p str) {i : Nat} (hi : i < str.length) :
    m (p + BitVec.ofNat 64 i) ≠ 0 := by
  rw [h.bytes i hi]
  exact h.ne_zero _ (List.getElem_mem hi)

/-- The null character is one of the `2 ^ 64` bytes of the memory. -/
theorem StrAt.length_lt (h : StrAt m p str) : str.length < 2 ^ 64 := by
  by_contra hle
  have hmod : BitVec.ofNat 64 str.length = BitVec.ofNat 64 (str.length % 2 ^ 64) := by
    apply BitVec.eq_of_toNat_eq
    rw [BitVec.toNat_ofNat, BitVec.toNat_ofNat, Nat.mod_mod]
  have hlt : str.length % 2 ^ 64 < 2 ^ 64 := Nat.mod_lt _ (by decide)
  refine h.get_ne_zero (i := str.length % 2 ^ 64) (by omega) ?_
  rw [← hmod]
  exact h.terminated

theorem StrAt.tail {c : BitVec 8} (h : StrAt m p (c :: str)) : StrAt m (p + 1) str where
  bytes := by
    intro i hi
    rw [← add_ofNat_succ, h.bytes (i + 1) (Nat.succ_lt_succ hi), List.getElem_cons_succ]
  ne_zero := fun d hd => h.ne_zero d (List.mem_cons_of_mem c hd)
  terminated := by
    rw [← add_ofNat_succ]
    exact h.terminated

theorem StrAt.head {c : BitVec 8} (h : StrAt m p (c :: str)) : m p = c := by
  have := h.bytes 0 (Nat.succ_pos _)
  rwa [BitVec.add_zero] at this

theorem StrAt.head_nil (h : StrAt m p []) : m p = 0 := by
  have := h.terminated
  rwa [List.length_nil, BitVec.add_zero] at this

/-- What follows the first bytes of a string. -/
theorem StrAt.drop (h : StrAt m p str) {k : Nat} (hk : k ≤ str.length) :
    StrAt m (p + BitVec.ofNat 64 k) (str.drop k) where
  bytes := by
    intro i hi
    rw [List.length_drop] at hi
    rw [BitVec.add_assoc, ← BitVec.ofNat_add, h.bytes (k + i) (by omega), List.getElem_drop]
  ne_zero := fun d hd => h.ne_zero d (List.mem_of_mem_drop hd)
  terminated := by
    rw [BitVec.add_assoc, ← BitVec.ofNat_add, List.length_drop, Nat.add_sub_cancel' hk]
    exact h.terminated

/-- The only null character up to the end of a string is the last byte. -/
theorem StrAt.eq_length (h : StrAt m p str) {i : Nat} (hi : i ≤ str.length)
    (hzero : m (p + BitVec.ofNat 64 i) = 0) : i = str.length := by
  by_contra hne
  exact h.get_ne_zero (by omega) hzero

/-- A string behind other bytes. -/
theorem StrAt.append {bytes : List (BitVec 8)} (hbytes : BytesAt m p bytes)
    (hne : ∀ c ∈ bytes, c ≠ 0) (h : StrAt m (p + BitVec.ofNat 64 bytes.length) str) :
    StrAt m p (bytes ++ str) where
  bytes := by
    intro i hi
    by_cases hlt : i < bytes.length
    · rw [List.getElem_append_left hlt, hbytes i hlt]
    · obtain ⟨j, rfl⟩ := Nat.exists_eq_add_of_le (Nat.le_of_not_lt hlt)
      rw [List.length_append] at hi
      rw [List.getElem_append_right (Nat.le_add_right _ j), BitVec.ofNat_add, ← BitVec.add_assoc,
        h.bytes j (by omega)]
      simp only [Nat.add_sub_cancel_left]
  ne_zero := fun c hc => (List.mem_append.mp hc).elim (hne c) (h.ne_zero c)
  terminated := by
    rw [List.length_append, BitVec.ofNat_add, ← BitVec.add_assoc]
    exact h.terminated

theorem StrAt.congr {m' : Mem} (h : StrAt m p str)
    (heq : ∀ i ≤ str.length, m' (p + BitVec.ofNat 64 i) = m (p + BitVec.ofNat 64 i)) :
    StrAt m' p str where
  bytes := fun i hi => (heq i hi.le).trans (h.bytes i hi)
  ne_zero := h.ne_zero
  terminated := (heq _ le_rfl).trans h.terminated

end

end ByteStore
