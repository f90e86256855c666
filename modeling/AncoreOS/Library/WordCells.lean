import AncoreOS.Library.ByteMemory

/-!
# Aligned words

Two aligned words of a memory are equal or disjoint, so that a memory is a function on the aligned
addresses, and a store changes it at one point (`word_setWord_of_ne`).  The addresses are numbers
here: below `2 ^ 64` nothing wraps, and linear arithmetic decides whether two of them differ.

The bytes of an aligned word are known with it (`byte_eq_of_word_eq`), so that a range of whole
words keeps its bytes when it keeps its words.  The same goes for the two halves of a word, which a
structure may use for fields of their own (`half_congr`).
-/

namespace WordCells

open ByteMemory

/-- The word at an address. -/
def word (m : Mem) (a : Nat) : Word := load64 m (BitVec.ofNat 64 a)

def setWord (m : Mem) (a : Nat) (v : Word) : Mem := store64 m (BitVec.ofNat 64 a) v

/-- The address of a whole word. -/
abbrev Cell (a : Nat) : Prop := a % 8 = 0 ∧ a < 2 ^ 64

variable {m m' : Mem} {a b : Nat} {v : Word}

theorem ofNat_sub_toNat {x : Nat} (hx : x < 2 ^ 64) (ha : a < 2 ^ 64) :
    (BitVec.ofNat 64 x - BitVec.ofNat 64 a).toNat = if a ≤ x then x - a else 2 ^ 64 - a + x := by
  rw [BitVec.toNat_sub, toNat_ofNat_of_lt hx, toNat_ofNat_of_lt ha]
  split <;> omega

/-- The bytes of a range that does not wrap. -/
theorem inRange_ofNat {x n : Nat} (hx : x < 2 ^ 64) (ha : a + n ≤ 2 ^ 64) :
    InRange (BitVec.ofNat 64 a) n (BitVec.ofNat 64 x) ↔ a ≤ x ∧ x < a + n := by
  by_cases hn : n = 0
  · subst hn
    exact iff_of_false (Nat.not_lt_zero _) (by omega)
  · rw [InRange, ofNat_sub_toNat hx (by omega)]
    split <;> omega

theorem exists_ofNat (x : Word) : ∃ n, n < 2 ^ 64 ∧ x = BitVec.ofNat 64 n :=
  ⟨x.toNat, x.isLt, by simp⟩

/-! ### Words and stores -/

@[simp] theorem word_setWord_self (m : Mem) (a : Nat) (v : Word) : word (setWord m a v) a = v :=
  load64_store64_same m _ v

theorem word_setWord_of_ne (ha : Cell a) (hb : Cell b) (hab : b ≠ a) :
    word (setWord m a v) b = word m b := by
  obtain ⟨ha8, halt⟩ := ha
  obtain ⟨hb8, hblt⟩ := hb
  refine load64_store64_of_disjoint fun x hx hin => ?_
  obtain ⟨n, hn, rfl⟩ := exists_ofNat x
  rw [inRange_ofNat hn (by omega)] at hx hin
  omega

theorem word_setWord (ha : Cell a) (hb : Cell b) :
    word (setWord m a v) b = if b = a then v else word m b := by
  by_cases hab : b = a
  · subst hab
    simp
  · rw [if_neg hab, word_setWord_of_ne ha hb hab]

theorem word_congr (ha : Cell a)
    (h : ∀ x, a ≤ x → x < a + 8 → m' (BitVec.ofNat 64 x) = m (BitVec.ofNat 64 x)) :
    word m' a = word m a := by
  obtain ⟨ha8, halt⟩ := ha
  refine load64_congr fun x hx => ?_
  obtain ⟨n, hn, rfl⟩ := exists_ofNat x
  rw [inRange_ofNat hn (by omega)] at hx
  exact h n hx.1 hx.2

/-! ### Bytes of a word -/

theorem load_lt (m : Mem) (a : Word) (n : Nat) : load m a n < 256 ^ n := by
  induction n generalizing a with
  | zero => simp [load]
  | succ n ih =>
    have hbyte := (m a).isLt
    have hrest := ih (a + 1)
    rw [load, Nat.pow_succ]
    omega

theorem bytes_of_load_eq {p : Word} {n : Nat} (h : load m' p n = load m p n) :
    ∀ j < n, m' (p + BitVec.ofNat 64 j) = m (p + BitVec.ofNat 64 j) := by
  induction n generalizing p with
  | zero => simp
  | succ n ih =>
    rw [load, load] at h
    have hlow := (m p).isLt
    have hlow' := (m' p).isLt
    intro j hj
    cases j with
    | zero =>
      rw [BitVec.add_zero]
      apply BitVec.eq_of_toNat_eq
      omega
    | succ j =>
      have hnext : p + BitVec.ofNat 64 (j + 1) = p + 1 + BitVec.ofNat 64 j := by
        rw [Nat.add_comm, BitVec.ofNat_add, ← BitVec.add_assoc]
        rfl
      rw [hnext]
      exact ih (by omega) j (by omega)

/-- **A word that is kept keeps its bytes.** -/
theorem byte_eq_of_word_eq {x : Nat} (h : word m' a = word m a) (hx : a ≤ x) (hx' : x < a + 8) :
    m' (BitVec.ofNat 64 x) = m (BitVec.ofNat 64 x) := by
  have hload : load m' (BitVec.ofNat 64 a) 8 = load m (BitVec.ofNat 64 a) 8 := by
    have hnat := congrArg BitVec.toNat h
    have hlt := load_lt m (BitVec.ofNat 64 a) 8
    have hlt' := load_lt m' (BitVec.ofNat 64 a) 8
    simp only [word, load64, BitVec.toNat_ofNat] at hnat
    rwa [Nat.mod_eq_of_lt (by omega), Nat.mod_eq_of_lt (by omega)] at hnat
  have hbyte := bytes_of_load_eq hload (x - a) (by omega)
  rwa [← BitVec.ofNat_add, Nat.add_sub_cancel' hx] at hbyte

/-! ### Halves of a word -/

/-- The half of a word at an address. -/
def half (m : Mem) (a : Nat) : BitVec 32 := load32 m (BitVec.ofNat 64 a)

def setHalf (m : Mem) (a : Nat) (v : BitVec 32) : Mem := store32 m (BitVec.ofNat 64 a) v

/-- The address of a half. -/
abbrev HalfCell (a : Nat) : Prop := a % 4 = 0 ∧ a < 2 ^ 64

variable {w : BitVec 32}

@[simp] theorem half_setHalf_self (m : Mem) (a : Nat) (w : BitVec 32) :
    half (setHalf m a w) a = w := load32_store32_same m _ w

theorem half_setHalf_of_ne (ha : HalfCell a) (hb : HalfCell b) (hab : b ≠ a) :
    half (setHalf m a w) b = half m b := by
  refine load32_congr fun x hx => store_apply_of_not_inRange ?_
  obtain ⟨n, hn, rfl⟩ := exists_ofNat x
  rw [inRange_ofNat hn (by omega)] at hx ⊢
  omega

theorem word_setHalf_of_ne (ha : HalfCell a) (hb : Cell b) (hab : b ≠ a / 8 * 8) :
    word (setHalf m a w) b = word m b := by
  refine word_congr hb fun x hx hx' => store_apply_of_not_inRange ?_
  rw [inRange_ofNat (by omega) (by omega)]
  omega

/-- A half is kept with its word. -/
theorem half_congr (ha : HalfCell a) (h : word m' (a / 8 * 8) = word m (a / 8 * 8)) :
    half m' a = half m a := by
  refine load32_congr fun x hx => ?_
  obtain ⟨n, hn, rfl⟩ := exists_ofNat x
  rw [inRange_ofNat hn (by omega)] at hx
  exact byte_eq_of_word_eq h (by omega) (by omega)

end WordCells
