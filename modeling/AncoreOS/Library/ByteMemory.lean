import Mathlib.Data.BitVec
import Mathlib.Tactic

/-!
# Byte-addressed memory

A memory is a function from 64-bit addresses to bytes, with no notion of an
unmapped address.  `load m a n` reads `n` bytes at `a` as a little-endian
number and `store m a n v` writes one; `load64` and `store64` are the two at
the width of a machine word.  Address arithmetic is modulo `2 ^ 64`, so a range
is described by the distance of an address from its start (`InRange`), and a
range may wrap.

The laws are the usual three.  `load_store_same` says a word reads back,
`load_store_of_disjoint` that a store leaves a disjoint word alone, and
`load_congr` that a word depends on its own bytes only.

The second half is about 4 KiB pages.  `pageOf` sends an address to the start
of its page, and two pages are then disjoint because `pageOf` is a function:
`pageOf_of_inRange` is the only place where page arithmetic is done.
-/

namespace ByteMemory

/-- A 64-bit machine word, also used as an address. -/
abbrev Word := BitVec 64

/-- Byte-addressed memory. -/
abbrev Mem := Word → BitVec 8

/-- `x` is one of the `n` addresses from `a` on. -/
def InRange (a : Word) (n : Nat) (x : Word) : Prop := (x - a).toNat < n

instance (a : Word) (n : Nat) (x : Word) : Decidable (InRange a n x) :=
  inferInstanceAs (Decidable (_ < _))

/-- The `n` bytes at `a`, read as a little-endian number. -/
def load (m : Mem) (a : Word) : Nat → Nat
  | 0 => 0
  | n + 1 => (m a).toNat + 256 * load m (a + 1) n

/-- The memory after the low `n` bytes of `v` are written at `a`. -/
def store (m : Mem) (a : Word) (n v : Nat) : Mem := fun x =>
  if InRange a n x then BitVec.ofNat 8 (v / 256 ^ (x - a).toNat) else m x

/-- The memory after `n` bytes at `a` are set to `b`. -/
def fill (m : Mem) (a : Word) (n : Nat) (b : BitVec 8) : Mem := fun x =>
  if InRange a n x then b else m x

def load64 (m : Mem) (a : Word) : Word := BitVec.ofNat 64 (load m a 8)

def store64 (m : Mem) (a v : Word) : Mem := store m a 8 v.toNat

def load32 (m : Mem) (a : Word) : BitVec 32 := BitVec.ofNat 32 (load m a 4)

def store32 (m : Mem) (a : Word) (v : BitVec 32) : Mem := store m a 4 v.toNat

/-! ### Ranges -/

theorem toNat_ofNat_of_lt {w n : Nat} (h : n < 2 ^ w) : (BitVec.ofNat w n).toNat = n := by
  rw [BitVec.toNat_ofNat, Nat.mod_eq_of_lt h]

theorem inRange_self {a : Word} {n : Nat} (hn : 0 < n) : InRange a n a := by
  simpa [InRange] using hn

theorem inRange_add {a : Word} {n j : Nat} (hj : j < n) (hn : n ≤ 2 ^ 64) :
    InRange a n (a + BitVec.ofNat 64 j) := by
  have h : a + BitVec.ofNat 64 j - a = BitVec.ofNat 64 j := by
    rw [BitVec.add_comm, BitVec.add_sub_cancel]
  rw [InRange, h, toNat_ofNat_of_lt (by omega)]
  exact hj

/-- An address of a range, written as the start plus an offset. -/
theorem eq_add_of_inRange {a x : Word} {n : Nat} (h : InRange a n x) :
    ∃ j, j < n ∧ x = a + BitVec.ofNat 64 j := by
  refine ⟨(x - a).toNat, h, ?_⟩
  rw [BitVec.ofNat_toNat, BitVec.setWidth_eq]
  bv_omega

theorem InRange.mono {a x : Word} {n k : Nat} (h : InRange a n x) (hk : n ≤ k) : InRange a k x :=
  lt_of_lt_of_le h hk

/-- A range inside a range. -/
theorem InRange.of_offset {a x : Word} {o n k : Nat} (h : InRange (a + BitVec.ofNat 64 o) n x)
    (hk : o + n ≤ k) (hk' : k ≤ 2 ^ 64) : InRange a k x := by
  obtain ⟨j, hj, rfl⟩ := eq_add_of_inRange h
  rw [BitVec.add_assoc, ← BitVec.ofNat_add]
  exact inRange_add (by omega) hk'

/-- Two ranges of one block whose offsets do not overlap are disjoint. -/
theorem not_inRange_of_offset {a x : Word} {o₁ n₁ o₂ n₂ : Nat}
    (h : InRange (a + BitVec.ofNat 64 o₁) n₁ x) (hd : o₁ + n₁ ≤ o₂ ∨ o₂ + n₂ ≤ o₁)
    (h₁ : o₁ + n₁ ≤ 2 ^ 64) (h₂ : o₂ + n₂ ≤ 2 ^ 64) :
    ¬ InRange (a + BitVec.ofNat 64 o₂) n₂ x := by
  intro h'
  obtain ⟨i, hi, rfl⟩ := eq_add_of_inRange h
  obtain ⟨j, hj, he⟩ := eq_add_of_inRange h'
  rw [BitVec.add_assoc, BitVec.add_assoc, ← BitVec.ofNat_add, ← BitVec.ofNat_add] at he
  have hc : BitVec.ofNat 64 (o₁ + i) = BitVec.ofNat 64 (o₂ + j) := by
    simpa using he
  have hn := congrArg BitVec.toNat hc
  rw [BitVec.toNat_ofNat, BitVec.toNat_ofNat, Nat.mod_eq_of_lt (by omega),
    Nat.mod_eq_of_lt (by omega)] at hn
  omega

/-! ### Loads and stores -/

theorem load_congr {m m' : Mem} {a : Word} {n : Nat} (hn : n ≤ 2 ^ 64)
    (h : ∀ x, InRange a n x → m' x = m x) : load m' a n = load m a n := by
  induction n generalizing a with
  | zero => rfl
  | succ n ih =>
    have hstep : ∀ x, InRange (a + 1) n x → m' x = m x := by
      intro x hx
      exact h x (InRange.of_offset (o := 1) hx (by omega) hn)
    rw [load, load, h a (inRange_self (by omega)), ih (by omega) hstep]

/-- A word is determined by its bytes. -/
theorem load_of_bytes {m : Mem} {a : Word} {n v : Nat}
    (h : ∀ j < n, m (a + BitVec.ofNat 64 j) = BitVec.ofNat 8 (v / 256 ^ j)) :
    load m a n = v % 256 ^ n := by
  induction n generalizing a v with
  | zero => simp [load, Nat.mod_one]
  | succ n ih =>
    have htail : load m (a + 1) n = v / 256 % 256 ^ n := by
      refine ih (fun j hj => ?_)
      have := h (j + 1) (by omega)
      rw [show a + BitVec.ofNat 64 (j + 1) = a + 1 + BitVec.ofNat 64 j by
        rw [Nat.add_comm, BitVec.ofNat_add, ← BitVec.add_assoc]; rfl] at this
      rw [this, Nat.pow_succ, Nat.mul_comm, ← Nat.div_div_eq_div_mul]
    have hhead : (m a).toNat = v % 256 := by
      have := h 0 (by omega)
      simp only [BitVec.add_zero, Nat.pow_zero, Nat.div_one] at this
      rw [this, BitVec.toNat_ofNat]
    rw [load, hhead, htail, Nat.pow_succ, Nat.mul_comm (256 ^ n) 256, Nat.mod_mul]

theorem store_apply_of_not_inRange {m : Mem} {a x : Word} {n v : Nat} (h : ¬ InRange a n x) :
    store m a n v x = m x := if_neg h

theorem fill_apply_of_not_inRange {m : Mem} {a x : Word} {n : Nat} {b : BitVec 8}
    (h : ¬ InRange a n x) : fill m a n b x = m x := if_neg h

theorem fill_apply_of_inRange {m : Mem} {a x : Word} {n : Nat} {b : BitVec 8}
    (h : InRange a n x) : fill m a n b x = b := if_pos h

/-- **A stored word reads back.** -/
theorem load_store_same (m : Mem) (a : Word) {n : Nat} (v : Nat) (hn : n ≤ 2 ^ 64) :
    load (store m a n v) a n = v % 256 ^ n := by
  refine load_of_bytes (fun j hj => ?_)
  have hin : InRange a n (a + BitVec.ofNat 64 j) := inRange_add hj hn
  have hsub : a + BitVec.ofNat 64 j - a = BitVec.ofNat 64 j := by
    rw [BitVec.add_comm, BitVec.add_sub_cancel]
  rw [store, if_pos hin, hsub, toNat_ofNat_of_lt (by omega)]

/-- **A store leaves a disjoint word alone.** -/
theorem load_store_of_disjoint {m : Mem} {a b : Word} {n k v : Nat} (hk : k ≤ 2 ^ 64)
    (h : ∀ x, InRange b k x → ¬ InRange a n x) : load (store m a n v) b k = load m b k :=
  load_congr hk (fun _ hx => store_apply_of_not_inRange (h _ hx))

theorem load64_congr {m m' : Mem} {a : Word} (h : ∀ x, InRange a 8 x → m' x = m x) :
    load64 m' a = load64 m a := by
  rw [load64, load64, load_congr (by decide) h]

@[simp] theorem load64_store64_same (m : Mem) (a v : Word) : load64 (store64 m a v) a = v := by
  rw [load64, store64, load_store_same m a v.toNat (by decide),
    Nat.mod_eq_of_lt (by have := v.isLt; omega), BitVec.ofNat_toNat, BitVec.setWidth_eq]

theorem load64_store64_of_disjoint {m : Mem} {a b v : Word}
    (h : ∀ x, InRange b 8 x → ¬ InRange a 8 x) : load64 (store64 m a v) b = load64 m b :=
  load64_congr (fun _ hx => store_apply_of_not_inRange (h _ hx))

theorem load32_congr {m m' : Mem} {a : Word} (h : ∀ x, InRange a 4 x → m' x = m x) :
    load32 m' a = load32 m a := by
  rw [load32, load32, load_congr (by decide) h]

@[simp] theorem load32_store32_same (m : Mem) (a : Word) (v : BitVec 32) :
    load32 (store32 m a v) a = v := by
  rw [load32, store32, load_store_same m a v.toNat (by decide),
    Nat.mod_eq_of_lt (by have := v.isLt; omega), BitVec.ofNat_toNat, BitVec.setWidth_eq]

theorem load64_eq_zero {m : Mem} {a : Word} (h : ∀ x, InRange a 8 x → m x = 0) :
    load64 m a = 0 := by
  have hz : load m a 8 = 0 % 256 ^ 8 :=
    load_of_bytes (fun j hj => by rw [h _ (inRange_add hj (by decide)), Nat.zero_div]; rfl)
  rw [load64, hz]; rfl

theorem load64_fill_zero {m : Mem} {a b : Word} {n : Nat} (h : ∀ x, InRange b 8 x → InRange a n x) :
    load64 (fill m a n 0) b = 0 :=
  load64_eq_zero (fun x hx => fill_apply_of_inRange (h x hx))

/-! ### Pages -/

/-- The start of the 4 KiB page of `a`. -/
def pageOf (a : Word) : Word := a &&& ~~~0xFFF#64

/-- `f` is the start of a 4 KiB page. -/
def PageAligned (f : Word) : Prop := f.toNat % 4096 = 0

instance (f : Word) : Decidable (PageAligned f) := inferInstanceAs (Decidable (_ = _))

/-- Clearing the low `k` bits rounds down to a multiple of `2 ^ k`. -/
theorem and_not_low_toNat (a : Word) (k : Nat) :
    (a &&& ~~~BitVec.ofNat 64 (2 ^ k - 1)).toNat = a.toNat / 2 ^ k * 2 ^ k := by
  have hshift : a &&& ~~~BitVec.ofNat 64 (2 ^ k - 1) = (a >>> k) <<< k := by
    refine BitVec.eq_of_getLsbD_eq (fun i hi => ?_)
    simp only [BitVec.getLsbD_and, BitVec.getLsbD_not, BitVec.getLsbD_ofNat,
      Nat.testBit_two_pow_sub_one, BitVec.getLsbD_shiftLeft, BitVec.getLsbD_ushiftRight, hi,
      decide_true, Bool.true_and]
    by_cases hk : i < k
    · simp [hk]
    · rw [show k + (i - k) = i by omega]
      simp [hk]
  have hlt : a.toNat / 2 ^ k * 2 ^ k < 2 ^ 64 :=
    lt_of_le_of_lt (Nat.div_mul_le_self _ _) a.isLt
  rw [hshift, BitVec.toNat_shiftLeft, BitVec.toNat_ushiftRight, Nat.shiftRight_eq_div_pow,
    Nat.shiftLeft_eq, Nat.mod_eq_of_lt hlt]

theorem pageOf_toNat (a : Word) : (pageOf a).toNat = a.toNat / 4096 * 4096 :=
  and_not_low_toNat a 12

theorem pageAligned_pageOf (a : Word) : PageAligned (pageOf a) := by
  rw [PageAligned, pageOf_toNat]
  omega

theorem pageOf_eq_self {f : Word} (h : PageAligned f) : pageOf f = f := by
  apply BitVec.eq_of_toNat_eq
  rw [pageOf_toNat]
  rw [PageAligned] at h
  omega

/-- On a page address, only the high bits of a mask matter. -/
theorem PageAligned.and_eq {f : Word} (hf : PageAligned f) (c : Word) :
    f &&& c = f &&& (~~~0xFFF#64 &&& c) := by
  have h : f &&& ~~~0xFFF#64 = f := pageOf_eq_self hf
  rw [← BitVec.and_assoc, h]

theorem PageAligned.and_low {f : Word} (hf : PageAligned f) {c : Word}
    (hc : ~~~0xFFF#64 &&& c = 0) : f &&& c = 0 := by
  rw [hf.and_eq, hc]
  exact BitVec.and_zero

theorem pageOf_eq_of_bounds {f a : Word} (hf : PageAligned f) (h₁ : f.toNat ≤ a.toNat)
    (h₂ : a.toNat < f.toNat + 4096) : pageOf a = f := by
  apply BitVec.eq_of_toNat_eq
  rw [pageOf_toNat]
  rw [PageAligned] at hf
  omega

/-- **A range that starts inside a page and fits there stays there.** -/
theorem pageOf_of_inRange {f x : Word} {o n : Nat} (hf : PageAligned f)
    (h : InRange (f + BitVec.ofNat 64 o) n x) (hfit : o + n ≤ 4096) : pageOf x = f := by
  obtain ⟨j, hj, rfl⟩ := eq_add_of_inRange h
  have hlt : f.toNat + (o + j) < 2 ^ 64 := by
    have := f.isLt
    rw [PageAligned] at hf
    omega
  rw [BitVec.add_assoc, ← BitVec.ofNat_add]
  have hto : (f + BitVec.ofNat 64 (o + j)).toNat = f.toNat + (o + j) := by
    rw [BitVec.toNat_add, BitVec.toNat_ofNat, Nat.mod_eq_of_lt (show o + j < 2 ^ 64 by omega),
      Nat.mod_eq_of_lt hlt]
  exact pageOf_eq_of_bounds hf (by omega) (by omega)

theorem pageOf_of_inRange_start {f x : Word} {n : Nat} (hf : PageAligned f) (h : InRange f n x)
    (hfit : n ≤ 4096) : pageOf x = f := by
  rw [← BitVec.add_zero f] at h
  exact pageOf_of_inRange hf h (by omega)

theorem pageOf_eq_iff_inRange {f a : Word} (hf : PageAligned f) :
    pageOf a = f ↔ InRange f 4096 a := by
  constructor
  · rintro rfl
    have h := pageOf_toNat a
    have hle : (pageOf a).toNat ≤ a.toNat := by omega
    rw [InRange, BitVec.toNat_sub_of_le hle]
    omega
  · intro h
    exact pageOf_of_inRange_start hf h le_rfl

end ByteMemory
