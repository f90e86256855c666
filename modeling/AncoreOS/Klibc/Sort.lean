import AncoreOS.Library.ByteMemory
import AncoreOS.Library.Quicksort

/-!
# `swap_bytes`, `bsearch` and `qsort`

The two functions of `klibc/stdlib.c` that take a comparator.  An array is `num` objects of
`size` bytes, one behind the other, and a comparator sees the bytes of two objects.

The loops of `qsort` have no bound of their own, so they are run for a limited number of rounds;
a run that needs more has no result.  Beside the memory, a run of `qsort` keeps the addresses
that were given to the comparator and to `swap_bytes`, and every call that had something to sort
with the memory at that time.
-/

namespace AncoreOS.Klibc

open ByteMemory

abbrev Bytes := List (BitVec 8)

/-- The bytes of an object. -/
def object (mem : Mem) (p : Word) (size : Nat) : Bytes :=
  (List.range size).map fun i => mem (p + BitVec.ofNat 64 i)

def elementAddr (base size : Word) (i : Nat) : Word := base + BitVec.ofNat 64 i * size

def element (mem : Mem) (base size : Word) (i : Nat) : Bytes :=
  object mem (elementAddr base size i) size.toNat

/-- The objects of an array. -/
def elements (mem : Mem) (base num size : Word) : List Bytes :=
  (List.range num.toNat).map (element mem base size)

/-- An array in memory: it does not wrap, and one past its end is an address as well. -/
structure IsArray (base num size : Word) : Prop where
  size_pos : 0 < size.toNat
  fits : base.toNat + num.toNat * size.toNat < 2 ^ 64

/-- `int (*compar)(const void *, const void *)`. -/
abbrev Compar := Bytes → Bytes → BitVec 32

/-- The comparator is a total preorder on some objects. -/
structure TotalPreorderOn (compar : Compar) (s : Set Bytes) : Prop where
  neg_iff : ∀ x ∈ s, ∀ y ∈ s, (compar x y).toInt < 0 ↔ 0 < (compar y x).toInt
  trans : ∀ x ∈ s, ∀ y ∈ s, ∀ z ∈ s, (compar x y).toInt ≤ 0 → (compar y z).toInt ≤ 0 →
    (compar x z).toInt ≤ 0

/-- The comparator of `unsigned char`. -/
def compareBytes : Compar := fun x y =>
  BitVec.ofInt 32 ((x.headD 0).toNat - (y.headD 0).toNat : Int)

theorem totalPreorderOn_compareBytes (s : Set Bytes) : TotalPreorderOn compareBytes s := by
  have hint : ∀ x y, (compareBytes x y).toInt = (x.headD 0).toNat - (y.headD 0).toNat := by
    intro x y
    have hx := (x.headD 0).isLt
    have hy := (y.headD 0).isLt
    rw [compareBytes, BitVec.toInt_ofInt]
    exact Int.bmod_eq_of_le (by omega) (by omega)
  constructor
  · intro x _ y _
    rw [hint, hint]
    omega
  · intro x _ y _ z _ hxy hyz
    rw [hint] at hxy hyz ⊢
    omega

/-- No element is above its successor. -/
def SortedArray (compar : Compar) (mem : Mem) (base num size : Word) : Prop :=
  ∀ i < num.toNat - 1,
    (compar (element mem base size i) (element mem base size (i + 1))).toInt ≤ 0

instance decidableSortedArray (compar : Compar) (mem : Mem) (base num size : Word) :
    Decidable (SortedArray compar mem base num size) :=
  inferInstanceAs (Decidable (∀ i < num.toNat - 1, _))

/-! ### `bsearch` -/

/-- The loop of `bsearch`, with the addresses at which the key is compared. -/
def bsearchLoop (mem : Mem) (key : Bytes) (size : Word) (compar : Compar) :
    Nat → Word → Word → Option (Word × List Word)
  | 0, _, _ => none
  | n + 1, base, num =>
    if 0 < num then
      let pivot := base + num / 2 * size
      let result := compar key (object mem pivot size.toNat)
      if result = 0 then some (pivot, [pivot])
      else
        (if 0 < result.toInt then bsearchLoop mem key size compar n (pivot + size) (num - num / 2 - 1)
          else bsearchLoop mem key size compar n base (num / 2)).map
          fun r => (r.1, pivot :: r.2)
    else some (0, [])

def bsearch (mem : Mem) (key : Bytes) (base num size : Word) (compar : Compar) :
    Option (Word × List Word) :=
  bsearchLoop mem key size compar (num.toNat + 1) base num

/-! ### `qsort` -/

def swapBytes (mem : Mem) (a b : Word) : Nat → Mem
  | 0 => mem
  | size + 1 =>
    let temp := mem a
    swapBytes (Function.update (Function.update mem a (mem b)) b temp) (a + 1) (b + 1) size

structure QsortCall where
  mem : Mem
  base : Word
  num : Word

structure QsortRun where
  mem : Mem
  touched : List Word
  calls : List QsortCall

section Qsort

variable (size : Word) (compar : Compar)

/-- `while (compar(left, pivot) < 0) left += size`. -/
def qsortUp (mem : Mem) (pivot : Word) : Nat → Word → Option (Word × List Word)
  | 0, _ => none
  | n + 1, left =>
    if (compar (object mem left size.toNat) (object mem pivot size.toNat)).toInt < 0 then
      (qsortUp mem pivot n (left + size)).map fun r => (r.1, left :: pivot :: r.2)
    else some (left, [left, pivot])

/-- `while (compar(right, pivot) > 0) right -= size`. -/
def qsortDown (mem : Mem) (pivot : Word) : Nat → Word → Option (Word × List Word)
  | 0, _ => none
  | n + 1, right =>
    if 0 < (compar (object mem right size.toNat) (object mem pivot size.toNat)).toInt then
      (qsortDown mem pivot n (right - size)).map fun r => (r.1, right :: pivot :: r.2)
    else some (right, [right, pivot])

/-- The loop over `left` and `right`; each of the two loops inside gets `rounds`. -/
def qsortLoop (pivot : Word) (rounds : Nat) :
    Nat → Mem → Word → Word → Option (Mem × Word × Word × List Word)
  | 0, _, _, _ => none
  | n + 1, mem, left, right =>
    if left ≤ right then
      (qsortUp size compar mem pivot rounds left).bind fun (left, t) =>
      (qsortDown size compar mem pivot rounds right).bind fun (right, t') =>
      if left ≤ right then
        let mem := if left ≠ right then swapBytes mem left right size.toNat else mem
        (qsortLoop pivot rounds n mem (left + size) (right - size)).map fun r =>
          (r.1, r.2.1, r.2.2.1, t ++ t' ++ left :: right :: r.2.2.2)
      else
        (qsortLoop pivot rounds n mem left right).map fun r =>
          (r.1, r.2.1, r.2.2.1, t ++ t' ++ r.2.2.2)
    else some (mem, left, right, [])

def qsortRun : Nat → QsortCall → Option QsortRun
  | 0, _ => none
  | n + 1, ⟨mem, base, num⟩ =>
    if num < 2 then some ⟨mem, [], []⟩
    else
      let pivot := base + num / 2 * size
      let last := base + (num - 1) * size
      (qsortLoop size compar pivot (num.toNat + 1) (num.toNat + 1) mem base last).bind
        fun (sorted, left, right, touched) =>
      (if base < right then qsortRun n ⟨sorted, base, (right - base) / size + 1⟩
        else some ⟨sorted, [], []⟩).bind fun first =>
      (if left < last then qsortRun n ⟨first.mem, left, (last - left) / size + 1⟩
        else some ⟨first.mem, [], []⟩).map fun second =>
      ⟨second.mem, touched ++ first.touched ++ second.touched,
        ⟨mem, base, num⟩ :: (first.calls ++ second.calls)⟩

end Qsort

def qsort (mem : Mem) (base num size : Word) (compar : Compar) : Option QsortRun :=
  qsortRun size compar (num.toNat + 1) ⟨mem, base, num⟩

/-! ### Addresses -/

theorem elementAddr_add (base size : Word) (i j : Nat) :
    elementAddr (elementAddr base size i) size j = elementAddr base size (i + j) := by
  unfold elementAddr
  rw [BitVec.ofNat_add, BitVec.add_mul, BitVec.add_assoc]

theorem element_add (mem : Mem) (base size : Word) (i j : Nat) :
    element mem (elementAddr base size i) size j = element mem base size (i + j) := by
  rw [element, element, elementAddr_add]

theorem half_mul (base num size : Word) :
    base + num / 2 * size = elementAddr base size (num.toNat / 2) := by
  rw [elementAddr, show num / 2 = BitVec.ofNat 64 (num.toNat / 2) from ?_]
  apply BitVec.eq_of_toNat_eq
  rw [BitVec.toNat_udiv, BitVec.toNat_ofNat, Nat.mod_eq_of_lt (by have := num.isLt; omega)]
  rfl

end AncoreOS.Klibc
