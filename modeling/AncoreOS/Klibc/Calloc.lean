import AncoreOS.Library.ByteStore

/-!
# `calloc`

The allocator behind `malloc` is a parameter.  Its state is in the memory, and all that is known of
it is that a block has at least the size that was requested.

`calloc` requests the product of its arguments modulo `2 ^ 64`, so the block is too small when the
product is larger (`calloc_contract_iff`).
-/

namespace AncoreOS.Klibc

open ByteMemory

/-- A block of memory.  It does not start at `NULL`, and it does not wrap. -/
structure Block where
  ptr : Word
  size : Nat
  ptr_ne_null : ptr ≠ 0
  fits : ptr.toNat + size ≤ 2 ^ 64

/-- `tlsf_malloc`, with `none` for `NULL`. -/
structure TlsfMalloc where
  alloc : Mem → Word → Option Block × Mem
  large_enough : ∀ m request, ∀ block ∈ (alloc m request).1, request.toNat ≤ block.size

/-! ### The code -/

def malloc (tlsf : TlsfMalloc) (size : Word) (m : Mem) : Option Block × Mem := tlsf.alloc m size

/-- The loop for the rest of the bytes. -/
def callocLoop (p : Word) : Nat → Word → Mem → Mem
  | 0, _, m => m
  | left + 1, i, m => callocLoop p left (i + 1) (Function.update m (p + i) 0)

def calloc (tlsf : TlsfMalloc) (nmemb size : Word) (m : Mem) : Option Block × Mem :=
  let total := nmemb * size
  match malloc tlsf total m with
  | (none, m) => (none, m)
  | (some block, m) => (some block, callocLoop block.ptr total.toNat 0 m)

/-! ### Contract -/

variable {tlsf : TlsfMalloc} {nmemb size : Word} {m : Mem}

/-- `NULL`, or a block for all the elements that is filled with zeros. -/
def CallocContract (tlsf : TlsfMalloc) (nmemb size : Word) (m : Mem) : Prop :=
  ∀ block ∈ (calloc tlsf nmemb size m).1, nmemb.toNat * size.toNat ≤ block.size ∧
    ∀ x, InRange block.ptr (nmemb.toNat * size.toNat) x → (calloc tlsf nmemb size m).2 x = 0

theorem callocLoop_eq (p : Word) {left i : Nat} (h : i + left ≤ 2 ^ 64) (m : Mem) (x : Word) :
    callocLoop p left (BitVec.ofNat 64 i) m x =
      if InRange (p + BitVec.ofNat 64 i) left x then 0 else m x := by
  induction left generalizing i m with
  | zero => exact (if_neg (ByteStore.inRange_zero _ x)).symm
  | succ left ih =>
    have hnext : BitVec.ofNat 64 i + 1 = BitVec.ofNat 64 (i + 1) := by
      rw [BitVec.ofNat_add]
      rfl
    have hsplit := ByteStore.inRange_succ_first (a := p + BitVec.ofNat 64 i) (x := x)
      (by omega : left < 2 ^ 64)
    rw [BitVec.add_assoc, hnext] at hsplit
    rw [callocLoop, hnext, ih (by omega)]
    by_cases hx : x = p + BitVec.ofNat 64 i
    · rw [if_pos (hsplit.mpr (Or.inl hx)), hx, Function.update_self, ite_self]
    · rw [Function.update_of_ne hx]
      exact if_congr (by rw [hsplit, or_iff_right hx]) rfl rfl

theorem calloc_eq (tlsf : TlsfMalloc) (nmemb size : Word) (m : Mem) :
    calloc tlsf nmemb size m = ((tlsf.alloc m (nmemb * size)).1,
      match (tlsf.alloc m (nmemb * size)).1 with
      | none => (tlsf.alloc m (nmemb * size)).2
      | some block => fill (tlsf.alloc m (nmemb * size)).2 block.ptr (nmemb * size).toNat 0) := by
  rw [calloc, malloc]
  obtain ⟨block, m'⟩ := tlsf.alloc m (nmemb * size)
  cases block with
  | none => rfl
  | some block =>
    have hbound : 0 + (nmemb * size).toNat ≤ 2 ^ 64 := by
      have := (nmemb * size).isLt
      omega
    refine Prod.ext rfl (funext fun x => ?_)
    have h := callocLoop_eq block.ptr hbound m' x
    rwa [BitVec.add_zero] at h

/-- **`calloc` is right when the product of its arguments is a `size_t`, or there is no memory for
what it requests.** -/
theorem calloc_contract_iff (tlsf : TlsfMalloc) (nmemb size : Word) (m : Mem) :
    CallocContract tlsf nmemb size m ↔
      nmemb.toNat * size.toNat < 2 ^ 64 ∨ (tlsf.alloc m (nmemb * size)).1 = none := by
  unfold CallocContract
  rw [calloc_eq]
  cases hblock : (tlsf.alloc m (nmemb * size)).1 with
  | none => exact iff_of_true nofun (Or.inr rfl)
  | some block =>
    have hpos : 0 < block.ptr.toNat := by
      rw [Nat.pos_iff_ne_zero]
      exact fun h => block.ptr_ne_null (BitVec.eq_of_toNat_eq h)
    have hfits := block.fits
    have hmul : (nmemb * size).toNat = nmemb.toNat * size.toNat % 2 ^ 64 := BitVec.toNat_mul ..
    constructor
    · intro h
      have hsize := (h block rfl).1
      exact Or.inl (by omega)
    · rintro (hlt | hnone)
      · rw [Nat.mod_eq_of_lt hlt] at hmul
        rintro _ ⟨⟩
        refine ⟨?_, fun x hx => ?_⟩
        · rw [← hmul]
          exact tlsf.large_enough m _ block hblock
        · rw [← hmul] at hx
          exact fill_apply_of_inRange hx
      · cases hnone

/-! ### An allocator -/

/-- The free block of an allocator of one block, of the least size there is. -/
def exampleBlock : Block where
  ptr := 0x100000
  size := 24
  ptr_ne_null := by decide
  fits := by decide

/-- It has no block for a request of no bytes, or of more than there are. -/
def exampleTlsf : TlsfMalloc where
  alloc m request :=
    (if request.toNat = 0 ∨ 24 < request.toNat then none else some exampleBlock, m)
  large_enough := by
    intro m request block hblock
    split at hblock
    · cases hblock
    · cases hblock
      show request.toNat ≤ 24
      omega

/-- Two bytes for each of `2 ^ 63 + 1` elements are 24 bytes in all. -/
theorem calloc_wraps : ¬ ∀ (tlsf : TlsfMalloc) (nmemb size : Word) (m : Mem),
    CallocContract tlsf nmemb size m := by
  intro h
  have hsize := (h exampleTlsf 0x8000000000000001 2 (fun _ => 7) exampleBlock rfl).1
  exact absurd hsize (by decide)

end AncoreOS.Klibc
