import AncoreOS.Library.ByteMemory

/-!
# What a piece of code leaves alone

`SameOutside a n m m'` says that two memories differ at most at the `n` addresses from `a` on.
It is kept by everything that writes there, it composes, and a word outside of the range reads
the same in both (`SameOutside.load_eq`).  Ranges of one block are told apart by their offsets.
-/

namespace ByteMemory

def SameOutside (a : Word) (n : Nat) (m m' : Mem) : Prop := ∀ x, ¬InRange a n x → m' x = m x

namespace SameOutside

variable {a : Word} {n : Nat} {m m' m'' : Mem}

theorem refl (a : Word) (n : Nat) (m : Mem) : SameOutside a n m m := fun _ _ => rfl

theorem trans (h : SameOutside a n m m') (h' : SameOutside a n m' m'') : SameOutside a n m m'' :=
  fun x hx => (h' x hx).trans (h x hx)

/-- A part of a block. -/
theorem of_part {o k : Nat} (h : SameOutside (a + BitVec.ofNat 64 o) k m m') (hk : o + k ≤ n)
    (hn : n ≤ 2 ^ 64) : SameOutside a n m m' :=
  fun x hx => h x fun hin => hx (hin.of_offset hk hn)

theorem mono {k : Nat} (h : SameOutside a k m m') (hk : k ≤ n) : SameOutside a n m m' :=
  fun x hx => h x fun hin => hx (hin.mono hk)

theorem store (m : Mem) (a : Word) (n v : Nat) : SameOutside a n m (store m a n v) :=
  fun _ hx => store_apply_of_not_inRange hx

theorem fill (m : Mem) (a : Word) (n : Nat) (b : BitVec 8) : SameOutside a n m (fill m a n b) :=
  fun _ hx => fill_apply_of_not_inRange hx

theorem update (m : Mem) {x : Word} (hx : InRange a n x) (v : BitVec 8) :
    SameOutside a n m (Function.update m x v) := by
  intro y hy
  refine Function.update_of_ne ?_ _ _
  rintro rfl
  exact hy hx

/-- A word of another part of the block. -/
theorem load_eq {o₁ o₂ k : Nat} (h : SameOutside (a + BitVec.ofNat 64 o₁) n m m')
    (hd : o₂ + k ≤ o₁ ∨ o₁ + n ≤ o₂) (h₁ : o₁ + n ≤ 2 ^ 64) (h₂ : o₂ + k ≤ 2 ^ 64) :
    load m' (a + BitVec.ofNat 64 o₂) k = load m (a + BitVec.ofNat 64 o₂) k :=
  load_congr (by omega) fun _ hx => h _ (not_inRange_of_offset hx hd h₂ h₁)

/-- Some byte of a word that reads differently has changed. -/
theorem exists_ne_of_load_ne {b : Word} {k : Nat} (hk : k ≤ 2 ^ 64)
    (h : load m' b k ≠ load m b k) : ∃ x, InRange b k x ∧ m' x ≠ m x := by
  by_contra hnone
  refine h (load_congr hk fun x hx => ?_)
  by_contra hne
  exact hnone ⟨x, hx, hne⟩

end SameOutside

end ByteMemory
