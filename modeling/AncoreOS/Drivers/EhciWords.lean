import AncoreOS.Drivers.Ehci

/-!
# The words of a page

The driver builds its structures in a page with `pokes`, `pokePageBytes`, `copyWords` and `fill`.
For each of them: what a word of the page is afterwards, and which words are left alone.  A word
that has been written more than once is the last one written.
-/

namespace AncoreOS.Drivers

open ByteMemory AncoreOS.Mm

section Words

variable {page : Word} {m : Mem} {o : Nat}

theorem load32_store32_offset {o' : Nat} (v : BitVec 32) (hne : o + 4 ≤ o' ∨ o' + 4 ≤ o)
    (ho : o + 4 ≤ 4096) (ho' : o' + 4 ≤ 4096) :
    load32 (store32 m (page + BitVec.ofNat 64 o) v) (page + BitVec.ofNat 64 o') =
      load32 m (page + BitVec.ofNat 64 o') :=
  load32_congr fun _ hx => store_apply_of_not_inRange
    (not_inRange_of_offset hx hne.symm (by omega) (by omega))

/-! ### Written words and bytes -/

/-- The word at an offset after words have been written: the last one for it. -/
theorem load32_pokes_eq_foldl {ws : List (Nat × BitVec 32)}
    (hws : ∀ w ∈ ws, w.1 % 4 = 0 ∧ w.1 < 4096)
    (ho : o % 4 = 0) (ho' : o < 4096) :
    load32 (pokes page ws m) (page + BitVec.ofNat 64 o) =
      ws.foldl (fun v w => if w.1 = o then w.2 else v) (load32 m (page + BitVec.ofNat 64 o)) := by
  unfold pokes
  induction ws generalizing m with
  | nil => rfl
  | cons w ws ih =>
    obtain ⟨hw, hw'⟩ := hws w List.mem_cons_self
    have hword : load32 (store32 m (page + BitVec.ofNat 64 w.1) w.2) (page + BitVec.ofNat 64 o) =
        if w.1 = o then w.2 else load32 m (page + BitVec.ofNat 64 o) := by
      by_cases heq : w.1 = o
      · rw [if_pos heq, ← heq, load32_store32_same]
      · rw [if_neg heq, load32_store32_offset w.2 (by omega) (by omega) (by omega)]
    rw [List.foldl_cons, List.foldl_cons, ih fun v hv => hws v (List.mem_cons_of_mem w hv), hword]

/-- A word that is not written. -/
theorem load32_pokes_of_not {ws : List (Nat × BitVec 32)}
    (hws : ∀ w ∈ ws, (w.1 + 4 ≤ o ∨ o + 4 ≤ w.1) ∧ w.1 + 4 ≤ 4096) (ho : o + 4 ≤ 4096) :
    load32 (pokes page ws m) (page + BitVec.ofNat 64 o) = load32 m (page + BitVec.ofNat 64 o) := by
  unfold pokes
  induction ws generalizing m with
  | nil => rfl
  | cons w ws ih =>
    obtain ⟨hne, hw⟩ := hws w List.mem_cons_self
    rw [List.foldl_cons, ih fun v hv => hws v (List.mem_cons_of_mem w hv),
      load32_store32_offset w.2 hne hw ho]

/-- Words written into a range of memory leave the rest alone. -/
theorem pokes_of_not_inRange {ws : List (Nat × BitVec 32)} {n : Nat} {x : Word}
    (hws : ∀ w ∈ ws, w.1 + 4 ≤ n) (hn : n ≤ 2 ^ 64) (hx : ¬InRange page n x) :
    pokes page ws m x = m x := by
  unfold pokes
  induction ws generalizing m with
  | nil => rfl
  | cons w ws ih =>
    rw [List.foldl_cons, ih fun v hv => hws v (List.mem_cons_of_mem w hv)]
    exact store_apply_of_not_inRange fun hin => hx (hin.of_offset (hws w List.mem_cons_self) hn)

/-- The byte at an offset after bytes have been written: the last one for it. -/
theorem pokePageBytes_apply {bs : List (Nat × BitVec 8)} (hbs : ∀ w ∈ bs, w.1 < 4096) (ho : o < 4096) :
    pokePageBytes page bs m (page + BitVec.ofNat 64 o) =
      bs.foldl (fun v w => if w.1 = o then w.2 else v) (m (page + BitVec.ofNat 64 o)) := by
  unfold pokePageBytes
  induction bs generalizing m with
  | nil => rfl
  | cons w bs ih =>
    have hw := hbs w List.mem_cons_self
    have hbyte : Function.update m (page + BitVec.ofNat 64 w.1) w.2 (page + BitVec.ofNat 64 o) =
        if w.1 = o then w.2 else m (page + BitVec.ofNat 64 o) := by
      by_cases heq : w.1 = o
      · rw [if_pos heq, heq, Function.update_self]
      · rw [if_neg heq, Function.update_of_ne]
        intro hadd
        have hoff := congrArg BitVec.toNat ((BitVec.add_right_inj _).mp hadd)
        rw [toNat_ofNat_of_lt (by omega), toNat_ofNat_of_lt (by omega)] at hoff
        exact heq hoff.symm
    rw [List.foldl_cons, List.foldl_cons, ih fun v hv => hbs v (List.mem_cons_of_mem w hv), hbyte]

/-! ### Copied and cleared words -/

theorem load32_copyWords_of_not {src dst n : Nat} (hne : o + 4 ≤ dst ∨ dst + 4 * n ≤ o)
    (hdst : dst + 4 * n ≤ 4096) (ho : o + 4 ≤ 4096) :
    load32 (copyWords page src dst n m) (page + BitVec.ofNat 64 o) =
      load32 m (page + BitVec.ofNat 64 o) := by
  induction n with
  | zero => rfl
  | succ n ih =>
    rw [copyWords, load32_store32_offset _ (by omega) (by omega) ho]
    exact ih (by omega) (by omega)

/-- What has been copied to another part of the page. -/
theorem load32_copyWords {src dst n i : Nat} (hi : i < n)
    (hne : src + 4 * n ≤ dst ∨ dst + 4 * n ≤ src) (hsrc : src + 4 * n ≤ 4096)
    (hdst : dst + 4 * n ≤ 4096) :
    load32 (copyWords page src dst n m) (page + BitVec.ofNat 64 (dst + 4 * i)) =
      load32 m (page + BitVec.ofNat 64 (src + 4 * i)) := by
  induction n with
  | zero => exact absurd hi (Nat.not_lt_zero i)
  | succ n ih =>
    rw [copyWords]
    by_cases hlast : i = n
    · rw [hlast, load32_store32_same, load32_copyWords_of_not (by omega) (by omega) (by omega)]
    · rw [load32_store32_offset _ (by omega) (by omega) (by omega)]
      exact ih (by omega) (by omega) (by omega) (by omega)

theorem load32_fill_zero {start n : Nat} (hlow : start ≤ o) (hhigh : o + 4 ≤ start + n)
    (hn : start + n ≤ 4096) :
    load32 (fill m (page + BitVec.ofNat 64 start) n 0) (page + BitVec.ofNat 64 o) = 0 := by
  have hsum : page + BitVec.ofNat 64 o =
      page + BitVec.ofNat 64 start + BitVec.ofNat 64 (o - start) := by
    rw [BitVec.add_assoc, ← BitVec.ofNat_add, Nat.add_sub_cancel' hlow]
  have hzero : ∀ x, InRange (page + BitVec.ofNat 64 o) 4 x →
      fill m (page + BitVec.ofNat 64 start) n 0 x = 0 := by
    intro x hx
    rw [hsum] at hx
    exact fill_apply_of_inRange (hx.of_offset (by omega) (by omega))
  have hload : load (fill m (page + BitVec.ofNat 64 start) n 0) (page + BitVec.ofNat 64 o) 4 =
      0 % 256 ^ 4 := by
    refine load_of_bytes fun j hj => ?_
    rw [hzero _ (inRange_add hj (by decide)), Nat.zero_div]
    rfl
  rw [load32, hload]
  rfl

end Words

end AncoreOS.Drivers
