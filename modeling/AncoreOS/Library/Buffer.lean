import Mathlib.Data.List.GetD
import Mathlib.Tactic

/-!
# Buffers

A buffer is a function from offsets to values.  `writeAt buf i l` is the buffer with the list
`l` at the offset `i`, and it is what code that writes value after value comes to: writing one
more value behind the list appends it (`update_writeAt`).

Two loops that work in place are described here.  Swapping from both ends turns a list round
(`writeAt_reverse`), and moving a list to the right and filling the gap puts something in front of
it (`writeAt_shift`, for the loops `moveRight` and `fillGap`).
-/

namespace Buffer

variable {β : Type*}

/-- The buffer with a list at an offset. -/
def writeAt (buf : Nat → β) (i : Nat) (l : List β) : Nat → β :=
  fun k => if i ≤ k then l.getD (k - i) (buf k) else buf k

variable {buf : Nat → β} {i k : Nat} {l l' : List β}

@[simp] theorem writeAt_nil (buf : Nat → β) (i : Nat) : writeAt buf i [] = buf := by
  funext k
  simp [writeAt]

theorem writeAt_of_lt (h : k < i) : writeAt buf i l k = buf k := if_neg (by omega)

theorem writeAt_of_ge (h : i + l.length ≤ k) : writeAt buf i l k = buf k := by
  rw [writeAt, if_pos (by omega), List.getD_eq_default _ _ (by omega)]

theorem writeAt_add (h : k < l.length) : writeAt buf i l (i + k) = l[k] := by
  rw [writeAt, if_pos (by omega), Nat.add_sub_cancel_left, List.getD_eq_getElem _ _ h]

theorem writeAt_append (buf : Nat → β) (i : Nat) (l l' : List β) :
    writeAt (writeAt buf i l) (i + l.length) l' = writeAt buf i (l ++ l') := by
  funext k
  by_cases hlt : k < i + l.length
  · rw [writeAt_of_lt hlt]
    by_cases hik : i ≤ k
    · obtain ⟨j, rfl⟩ := Nat.exists_eq_add_of_le hik
      rw [writeAt_add (by omega), writeAt_add (by rw [List.length_append]; omega),
        List.getElem_append_left]
    · rw [writeAt_of_lt (by omega), writeAt_of_lt (by omega)]
  · obtain ⟨j, rfl⟩ := Nat.exists_eq_add_of_le (Nat.le_of_not_lt hlt)
    by_cases hj : j < l'.length
    · rw [writeAt_add hj, Nat.add_assoc, writeAt_add (by rw [List.length_append]; omega),
        List.getElem_append_right (by omega)]
      simp
    · rw [writeAt_of_ge (by omega), writeAt_of_ge (by omega),
        writeAt_of_ge (by rw [List.length_append]; omega)]

theorem writeAt_singleton (buf : Nat → β) (i : Nat) (c : β) :
    writeAt buf i [c] = Function.update buf i c := by
  funext k
  rcases lt_trichotomy k i with hlt | rfl | hlt
  · rw [writeAt_of_lt hlt, Function.update_of_ne (by omega)]
  · rw [Function.update_self]
    exact writeAt_add (k := 0) (by simp)
  · rw [writeAt_of_ge (by simpa using hlt), Function.update_of_ne (by omega)]

theorem update_writeAt (buf : Nat → β) (i : Nat) (l : List β) (c : β) :
    Function.update (writeAt buf i l) (i + l.length) c = writeAt buf i (l ++ [c]) := by
  rw [← writeAt_singleton, writeAt_append]

/-- A buffer with the values of a list at an offset, and the values of another one elsewhere. -/
theorem eq_writeAt {buf' : Nat → β} (hin : ∀ k, (hk : k < l.length) → buf' (i + k) = l[k])
    (hlt : ∀ k < i, buf' k = buf k) (hge : ∀ k, i + l.length ≤ k → buf' k = buf k) :
    buf' = writeAt buf i l := by
  funext k
  by_cases hik : k < i
  · rw [hlt k hik, writeAt_of_lt hik]
  · obtain ⟨j, rfl⟩ := Nat.exists_eq_add_of_le (Nat.le_of_not_lt hik)
    by_cases hj : j < l.length
    · rw [hin j hj, writeAt_add hj]
    · rw [hge _ (by omega), writeAt_of_ge (by omega)]

/-- The values of a list in the opposite order. -/
theorem writeAt_reverse {buf' : Nat → β} (l' : List β)
    (hin : ∀ k < l.length, buf' k = writeAt buf 0 (l ++ l') (l.length - 1 - k))
    (hout : ∀ k, l.length ≤ k → buf' k = writeAt buf 0 (l ++ l') k) :
    buf' = writeAt buf 0 (l.reverse ++ l') := by
  have hget : ∀ j (hj : j < (l ++ l').length), writeAt buf 0 (l ++ l') j = (l ++ l')[j] := by
    intro j hj
    have h : writeAt buf 0 (l ++ l') (0 + j) = (l ++ l')[j] := writeAt_add hj
    rwa [Nat.zero_add] at h
  apply eq_writeAt
  · intro k hk
    rw [List.length_append, List.length_reverse] at hk
    rw [Nat.zero_add]
    by_cases hlt : k < l.length
    · rw [hin k hlt, hget _ (by rw [List.length_append]; omega),
        List.getElem_append_left (by omega), List.getElem_append_left (by simpa using hlt),
        List.getElem_reverse]
    · rw [hout k (by omega), hget k (by rw [List.length_append]; omega),
        List.getElem_append_right (by omega),
        List.getElem_append_right (by rw [List.length_reverse]; omega)]
      simp
  · intro k hk
    omega
  · intro k hk
    rw [List.length_append, List.length_reverse] at hk
    rw [hout k (by omega), writeAt_of_ge (by rw [List.length_append]; omega)]

/-! ### Moving to the right -/

/-- `n` values from the offset `i` on are moved to the right by `pad`, the last one first. -/
def moveRight (i pad : Nat) : Nat → (Nat → β) → Nat → β
  | 0, buf => buf
  | n + 1, buf => moveRight i pad n (Function.update buf (i + n + pad) (buf (i + n)))

/-- `n` times the same value from the offset `i` on, the first one first. -/
def fillGap (i : Nat) (c : β) : Nat → (Nat → β) → Nat → β
  | 0, buf => buf
  | n + 1, buf => fillGap (i + 1) c n (Function.update buf i c)

theorem moveRight_apply (i pad n : Nat) (buf : Nat → β) (k : Nat) :
    moveRight i pad n buf k =
      if i + pad ≤ k ∧ k < i + pad + n then buf (k - pad) else buf k := by
  induction n generalizing buf with
  | zero =>
    rw [if_neg (by omega)]
    rfl
  | succ n ih =>
    rw [moveRight, ih]
    by_cases hlast : k = i + n + pad
    · rw [if_neg (by omega), if_pos (by omega), hlast, Function.update_self, Nat.add_sub_cancel]
    · by_cases hin : i + pad ≤ k ∧ k < i + pad + n
      · rw [if_pos hin, if_pos (by omega), Function.update_of_ne (by omega)]
      · rw [if_neg hin, if_neg (by omega), Function.update_of_ne hlast]

theorem fillGap_eq (i : Nat) (c : β) (n : Nat) (buf : Nat → β) :
    fillGap i c n buf = writeAt buf i (List.replicate n c) := by
  induction n generalizing i buf with
  | zero => rw [fillGap, List.replicate_zero, writeAt_nil]
  | succ n ih =>
    have happend := writeAt_append buf i [c] (List.replicate n c)
    rw [List.length_singleton] at happend
    rw [fillGap, ih, ← writeAt_singleton, happend, List.replicate_succ, List.singleton_append]

/-- A list that is moved to the right, with the gap filled. -/
theorem writeAt_shift (buf : Nat → β) (i pad : Nat) (c : β) (l : List β) :
    fillGap i c pad (moveRight i pad l.length (writeAt buf i l)) =
      writeAt buf i (List.replicate pad c ++ l) := by
  rw [fillGap_eq]
  apply eq_writeAt
  · intro k hk
    rw [List.length_append, List.length_replicate] at hk
    by_cases hpad : k < pad
    · rw [writeAt_add (by simpa using hpad), List.getElem_append_left (by simpa using hpad)]
    · obtain ⟨j, rfl⟩ := Nat.exists_eq_add_of_le (Nat.le_of_not_lt hpad)
      rw [writeAt_of_ge (by rw [List.length_replicate]; omega), moveRight_apply,
        if_pos (by omega), show i + (pad + j) - pad = i + j by omega, writeAt_add (by omega),
        List.getElem_append_right (by simp)]
      simp
  · intro k hk
    rw [writeAt_of_lt hk, moveRight_apply, if_neg (by omega), writeAt_of_lt hk]
  · intro k hk
    rw [List.length_append, List.length_replicate] at hk
    rw [writeAt_of_ge (by rw [List.length_replicate]; omega), moveRight_apply, if_neg (by omega),
      writeAt_of_ge (by omega)]

end Buffer
