import AncoreOS.Library.ByteStore

/-!
# `memcpy`, `memmove` and `strlen`

`memmove` copies upwards with `memcpy` when the destination is below the source, and downwards
otherwise.  Either way a source byte is read before it is overwritten (`memmove_copies`).

`strlen` does not return when there is no null character, so it takes a number of rounds.  There
are `2 ^ 64` bytes to look at.
-/

namespace AncoreOS.Klibc

open ByteMemory ByteStore

/-! ### The code -/

def memcpy (dest src n : Word) (s : Store) : Store × Word := (copyUp n.toNat dest src s, dest)

def memmove (dst src n : Word) (s : Store) : Store × Word :=
  if dst.toNat < src.toNat then memcpy dst src n s
  else (copyDown dst src n.toNat s, dst)

def strlenLoop (m : Mem) : Nat → Word → Word → Option Word
  | 0, _, _ => none
  | fuel + 1, str, l => if m str = 0 then some l else strlenLoop m fuel (str + 1) (l + 1)

def strlen (m : Mem) (str : Word) : Option Word := strlenLoop m (2 ^ 64) str 0

/-! ### `memmove` -/

/-- Both loops leave the source in the destination. -/
theorem memmove_mem (s : Store) {dst src n : Word} (hdst : dst.toNat + n.toNat ≤ 2 ^ 64)
    (hsrc : src.toNat + n.toNat ≤ 2 ^ 64) (x : Word) :
    (memmove dst src n s).1.mem x =
      if InRange dst n.toNat x then s.mem (src + (x - dst)) else s.mem x := by
  have hn : n.toNat ≤ 2 ^ 64 := n.isLt.le
  unfold memmove
  split
  · rename_i hlt
    rw [memcpy, copyUp_mem hn]
    split
    · rename_i hin
      have hdist : n.toNat ≤ (dst - src).toNat := by
        rw [BitVec.toNat_sub]
        omega
      rw [Nat.mod_eq_of_lt (lt_of_lt_of_le hin hdist), BitVec.ofNat_toNat, BitVec.setWidth_eq]
    · rfl
  · rename_i hge
    refine copyDown_mem hn ?_ s x
    by_cases heq : src = dst
    · exact Or.inl heq
    · have hne : src.toNat ≠ dst.toNat := fun h => heq (BitVec.eq_of_toNat_eq h)
      refine Or.inr ?_
      rw [BitVec.toNat_sub]
      omega

/-- Nothing but the destination is written. -/
theorem memmove_written (s : Store) (dst src n x : Word) :
    x ∈ (memmove dst src n s).1.written ↔ InRange dst n.toNat x ∨ x ∈ s.written := by
  unfold memmove
  split
  · exact copyUp_written n.isLt.le dst src s x
  · exact copyDown_written n.isLt.le dst src s x

/-- **`memmove` copies ranges that overlap, and writes nothing else.** -/
theorem memmove_copies (s : Store) (dst src n : Word) (hdst : dst.toNat + n.toNat ≤ 2 ^ 64)
    (hsrc : src.toNat + n.toNat ≤ 2 ^ 64) :
    (∀ i < n.toNat, (memmove dst src n s).1.mem (dst + BitVec.ofNat 64 i) =
      s.mem (src + BitVec.ofNat 64 i)) ∧
    ∀ x : Word, x.toNat < dst.toNat ∨ dst.toNat + n.toNat ≤ x.toNat →
      (memmove dst src n s).1.mem x = s.mem x := by
  constructor
  · intro i hi
    have hin : InRange dst n.toNat (dst + BitVec.ofNat 64 i) := inRange_add hi n.isLt.le
    rw [memmove_mem s hdst hsrc, if_pos hin, BitVec.add_comm dst, BitVec.add_sub_cancel]
  · intro x hx
    rw [memmove_mem s hdst hsrc, if_neg]
    rw [inRange_iff_of_fits hdst]
    omega

/-- Every byte is the low byte of its address. -/
def addressBytes : Store := ⟨fun x => x.setWidth 8, []⟩

/-- Five bytes, two places up. -/
theorem memmove_copies_five : ((0x1002 : Word).toNat + (5 : Word).toNat ≤ 2 ^ 64 ∧
      (0x1000 : Word).toNat + (5 : Word).toNat ≤ 2 ^ 64) ∧
    (∀ i < (5 : Word).toNat, (memmove 0x1002 0x1000 5 addressBytes).1.mem
      (0x1002 + BitVec.ofNat 64 i) = addressBytes.mem (0x1000 + BitVec.ofNat 64 i)) ∧
    ∀ x : Word, x.toNat < (0x1002 : Word).toNat ∨
        (0x1002 : Word).toNat + (5 : Word).toNat ≤ x.toNat →
      (memmove 0x1002 0x1000 5 addressBytes).1.mem x = addressBytes.mem x :=
  ⟨by decide, memmove_copies addressBytes 0x1002 0x1000 5 (by decide) (by decide)⟩

/-! ### `strlen` -/

theorem strlenLoop_eq {m : Mem} {str : List (BitVec 8)} {p : Word} (h : StrAt m p str) {fuel : Nat}
    (hfuel : str.length < fuel) (l : Word) :
    strlenLoop m fuel p l = some (l + BitVec.ofNat 64 str.length) := by
  induction str generalizing p fuel l with
  | nil =>
    cases fuel with
    | zero => exact absurd hfuel (Nat.not_lt_zero _)
    | succ fuel =>
      rw [strlenLoop, if_pos h.head_nil, List.length_nil, BitVec.add_zero]
  | cons c str ih =>
    cases fuel with
    | zero => exact absurd hfuel (Nat.not_lt_zero _)
    | succ fuel =>
      have hne : m p ≠ 0 := h.head ▸ h.ne_zero c List.mem_cons_self
      rw [strlenLoop, if_neg hne, ih h.tail (Nat.lt_of_succ_lt_succ hfuel), List.length_cons,
        add_ofNat_succ]

theorem strlen_eq {m : Mem} {str : List (BitVec 8)} {p : Word} (h : StrAt m p str) :
    strlen m p = some (BitVec.ofNat 64 str.length) := by
  rw [strlen, strlenLoop_eq h h.length_lt]
  exact congrArg some (BitVec.zero_add _)

/-! ### Buffers that are full -/

variable {m : Mem} {dst src : Word} {str : List (BitVec 8)}

/-- The memory after `k` bytes of a string and a null character have been written. -/
def cutOff (m : Mem) (dst src : Word) (k : Nat) : Store :=
  (copyUp k dst src ⟨m, []⟩).put (dst + BitVec.ofNat 64 k) 0

theorem cutOff_written {k : Nat} (hk : k < 2 ^ 64) {x : Word}
    (hx : x ∈ (cutOff m dst src k).written) : InRange dst (k + 1) x := by
  rw [cutOff, Store.put_written, List.mem_cons, copyUp_written hk.le] at hx
  rw [inRange_succ hk]
  exact hx.imp_right fun h => h.resolve_right List.not_mem_nil

theorem cutOff_mem {k i : Nat} (hk : k < 2 ^ 64) (hi : i < k) :
    (cutOff m dst src k).mem (dst + BitVec.ofNat 64 i) =
      m (src + BitVec.ofNat 64 (i % (dst - src).toNat)) := by
  have hne : dst + BitVec.ofNat 64 i ≠ dst + BitVec.ofNat 64 k := by
    intro heq
    have hin := inRange_add (a := dst) hi hk.le
    rw [heq] at hin
    exact not_inRange_end dst hk hin
  rw [cutOff, Store.put_mem_of_ne hne, copyUp_mem_add hk.le hi]

/-- Outside of the buffer. -/
theorem cutOff_mem_of_not_inRange {k : Nat} (hk : k < 2 ^ 64) {x : Word}
    (hx : ¬ InRange dst (k + 1) x) : (cutOff m dst src k).mem x = m x := by
  rw [inRange_succ hk, not_or] at hx
  rw [cutOff, Store.put_mem_of_ne hx.1, copyUp_mem hk.le, if_neg hx.2]

theorem cutOff_strAt_iff (h : StrAt m src str) {k : Nat} (hk : k ≤ str.length) :
    StrAt (cutOff m dst src k).mem dst (str.take k) ↔
      ∀ i, i < k → str[i % (dst - src).toNat]? = str[i]? := by
  have hlt : k < 2 ^ 64 := lt_of_le_of_lt hk h.length_lt
  have hlen : (str.take k).length = k := by rw [List.length_take, Nat.min_eq_left hk]
  have hread : ∀ i, i < k → str[i % (dst - src).toNat]? =
      some ((cutOff m dst src k).mem (dst + BitVec.ofNat 64 i)) := by
    intro i hi
    have hmod : i % (dst - src).toNat < str.length :=
      lt_of_le_of_lt (Nat.mod_le _ _) (lt_of_lt_of_le hi hk)
    rw [cutOff_mem hlt hi, h.bytes _ hmod, List.getElem?_eq_getElem hmod]
  constructor
  · intro hstr i hi
    have hbyte := hstr.bytes i (by rw [hlen]; exact hi)
    rw [hread i hi, hbyte, List.getElem_take, List.getElem?_eq_getElem]
  · intro hperiod
    refine ⟨fun i hi => ?_, fun c hc => h.ne_zero c (List.mem_of_mem_take hc), ?_⟩
    · rw [hlen] at hi
      have heq := (hread i hi).symm.trans (hperiod i hi)
      rw [List.getElem?_eq_getElem (lt_of_lt_of_le hi hk)] at heq
      rw [List.getElem_take]
      exact Option.some.inj heq
    · rw [hlen, cutOff]
      exact Store.put_mem_self ..

/-- `"ab"` at `0x1000` and `"c"` at `0x2000`. -/
def exampleAbC : Mem := fun x =>
  if x = 0x1000 then 0x61 else if x = 0x1001 then 0x62 else if x = 0x2000 then 0x63 else 0

theorem exampleAbC_ab : StrAt exampleAbC 0x1000 [0x61, 0x62] where
  bytes := by
    intro i hi
    have : i = 0 ∨ i = 1 := by
      have : i < 2 := hi
      omega
    rcases this with rfl | rfl <;> rfl
  ne_zero := by decide
  terminated := rfl

theorem exampleAbC_c : StrAt exampleAbC 0x2000 [0x63] where
  bytes := by
    intro i hi
    obtain rfl : i = 0 := Nat.lt_one_iff.mp hi
    rfl
  ne_zero := by decide
  terminated := rfl

end AncoreOS.Klibc
