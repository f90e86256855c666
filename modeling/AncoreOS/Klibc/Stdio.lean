import AncoreOS.Library.ByteMemory
import AncoreOS.Library.Scanner
import Mathlib.Data.Nat.Digits.Lemmas

/-!
# `itoa` and `printf`

A format is the list of the characters before its null character, and the variable arguments
are words: an `int` is the low half of one.  What a call prints is a list of marked
characters (`Emit`), so that padding, the `0x` of a hexadecimal number and the carriage
returns can be told from the text.

Reading past the end of the format, or more arguments than there are, has no result.  So has
`%f`: floating point numbers are left out.

`numeral base n` is `n` in digits, which is what the loops of `itoa` come to (`itoa_hex`,
`itoa_dec`).
-/

namespace AncoreOS.Klibc

open ByteMemory Scanner

/-! ### Numbers -/

/-- The character for a digit. -/
def digitOf (rem : Nat) : Char :=
  if 9 < rem then Char.ofNat (rem - 10 + 97) else Char.ofNat (rem + 48)

/-- The loop of `itoa`, last digit first.  A number has at most 32 digits. -/
def itoaLoop (base : Nat) : Nat → Nat → List Char
  | 0, _ => []
  | fuel + 1, value =>
    if value = 0 then [] else digitOf (value % base) :: itoaLoop base fuel (value / base)

/-- The base is unsigned, so the loop works on the unsigned value. -/
def itoa (value : BitVec 32) (base : Nat) : List Char :=
  if value = 0 then ['0']
  else
    let isNegative := decide (value.toInt < 0) && base == 10
    let value := if isNegative then -value else value
    (itoaLoop base 32 value.toNat ++ if isNegative then ['-'] else []).reverse

/-- A number in digits. -/
def numeral (base n : Nat) : List Char :=
  if n = 0 then ['0'] else ((Nat.digits base n).map digitOf).reverse

theorem itoaLoop_eq {base : Nat} (hbase : 1 < base) {fuel value : Nat} (h : value < base ^ fuel) :
    itoaLoop base fuel value = (Nat.digits base value).map digitOf := by
  induction fuel generalizing value with
  | zero =>
    obtain rfl : value = 0 := by simpa using h
    simp [itoaLoop]
  | succ fuel ih =>
    rw [itoaLoop]
    split
    · rename_i hzero
      simp [hzero]
    · rename_i hpos
      have hdiv : value / base < base ^ fuel := by
        apply Nat.div_lt_of_lt_mul
        rwa [Nat.pow_succ, Nat.mul_comm] at h
      rw [ih hdiv, Nat.digits_def' hbase (Nat.pos_of_ne_zero hpos), List.map_cons]

theorem itoaLoop_toNat {base : Nat} (hbase : 1 < base) (value : BitVec 32) :
    itoaLoop base 32 value.toNat = (Nat.digits base value.toNat).map digitOf := by
  apply itoaLoop_eq hbase
  calc value.toNat < 2 ^ 32 := value.isLt
    _ ≤ base ^ 32 := Nat.pow_le_pow_left hbase 32

theorem itoa_hex (value : BitVec 32) : itoa value 16 = numeral 16 value.toNat := by
  unfold itoa numeral
  by_cases hzero : value = 0
  · simp [hzero]
  · have hne : value.toNat ≠ 0 := fun h => hzero (BitVec.eq_of_toNat_eq h)
    rw [if_neg hzero, if_neg hne]
    simp [itoaLoop_toNat]

theorem itoa_dec (value : BitVec 32) :
    itoa value 10 = if value.toInt < 0 then '-' :: numeral 10 (-value).toNat
      else numeral 10 value.toNat := by
  unfold itoa numeral
  by_cases hzero : value = 0
  · simp [hzero]
  · have hne : value.toNat ≠ 0 := fun h => hzero (BitVec.eq_of_toNat_eq h)
    have hneg : (-value).toNat ≠ 0 := by
      intro h
      have : -value = 0 := BitVec.eq_of_toNat_eq h
      exact hzero (by simpa using this)
    by_cases hlt : value.toInt < 0
    · rw [if_neg hzero, if_pos hlt, if_neg hneg, ← itoaLoop_toNat (by decide)]
      simp [hlt]
    · rw [if_neg hzero, if_neg hlt, if_neg hne]
      simp [hlt, itoaLoop_toNat]

/-- A numeral has no sign. -/
theorem not_mem_numeral {base : Nat} (hbase : 1 < base) (hle : base ≤ 16) (n : Nat) :
    '-' ∉ numeral base n := by
  have hdigit : ∀ d < 16, digitOf d ≠ '-' := by decide
  unfold numeral
  split
  · decide
  · intro h
    obtain ⟨d, hd, heq⟩ := List.mem_map.mp (List.mem_reverse.mp h)
    exact hdigit d (lt_of_lt_of_le (Nat.digits_lt_base hbase hd) hle) heq

/-- A number with more than eight hexadecimal digits is longer than its low half. -/
theorem numeral_low_length {n : Nat} (hn : 2 ^ 32 ≤ n) :
    (numeral 16 (n % 2 ^ 32)).length < (numeral 16 n).length := by
  have hlong : 8 < (numeral 16 n).length := by
    rw [numeral, if_neg (by omega), List.length_reverse, List.length_map]
    have hlt : n < 16 ^ (Nat.digits 16 n).length := Nat.lt_base_pow_length_digits (by decide)
    by_contra hle
    have hpow : 16 ^ (Nat.digits 16 n).length ≤ 16 ^ 8 :=
      Nat.pow_le_pow_right (by decide) (Nat.le_of_not_lt hle)
    omega
  have hshort : (numeral 16 (n % 2 ^ 32)).length ≤ 8 := by
    unfold numeral
    split
    · decide
    · rw [List.length_reverse, List.length_map]
      apply (Nat.digits_length_le_iff (by decide) _).mpr
      omega
  omega

/-! ### Output -/

/-- A character that is printed, and what for. -/
inductive Emit
  | text (c : Char)
  | pad (c : Char)
  | hexPrefix (c : Char)
  | carriageReturn
  | header (c : Char)
  deriving DecidableEq, Repr

/-- The text, without padding, `0x`, carriage returns and the header of a message. -/
def textOf (out : List Emit) : List Char :=
  out.filterMap fun
    | .text c => some c
    | _ => none

/-- What a marked character is on the terminal. -/
def emitChar : Emit → Char
  | .text c => c
  | .pad c => c
  | .hexPrefix c => c
  | .carriageReturn => '\r'
  | .header c => c

/-- All characters that are printed, padding among them. -/
def charsOf (out : List Emit) : List Char := out.map emitChar

def zeroX : List Emit := [.hexPrefix '0', .hexPrefix 'x']

/-- What a call prints, and the number of arguments it takes. -/
structure Printed where
  out : List Emit
  used : Nat

@[simp] theorem textOf_append (out out' : List Emit) :
    textOf (out ++ out') = textOf out ++ textOf out' :=
  List.filterMap_append

@[simp] theorem textOf_map (l : List Char) : textOf (l.map .text) = l := by
  simp [textOf]

theorem textOf_flatMap {ι : Type*} (f : ι → List Emit) (l : List ι) :
    textOf (l.flatMap f) = l.flatMap fun i => textOf (f i) := by
  induction l with
  | nil => rfl
  | cons i l ih => rw [List.flatMap_cons, textOf_append, ih, List.flatMap_cons]

/-! ### Arguments -/

/-- The characters at `p` up to the null character. -/
def cstr (mem : Mem) : Nat → Word → Option (List Char)
  | 0, _ => none
  | n + 1, p =>
    if mem p = 0 then some [] else (cstr mem n (p + 1)).map (Char.ofNat (mem p).toNat :: ·)

/-- The string at `p`, if memory has a null character. -/
def string (mem : Mem) (p : Word) : Option (List Char) := cstr mem (2 ^ 64) p

def print (out : List Emit) : Action Emit (List Word) := fun args => some (out, args)

/-- `va_arg`, and what is printed of the argument. -/
def vaArg (f : Word → Option (List Emit)) : Action Emit (List Word)
  | [] => none
  | a :: args => (f a).map fun out => (out, args)

theorem print_length {out out' : List Emit} {args args' : List Word}
    (h : print out args = some (out', args')) : args.length = 0 + args'.length := by
  obtain ⟨_, rfl⟩ := Prod.mk.inj (Option.some.inj h)
  exact (Nat.zero_add _).symm

theorem vaArg_length {f : Word → Option (List Emit)} {out : List Emit} {args args' : List Word}
    (h : vaArg f args = some (out, args')) : args.length = 1 + args'.length := by
  cases args with
  | nil => exact absurd h (Option.some_ne_none _).symm
  | cons a args =>
    obtain ⟨_, _, heq⟩ := Option.map_eq_some_iff.mp h
    obtain ⟨_, rfl⟩ := Prod.mk.inj heq
    rw [List.length_cons, Nat.add_comm]

/-! ### `printf` -/

inductive LengthModifier
  | none
  | long
  | longlong
  deriving DecidableEq, Repr

/-- `l`, `ll` or `L`, and what is left of the format. -/
def lengthModifier : List Char → LengthModifier × List Char
  | 'l' :: 'l' :: format => (.longlong, format)
  | 'l' :: format => (.long, format)
  | 'L' :: format => (.longlong, format)
  | format => (.none, format)

/-- The digits of the width. -/
def widthLoop (pad : BitVec 32) : List Char → BitVec 32 × List Char
  | [] => (pad, [])
  | c :: format =>
    if '0' ≤ c ∧ c ≤ '9' then widthLoop (pad * 10 + BitVec.ofNat 32 (c.toNat - 48)) format
    else (pad, c :: format)

/-- The end of a round of `printf`, with the string that is to be printed. -/
def padded (padChar : Char) (pad : BitVec 32) (p : List Char) : List Emit :=
  List.replicate (pad.toInt - (BitVec.ofNat 32 p.length).toInt).toNat (.pad padChar) ++ p.map .text

/-- `%m`: bytes of memory, or of the seven that `"(null)"` takes. -/
def printfMem (mem : Mem) (pad : BitVec 32) (a : Word) : Option (List Emit) :=
  let len := if pad = 0 then 16 else pad.toInt.toNat
  if a = 0 then
    if len ≤ 7 then some (("(null)\x00".toList.take len).map .text) else none
  else
    some ((List.range len).map fun i => .text (Char.ofNat (mem (a + BitVec.ofNat 64 i)).toNat))

/-- The `switch` of `printf`.  `itoa` takes an `int32_t`, so what the length modifier changes is
the type of the argument only. -/
def printfConversion (mem : Mem) (padChar : Char) (pad : BitVec 32) (c : Char) :
    Action Emit (List Word) :=
  match c with
  | 'd' => vaArg fun a => some (padded padChar pad (itoa (a.setWidth 32) 10))
  | 'u' => vaArg fun a => some (padded padChar pad (itoa (a.setWidth 32) 10))
  | 'x' => vaArg fun a => some (zeroX ++ padded padChar pad (itoa (a.setWidth 32) 16))
  | 'o' => vaArg fun a => some (padded padChar pad (itoa (a.setWidth 32) 8))
  | 'f' => fun _ => none
  | 's' => vaArg fun a =>
    (if a = 0 then some "(null)".toList else string mem a).map (padded padChar pad)
  | 'c' => vaArg fun a => some [.text (Char.ofNat (a.setWidth 8).toNat)]
  | 'p' => vaArg fun a => some (zeroX ++ padded padChar pad (itoa (a.setWidth 32) 16))
  | 'm' => vaArg (printfMem mem pad)
  | c => print [.text c]

/-- One round of the loop, for the character `c`. -/
def printfStep (mem : Mem) : Step Char Emit (List Word) := fun c format args =>
  if c ≠ '%' then some ([.text c], format, args)
  else
    let (padChar, format) := if format.head? = some '0' then ('0', format.tail) else (' ', format)
    let (pad, format) := widthLoop 0 format
    let (_, format) := lengthModifier format
    match format with
    | [] => none
    | c :: format => (printfConversion mem padChar pad c args).map fun r => (r.1, format, r.2)

/-- The return value, and what is printed.  There is nothing to print to before
`global_flanterm` is set. -/
def printf (globalFlanterm : Bool) (mem : Mem) (format : List Char) (args : List Word) :
    Option (Int × Printed) :=
  if globalFlanterm then
    (scan (printfStep mem) format.length format args).map fun r =>
      ((BitVec.ofNat 32 r.1.length).toInt, ⟨r.1, args.length - r.2.length⟩)
  else some (-1, ⟨[], 0⟩)

end AncoreOS.Klibc
