import AncoreOS.Klibc.Stdio

/-!
# `serial_printf`

The printer of `tools/serial.c`.  It has the length modifiers of `printf` but no flag and no
width, and numbers of its own: `serial_print_dec` and `serial_print_hex` take 64 bits, where
`itoa` takes 32.  The port itself is not looked at: `putc` waits and writes.
-/

namespace AncoreOS.Tools

open ByteMemory Scanner AncoreOS.Klibc

/-- A character, with a carriage return in front of a newline. -/
def serialChar (c : Char) : List Emit :=
  if c = '\n' then [.carriageReturn, .text c] else [.text c]

def serialWrite (msg : List Char) : List Emit := msg.flatMap serialChar

/-! ### Numbers -/

def hexDigits : List Char := "0123456789abcdef".toList

/-- The digits in `buffer`, last digit first; there is room for sixteen. -/
def serialHexLoop : Nat → Word → List Char
  | 0, _ => []
  | n + 1, num =>
    if num = 0 then [] else hexDigits.getD (num &&& 0xF).toNat '0' :: serialHexLoop n (num >>> 4)

def serialPrintHex (num : Word) (width : Nat) : List Emit :=
  if num = 0 then [.text '0']
  else
    let buffer := serialHexLoop 16 num
    List.replicate (width - buffer.length) (.pad '0') ++ buffer.reverse.map .text

/-- The loop runs while the number is positive. -/
def serialDecLoop : Nat → Word → List Char
  | 0, _ => []
  | n + 1, num =>
    if 0 < num.toInt then Char.ofNat (48 + num.toNat % 10) :: serialDecLoop n (num / 10) else []

def serialPrintDec (num : Word) : List Emit :=
  let sign := if num.toInt < 0 then [Emit.text '-'] else []
  let num := if num.toInt < 0 then -num else num
  if num = 0 then sign ++ [.text '0'] else sign ++ (serialDecLoop 20 num).reverse.map .text

/-! ### `serial_printf` -/

/-- An `unsigned int` argument. -/
def unsignedArg (a : Word) : Word := (a.setWidth 32).setWidth 64

/-- The `switch` of `serial_printf`. -/
def serialConversion (mem : Mem) (length : LengthModifier) (c : Char) : Action Emit (List Word) :=
  match c with
  | 'd' => vaArg fun a => some (serialPrintDec ((a.setWidth 32).signExtend 64))
  | 'i' => vaArg fun a => some (serialPrintDec ((a.setWidth 32).signExtend 64))
  | 'u' => vaArg fun a => some (serialPrintDec (unsignedArg a))
  | 'x' => vaArg fun a =>
    match length with
    | .longlong => some (zeroX ++ serialPrintHex a 16)
    | .long => some ((if a ≠ 0 then zeroX else []) ++ serialPrintHex a 16)
    | .none => some ((if unsignedArg a ≠ 0 then zeroX else []) ++ serialPrintHex (unsignedArg a) 0)
  | 'X' => vaArg fun a =>
    match length with
    | .longlong => some (zeroX ++ serialPrintHex a 16)
    | .long => some (serialPrintHex a 16)
    | .none => some (serialPrintHex (unsignedArg a) 0)
  | 'p' => vaArg fun a => some (zeroX ++ serialPrintHex a 0)
  | 's' => vaArg fun a => (string mem a).map serialWrite
  | 'c' => vaArg fun a => some [.text (Char.ofNat (a.setWidth 8).toNat)]
  | '%' => print [.text '%']
  | c => print [.text '%', .text c]

/-- One round of the loop, for the character `c` in front of `p`. -/
def serialStep (mem : Mem) : Step Char Emit (List Word) := fun c p args =>
  if c = '%' ∧ p ≠ [] then
    let (length, p) := lengthModifier p
    match p with
    | [] => none
    | c :: p => (serialConversion mem length c args).map fun r => (r.1, p, r.2)
  else some (serialChar c, p, args)

def serialPrintf (mem : Mem) (fmt : List Char) (args : List Word) : Option Printed :=
  (scan (serialStep mem) fmt.length fmt args).map fun r => ⟨r.1, args.length - r.2.length⟩

/-! ### What is printed -/

@[simp] theorem textOf_serialChar (c : Char) : textOf (serialChar c) = [c] := by
  unfold serialChar
  split <;> rfl

@[simp] theorem textOf_serialWrite (msg : List Char) : textOf (serialWrite msg) = msg := by
  rw [serialWrite, textOf_flatMap]
  simp

theorem hexDigits_getD {d : Nat} (hd : d < 16) : hexDigits.getD d '0' = digitOf d := by
  have hall : ∀ d < 16, hexDigits.getD d '0' = digitOf d := by decide
  exact hall d hd

theorem serialHexLoop_eq {n : Nat} {num : Word} (h : num.toNat < 16 ^ n) :
    serialHexLoop n num = (Nat.digits 16 num.toNat).map digitOf := by
  induction n generalizing num with
  | zero =>
    have hzero : num.toNat = 0 := by simpa using h
    simp [serialHexLoop, hzero]
  | succ n ih =>
    rw [serialHexLoop]
    split
    · rename_i hzero
      simp [hzero]
    · rename_i hne
      have hpos : 0 < num.toNat := Nat.pos_of_ne_zero fun h => hne (BitVec.eq_of_toNat_eq h)
      have hshift : (num >>> 4).toNat = num.toNat / 16 := by
        rw [BitVec.toNat_ushiftRight, Nat.shiftRight_eq_div_pow]
      have hmask : (num &&& 0xF).toNat = num.toNat % 16 := by
        rw [BitVec.toNat_and]
        exact Nat.and_two_pow_sub_one_eq_mod num.toNat 4
      have hrec : (num >>> 4).toNat < 16 ^ n := by
        rw [hshift]
        apply Nat.div_lt_of_lt_mul
        rwa [Nat.pow_succ, Nat.mul_comm] at h
      rw [ih hrec, hshift, hmask, hexDigits_getD (Nat.mod_lt _ (by decide)),
        Nat.digits_def' (by decide) hpos, List.map_cons]

theorem textOf_pads (n : Nat) (c : Char) : textOf (List.replicate n (.pad c)) = [] := by
  simp [textOf]

@[simp] theorem textOf_zeroX : textOf zeroX = [] := rfl

@[simp] theorem textOf_padded (padChar : Char) (pad : BitVec 32) (p : List Char) :
    textOf (padded padChar pad p) = p := by
  rw [padded, textOf_append, textOf_pads, textOf_map, List.nil_append]

@[simp] theorem textOf_serialPrintHex (num : Word) (width : Nat) :
    textOf (serialPrintHex num width) = numeral 16 num.toNat := by
  have hloop := serialHexLoop_eq (n := 16) num.isLt
  unfold serialPrintHex numeral
  by_cases hzero : num = 0
  · simp [hzero, textOf]
  · have hne : num.toNat ≠ 0 := fun h => hzero (BitVec.eq_of_toNat_eq h)
    rw [if_neg hzero, if_neg hne, hloop, textOf_append, textOf_pads, textOf_map]
    rfl

theorem serialDecLoop_eq {n : Nat} {num : Word} (hsign : num.toNat < 2 ^ 63)
    (h : num.toNat < 10 ^ n) : serialDecLoop n num = (Nat.digits 10 num.toNat).map digitOf := by
  have hdigit : ∀ d < 10, Char.ofNat (48 + d) = digitOf d := by decide
  induction n generalizing num with
  | zero =>
    have hzero : num.toNat = 0 := by simpa using h
    simp [serialDecLoop, hzero]
  | succ n ih =>
    have hint : num.toInt = num.toNat := BitVec.toInt_eq_toNat_of_lt (by omega)
    rw [serialDecLoop, hint]
    split
    · rename_i hpos
      have hdiv : (num / 10).toNat = num.toNat / 10 := BitVec.toNat_udiv
      have hrec : (num / 10).toNat < 10 ^ n := by
        rw [hdiv]
        apply Nat.div_lt_of_lt_mul
        rwa [Nat.pow_succ, Nat.mul_comm] at h
      have hdigits := Nat.digits_def' (b := 10) (by decide) (show 0 < num.toNat by omega)
      rw [ih (by omega) hrec, hdiv, hdigit _ (Nat.mod_lt _ (by decide)), hdigits, List.map_cons]
    · have hzero : num.toNat = 0 := by omega
      simp [hzero]

/-- A number that is not negative. -/
theorem serialPrintDec_of_nonneg {num : Word} (h : num.toNat < 2 ^ 63) :
    textOf (serialPrintDec num) = numeral 10 num.toNat := by
  have hint : num.toInt = num.toNat := BitVec.toInt_eq_toNat_of_lt (by omega)
  have hnonneg : ¬num.toInt < 0 := by omega
  unfold serialPrintDec numeral
  simp only [hnonneg, if_false]
  by_cases hzero : num = 0
  · simp [hzero, textOf]
  · have hne : num.toNat ≠ 0 := fun h => hzero (BitVec.eq_of_toNat_eq h)
    rw [if_neg hzero, if_neg hne, serialDecLoop_eq h (by omega), List.nil_append, textOf_map]

theorem serialPrintDec_of_neg {num : Word} (h : num.toInt < 0) (hneg : (-num).toNat < 2 ^ 63) :
    textOf (serialPrintDec num) = '-' :: numeral 10 (-num).toNat := by
  have hne : -num ≠ 0 := by
    intro hzero
    obtain rfl : num = 0 := by simpa using hzero
    exact absurd h (by decide)
  have hne' : (-num).toNat ≠ 0 := fun h => hne (BitVec.eq_of_toNat_eq h)
  unfold serialPrintDec numeral
  simp only [h, if_true]
  rw [if_neg hne, if_neg hne', serialDecLoop_eq hneg (by omega), textOf_append, textOf_map]
  rfl

@[simp] theorem textOf_serialPrintDec_signed (v : BitVec 32) :
    textOf (serialPrintDec (v.signExtend 64)) = itoa v 10 := by
  have hint : (v.signExtend 64).toInt = v.toInt := BitVec.toInt_signExtend_of_le (by decide)
  rw [itoa_dec]
  split
  · rename_i hneg
    have hnat : (-v.signExtend 64).toNat = (-v).toNat := by
      have hv := BitVec.toInt_eq_toNat_cond v
      have hw := BitVec.toInt_eq_toNat_cond (v.signExtend 64)
      rw [BitVec.toNat_neg, BitVec.toNat_neg]
      split at hv <;> split at hw <;> omega
    rw [serialPrintDec_of_neg (by rwa [hint]) (by rw [hnat]; omega), hnat]
  · rename_i hnonneg
    have hnat : (v.signExtend 64).toNat = v.toNat := by
      have hv := BitVec.toInt_eq_toNat_cond v
      have hw := BitVec.toInt_eq_toNat_cond (v.signExtend 64)
      split at hv <;> split at hw <;> omega
    rw [serialPrintDec_of_nonneg (by rw [hnat]; omega), hnat]

@[simp] theorem unsignedArg_toNat (a : Word) : (unsignedArg a).toNat = a.toNat % 2 ^ 32 := by
  rw [unsignedArg, BitVec.toNat_setWidth, BitVec.toNat_setWidth]
  omega

@[simp] theorem textOf_serialPrintDec_unsigned (a : Word) :
    textOf (serialPrintDec (unsignedArg a)) = numeral 10 (a.toNat % 2 ^ 32) := by
  rw [serialPrintDec_of_nonneg (by rw [unsignedArg_toNat]; omega), unsignedArg_toNat]

end AncoreOS.Tools
