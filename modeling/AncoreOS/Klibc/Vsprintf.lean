import AncoreOS.Klibc.Stdio

/-!
# `vsprintf`

The printer of `klibc/stdio.c` that writes to a buffer.  It has numbers of its own
(`num_to_str` takes 64 bits), and it pads a field when the field is already written: the field is
moved to the right, and the gap is filled.

The buffer is a function from offsets to characters and has no end.  What the scanner puts out
are the offsets that are written, so one can ask afterwards whether they are inside a buffer of
some size.  As in `printf`, reading past the end of the format, or more arguments than there are,
has no result.
-/

namespace AncoreOS.Klibc

open ByteMemory Scanner

/-- The buffer, the offset of `str` in it, and the arguments that are left. -/
structure Sprint where
  buf : Nat → Char
  str : Nat
  args : List Word

/-- `*str++ = c`. -/
def putChar (c : Char) : Action Nat Sprint := fun s =>
  some ([s.str], { s with buf := Function.update s.buf s.str c, str := s.str + 1 })

/-- An assignment to the buffer at some offset. -/
def setChar (i : Nat) (c : Char) : Action Nat Sprint := fun s =>
  some ([i], { s with buf := Function.update s.buf i c })

/-- `va_arg`, and what is done with the argument. -/
def takeArg (f : Word → Action Nat Sprint) : Action Nat Sprint := fun s =>
  match s.args with
  | [] => none
  | a :: args => f a { s with args := args }

/-! ### Numbers -/

def numDigits (uppercase : Bool) : List Char :=
  if uppercase then "0123456789ABCDEF".toList else "0123456789abcdef".toList

/-- The digits in `tmp`, last digit first; there is room for 32. -/
def numToStrLoop (base : Nat) (uppercase : Bool) : Nat → Nat → List Char
  | 0, _ => []
  | fuel + 1, num =>
    if num = 0 then []
    else (numDigits uppercase).getD (num % base) '0' :: numToStrLoop base uppercase fuel (num / base)

def numToStr (num : Word) (base : Nat) (uppercase : Bool) : Action Nat Sprint :=
  if num = 0 then putChar '0' else run putChar (numToStrLoop base uppercase 32 num.toNat).reverse

/-! ### Conversions -/

/-- `is_long` and `is_long_long`.  `size_t`, `long` and `long long` have the same size. -/
def sprintLength : List Char → (Bool × Bool) × List Char
  | 'l' :: 'l' :: fmt => ((true, true), fmt)
  | 'l' :: fmt => ((true, false), fmt)
  | 'h' :: 'h' :: fmt => ((false, false), fmt)
  | 'h' :: fmt => ((false, false), fmt)
  | 'z' :: fmt => ((true, true), fmt)
  | fmt => ((false, false), fmt)

/-- The argument as a `long long`. -/
def signedArg (isLong isLongLong : Bool) (a : Word) : Word :=
  if isLongLong then a else if isLong then a else (a.setWidth 32).signExtend 64

/-- The argument as an `unsigned long long`. -/
def unsignedNum (isLong isLongLong : Bool) (a : Word) : Word :=
  if isLongLong then a else if isLong then a else (a.setWidth 32).setWidth 64

/-- A signed number.  The most negative one is its own negative. -/
def putSigned (val : Word) : Action Nat Sprint :=
  if val.toInt < 0 then (putChar '-').seq (numToStr (-val) 10 false) else numToStr val 10 false

/-- The `switch` of `vsprintf`. -/
def vsprintfConversion (mem : Mem) (isLong isLongLong : Bool) (c : Char) : Action Nat Sprint :=
  match c with
  | 'd' => takeArg fun a => putSigned (signedArg isLong isLongLong a)
  | 'i' => takeArg fun a => putSigned (signedArg isLong isLongLong a)
  | 'u' => takeArg fun a => numToStr (unsignedNum isLong isLongLong a) 10 false
  | 'x' => takeArg fun a => numToStr (unsignedNum isLong isLongLong a) 16 false
  | 'X' => takeArg fun a => numToStr (unsignedNum isLong isLongLong a) 16 true
  | 'o' => takeArg fun a => numToStr (unsignedNum isLong isLongLong a) 8 false
  | 'p' => (putChar '0').seq ((putChar 'x').seq (takeArg fun a => numToStr a 16 false))
  | 's' => takeArg fun a =>
    match if a = 0 then some "(null)".toList else string mem a with
    | none => fun _ => none
    | some s => run putChar s
  | 'c' => takeArg fun a => putChar (Char.ofNat (a.setWidth 8).toNat)
  | c => (putChar '%').seq (putChar c)

/-! ### Padding -/

/-- `start[i + pad] = start[i]` for all `i` below a bound, the greatest first. -/
def moveLoop (start pad : Nat) : Nat → Action Nat Sprint
  | 0 => Action.skip
  | i + 1 => fun s =>
    ((setChar (start + i + pad) (s.buf (start + i))).seq (moveLoop start pad i)) s

/-- `pad` times `padChar` from `start` on. -/
def fillLoop (padChar : Char) : Nat → Nat → Action Nat Sprint
  | _, 0 => Action.skip
  | start, pad + 1 => (setChar start padChar).seq (fillLoop padChar (start + 1) pad)

/-- The end of a conversion whose field begins at `start`.  The length is an `int`. -/
def sprintPad (padChar : Char) (width : BitVec 32) (start : Nat) : Action Nat Sprint := fun s =>
  let len := (BitVec.ofNat 32 (s.str - start)).toInt
  if len < width.toInt then
    let pad := (width.toInt - len).toNat
    ((moveLoop start pad len.toNat).seq (fillLoop padChar start pad) s).map fun r =>
      (r.1, { r.2 with str := r.2.str + pad })
  else some ([], s)

/-- A conversion and its padding. -/
def vsprintfField (mem : Mem) (padChar : Char) (width : BitVec 32) (isLong isLongLong : Bool)
    (c : Char) : Action Nat Sprint := fun s =>
  ((vsprintfConversion mem isLong isLongLong c).seq (sprintPad padChar width s.str)) s

/-! ### `vsprintf` -/

/-- One round of the loop, for the character `c`. -/
def vsprintfStep (mem : Mem) : Step Char Nat Sprint := fun c fmt s =>
  if c ≠ '%' then (putChar c s).map fun r => (r.1, fmt, r.2)
  else if fmt.head? = some '%' then (putChar '%' s).map fun r => (r.1, fmt.tail, r.2)
  else
    let (padChar, fmt) := if fmt.head? = some '0' then ('0', fmt.tail) else (' ', fmt)
    let (width, fmt) := widthLoop 0 fmt
    let ((isLong, isLongLong), fmt) := sprintLength fmt
    match fmt with
    | [] => none
    | c :: fmt =>
      (vsprintfField mem padChar width isLong isLongLong c s).map fun r => (r.1, fmt, r.2)

/-- What a call leaves: the return value, the buffer, and the offsets it has written. -/
structure Sprinted where
  result : Int
  buf : Nat → Char
  written : List Nat

def vsprintf (mem : Mem) (buf : Nat → Char) (fmt : List Char) (args : List Word) :
    Option Sprinted :=
  (((scan (vsprintfStep mem) fmt.length fmt).seq fun s => setChar s.str '\x00' s)
    ⟨buf, 0, args⟩).map fun r => ⟨(BitVec.ofNat 32 r.2.str).toInt, r.2.buf, r.1⟩

end AncoreOS.Klibc
