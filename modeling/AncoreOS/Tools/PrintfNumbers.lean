import AncoreOS.Klibc.Itoa
import AncoreOS.Tools.FormatItems

/-!
# Numbers in `printf`

`printf` takes an argument of the type that the length modifier asks for, and gives it to `itoa`,
which takes an `int32_t`.  So the digits are those of the argument only if it survives that:
`NumberConversion.Fits`, and `printf_number_iff`.

Signed and unsigned decimal numbers share `itoa` with base 10, so `%u` prints a minus sign for
a number that is negative as an `int32_t`.
-/

namespace AncoreOS.Tools

open ByteMemory Scanner AncoreOS.Klibc

/-! ### Conversions -/

inductive NumberConversion
  | d
  | u
  | x
  | o
  | p
  deriving DecidableEq, Repr

namespace NumberConversion

def char : NumberConversion → Char
  | .d => 'd'
  | .u => 'u'
  | .x => 'x'
  | .o => 'o'
  | .p => 'p'

/-- The argument as an unsigned number of the type that the conversion takes. -/
def unsigned (len : LengthModifier) (a : Word) : Nat :=
  match len with
  | .none => a.toNat % 2 ^ 32
  | _ => a.toNat

/-- The argument as a signed number. -/
def signed (len : LengthModifier) (a : Word) : Int :=
  match len with
  | .none => (a.setWidth 32).toInt
  | _ => a.toInt

/-- The numeral of the argument: signed for `d`, unsigned for the others. -/
def digits (k : NumberConversion) (len : LengthModifier) (a : Word) : List Char :=
  match k with
  | .d => signedNumeral (signed len a)
  | .u => numeral 10 (unsigned len a)
  | .x => numeral 16 (unsigned len a)
  | .o => numeral 8 (unsigned len a)
  | .p => numeral 16 a.toNat

/-- The argument is not changed when it is made an `int32_t`, and printed as one. -/
def Fits (k : NumberConversion) (len : LengthModifier) (a : Word) : Prop :=
  match k with
  | .d => -2 ^ 31 ≤ signed len a ∧ signed len a < 2 ^ 31
  | .u => unsigned len a < 2 ^ 31
  | .x => unsigned len a < 2 ^ 32
  | .o => unsigned len a < 2 ^ 32
  | .p => a.toNat < 2 ^ 32

end NumberConversion

/-- `%`, the modifiers and the conversion. -/
def numberFormat (m : Modifiers) (k : NumberConversion) : List Char :=
  '%' :: (digitChars m.digits ++ (lengthChars m.length ++ [k.char]))

/-! ### The call -/

theorem lengthModifier_of_ne (len : LengthModifier) {c : Char} (hl : c ≠ 'l') (hL : c ≠ 'L')
    (rest : List Char) : lengthModifier (lengthChars len ++ c :: rest) = (len, c :: rest) := by
  cases len with
  | none =>
    rw [lengthChars, List.nil_append]
    unfold lengthModifier
    split <;> simp_all
  | long =>
    show lengthModifier ('l' :: c :: rest) = _
    unfold lengthModifier
    split <;> simp_all
  | longlong => rfl

/-- A conversion with its modifiers. -/
theorem reads_modifiers {mem : Mem} (m : Modifiers) {c : Char} (hdigit : ¬('0' ≤ c ∧ c ≤ '9'))
    (hl : c ≠ 'l') (hL : c ≠ 'L') :
    Reads (printfStep mem) ('%' :: (digitChars m.digits ++ (lengthChars m.length ++ [c])))
      (printfConversion mem (flagged m.digits).1 (widthOf m.digits) c) := by
  refine Reads.one fun rest args => ?_
  obtain ⟨e, l, heq, he⟩ : ∃ e l, lengthChars m.length ++ c :: rest = e :: l ∧
      ¬('0' ≤ e ∧ e ≤ '9') := by
    cases m.length with
    | none => exact ⟨c, rest, rfl, hdigit⟩
    | long => exact ⟨'l', c :: rest, rfl, by decide⟩
    | longlong => exact ⟨'l', 'l' :: c :: rest, rfl, by decide⟩
  have hlen := lengthModifier_of_ne m.length hl hL rest
  have hchars : digitChars m.digits ++ (lengthChars m.length ++ [c]) ++ rest =
      digitChars m.digits ++ e :: l := by
    rw [← heq]
    simp
  rw [heq] at hlen
  rw [hchars]
  simp only [printfStep, ne_eq, not_true, if_false, flag_digits he, widthLoop_digits he, hlen]
  rfl

namespace NumberConversion

/-- The base that `itoa` gets. -/
def base : NumberConversion → Nat
  | .d => 10
  | .u => 10
  | .x => 16
  | .o => 8
  | .p => 16

/-- What is printed for an argument. -/
def emits (k : NumberConversion) (digits : List (Fin 10)) (a : Word) : List Emit :=
  let p := padded (flagged digits).1 (widthOf digits) (itoa (a.setWidth 32) k.base)
  match k with
  | .x => zeroX ++ p
  | .p => zeroX ++ p
  | _ => p

theorem textOf_emits (k : NumberConversion) (digits : List (Fin 10)) (a : Word) :
    textOf (k.emits digits a) = itoa (a.setWidth 32) k.base := by
  cases k <;> simp [emits]

theorem conversion_eq (mem : Mem) (k : NumberConversion) (digits : List (Fin 10)) :
    printfConversion mem (flagged digits).1 (widthOf digits) k.char =
      vaArg fun a => some (k.emits digits a) := by
  cases k <;> rfl

end NumberConversion

/-- A call with one number. -/
theorem printf_number (mem : Mem) (m : Modifiers) (k : NumberConversion) (a : Word)
    (args : List Word) :
    printf true mem (numberFormat m k) (a :: args) =
      some ((BitVec.ofNat 32 (k.emits m.digits a).length).toInt, ⟨k.emits m.digits a, 1⟩) := by
  have hreads : Reads (printfStep mem) _ _ := reads_modifiers m (c := k.char)
    (by cases k <;> decide) (by cases k <;> decide) (by cases k <;> decide)
  have hused : (a :: args).length - args.length = 1 := by simp
  rw [k.conversion_eq mem m.digits] at hreads
  rw [printf, if_pos rfl, numberFormat, hreads.scan_eq]
  simp only [vaArg, Option.map_some, hused]

/-! ### The digits -/

theorem signedNumeral_eq_iff {v w : Int} : signedNumeral v = signedNumeral w ↔ v = w :=
  ⟨signedNumeral_injective, congrArg signedNumeral⟩

theorem numeral_eq_iff {base : Nat} (h₁ : 2 ≤ base) (h₂ : base ≤ 36) {m n : Nat} :
    numeral base m = numeral base n ↔ m = n :=
  ⟨numeral_injective h₁ h₂, congrArg (numeral base)⟩

/-- An argument as the `int32_t` that `itoa` gets. -/
theorem setWidth_toInt_eq (a : Word) :
    (a.setWidth 32).toInt =
      if a.toNat % 2 ^ 32 < 2 ^ 31 then ((a.toNat % 2 ^ 32 : Nat) : Int)
      else ((a.toNat % 2 ^ 32 : Nat) : Int) - 2 ^ 32 := by
  have h := BitVec.toInt_eq_toNat_cond (a.setWidth 32)
  rw [BitVec.toNat_setWidth] at h
  split at h <;> split <;> omega

namespace NumberConversion

variable (len : LengthModifier) (a : Word)

theorem signed_eq_iff :
    (a.setWidth 32).toInt = signed len a ↔ -2 ^ 31 ≤ signed len a ∧ signed len a < 2 ^ 31 := by
  have hlow := setWidth_toInt_eq a
  have hfull := BitVec.toInt_eq_toNat_cond a
  have hlt := a.isLt
  cases len with
  | none =>
    refine iff_of_true rfl ?_
    simp only [signed]
    split at hlow <;> omega
  | long =>
    simp only [signed]
    split at hlow <;> split at hfull <;> constructor <;> omega
  | longlong =>
    simp only [signed]
    split at hlow <;> split at hfull <;> constructor <;> omega

theorem unsigned_eq_iff : (a.setWidth 32).toInt = unsigned len a ↔ unsigned len a < 2 ^ 31 := by
  have hlow := setWidth_toInt_eq a
  have hlt := a.isLt
  cases len <;> simp only [unsigned] <;> split at hlow <;> constructor <;> omega

theorem mod_eq_unsigned_iff : a.toNat % 2 ^ 32 = unsigned len a ↔ unsigned len a < 2 ^ 32 := by
  have hlt := a.isLt
  cases len with
  | none => exact iff_of_true rfl (Nat.mod_lt _ (by decide))
  | long => exact (Nat.mod_eq_iff_lt (by decide))
  | longlong => exact (Nat.mod_eq_iff_lt (by decide))

/-- The digits that `itoa` gives are those of the argument, if it fits. -/
theorem itoa_eq_digits_iff (k : NumberConversion) :
    itoa (a.setWidth 32) k.base = k.digits len a ↔ k.Fits len a := by
  have hpower : ∀ base, 1 < base → base ≠ 10 →
      itoa (a.setWidth 32) base = numeral base (a.toNat % 2 ^ 32) := by
    intro base hbase hne
    rw [itoa_eq hbase, if_neg fun h => hne h.2, BitVec.toNat_setWidth]
  cases k with
  | d =>
    rw [base, itoa_signed, digits, signedNumeral_eq_iff]
    exact signed_eq_iff len a
  | u =>
    rw [base, itoa_signed, digits, ← signedNumeral_natCast, signedNumeral_eq_iff]
    exact unsigned_eq_iff len a
  | x =>
    rw [base, hpower 16 (by decide) (by decide), digits, numeral_eq_iff (by decide) (by decide)]
    exact mod_eq_unsigned_iff len a
  | o =>
    rw [base, hpower 8 (by decide) (by decide), digits, numeral_eq_iff (by decide) (by decide)]
    exact mod_eq_unsigned_iff len a
  | p =>
    rw [base, hpower 16 (by decide) (by decide), digits, numeral_eq_iff (by decide) (by decide)]
    exact mod_eq_unsigned_iff .long a

end NumberConversion

/-- A number conversion takes its argument, and the digits are those of it if and only if it
fits. -/
theorem printf_number_iff (mem : Mem) (m : Modifiers) (k : NumberConversion) (a : Word)
    (args : List Word) :
    ∃ n out, printf true mem (numberFormat m k) (a :: args) = some (n, ⟨out, 1⟩) ∧
      (textOf out = k.digits m.length a ↔ k.Fits m.length a) := by
  refine ⟨_, _, printf_number mem m k a args, ?_⟩
  rw [k.textOf_emits]
  exact k.itoa_eq_digits_iff m.length a

/-- The greatest `unsigned int` is printed as `-1`. -/
theorem printf_unsigned_max :
    ¬ ∀ (mem : Mem) (m : Modifiers) (k : NumberConversion) (a : Word) (args : List Word),
      ∃ n out, printf true mem (numberFormat m k) (a :: args) = some (n, ⟨out, 1⟩) ∧
        textOf out = k.digits m.length a := by
  intro h
  obtain ⟨n, out, hprintf, htext⟩ := h (fun _ => 0) ⟨[], .none⟩ .u 0xFFFFFFFF []
  rw [printf_number] at hprintf
  obtain ⟨-, heq⟩ := Prod.mk.inj (Option.some.inj hprintf)
  obtain ⟨rfl, -⟩ := Printed.mk.inj heq
  rw [NumberConversion.textOf_emits, NumberConversion.itoa_eq_digits_iff] at htext
  exact absurd (show 0xFFFFFFFF % 2 ^ 32 < 2 ^ 31 from htext) (by decide)

end AncoreOS.Tools
