import AncoreOS.Tools.LogInfo
import AncoreOS.Tools.Serial

/-!
# Formats as lists of items

An item is a literal character, `%%`, or a conversion with its modifiers and the argument for
it, so a list of items is a format together with a matching list of arguments.  For each of
the three printers there is an action for an item, and reading the format of the list comes to
one action after the other (`printf_eq`, `serialPrintf_eq`, `logToTerminal_eq`).

The actions differ.  `printf` knows all modifiers.  For `serial_printf` a digit, and for
`log_to_terminal` a digit or a length modifier, ends the conversion: they copy the item to
the output, and leave its argument to the next one.
-/

namespace AncoreOS.Tools

open ByteMemory Scanner AncoreOS.Klibc

/-! ### Items -/

inductive Conversion
  | d
  | u
  | x
  | p
  | s
  | c
  deriving DecidableEq, Repr

def Conversion.char : Conversion → Char
  | .d => 'd'
  | .u => 'u'
  | .x => 'x'
  | .p => 'p'
  | .s => 's'
  | .c => 'c'

/-- What stands between `%` and the conversion.  A zero in front of the digits is the flag, the
others are the width. -/
structure Modifiers where
  digits : List (Fin 10)
  length : LengthModifier
  deriving DecidableEq, Repr

/-- `%%` has no modifiers, as in C. -/
inductive Item
  | literal (c : Char) (notPercent : c ≠ '%') (notNull : c ≠ '\x00')
  | percent
  | conversion (m : Modifiers) (k : Conversion) (arg : Word)

def digitChars (digits : List (Fin 10)) : List Char := digits.map fun d : Fin 10 => digitOf d.val

def lengthChars : LengthModifier → List Char
  | .none => []
  | .long => ['l']
  | .longlong => ['l', 'l']

/-- The modifiers and the conversion. -/
def Modifiers.chars (m : Modifiers) (k : Conversion) : List Char :=
  digitChars m.digits ++ (lengthChars m.length ++ [k.char])

def Item.format : Item → List Char
  | .literal c _ _ => [c]
  | .percent => ['%', '%']
  | .conversion m k _ => '%' :: m.chars k

def Item.args : Item → List Word
  | .conversion _ _ arg => [arg]
  | _ => []

def formatOf (items : List Item) : List Char := items.flatMap Item.format

def argsOf (items : List Item) : List Word := items.flatMap Item.args

def Modifiers.Plain (m : Modifiers) : Prop := m.digits = [] ∧ m.length = .none

instance (m : Modifiers) : Decidable m.Plain := inferInstanceAs (Decidable (_ ∧ _))

/-! ### Actions -/

/-- The zero flag, and the width. -/
def flagged : List (Fin 10) → Char × List (Fin 10)
  | [] => (' ', [])
  | d :: digits => if d = 0 then ('0', digits) else (' ', d :: digits)

/-- The width as `printf` computes it. -/
def widthOf (digits : List (Fin 10)) : BitVec 32 := (widthLoop 0 (digitChars (flagged digits).2)).1

section Actions

variable (mem : Mem)

def Item.printf : Item → Action Emit (List Word)
  | .literal c _ _ => print [.text c]
  | .percent => print [.text '%']
  | .conversion m k _ => printfConversion mem (flagged m.digits).1 (widthOf m.digits) k.char

def Item.serial : Item → Action Emit (List Word)
  | .literal c _ _ => print (serialChar c)
  | .percent => print [.text '%']
  | .conversion m k _ =>
    if m.digits = [] then serialConversion mem m.length k.char
    else print (('%' :: m.chars k).map .text)

def Item.log : Item → Action Emit (List Word)
  | .literal c _ _ => print [.text c]
  | .percent => print [.text '%']
  | .conversion m k _ =>
    if m.Plain then logConversion mem k.char else print (('%' :: m.chars k).map .text)

end Actions

/-! ### Reading an item -/

section Reading

variable {mem : Mem}

theorem digitOf_bounds (d : Fin 10) : '0' ≤ digitOf d ∧ digitOf d ≤ '9' := by
  revert d
  decide

/-- Letters that are copied: neither `%` nor a newline. -/
def Ordinary (c : Char) : Prop := c ≠ '%' ∧ c ≠ '\n'

theorem ordinary_chars (m : Modifiers) (k : Conversion) : ∀ c ∈ m.chars k, Ordinary c := by
  have hdigit : ∀ d : Fin 10, digitOf d ≠ '%' ∧ digitOf d ≠ '\n' := by decide
  intro c hc
  rcases List.mem_append.mp hc with hc | hc
  · obtain ⟨d, _, rfl⟩ := List.mem_map.mp hc
    exact hdigit d
  · rcases List.mem_append.mp hc with hc | hc
    · cases hlen : m.length <;> simp [hlen, lengthChars] at hc <;> subst hc <;>
        exact ⟨by decide, by decide⟩
    · rw [List.mem_singleton] at hc
      subst hc
      cases k <;> exact ⟨by decide, by decide⟩

theorem lengthModifier_chars (len : LengthModifier) (k : Conversion) (rest : List Char) :
    lengthModifier (lengthChars len ++ k.char :: rest) = (len, k.char :: rest) := by
  cases len <;> cases k <;> rfl

/-- What stands behind the digits does not start with one. -/
theorem exists_notDigit (len : LengthModifier) (k : Conversion) (rest : List Char) :
    ∃ c l, lengthChars len ++ k.char :: rest = c :: l ∧ ¬('0' ≤ c ∧ c ≤ '9') := by
  cases len with
  | none => exact ⟨k.char, rest, rfl, by cases k <;> decide⟩
  | long => exact ⟨'l', k.char :: rest, rfl, by decide⟩
  | longlong => exact ⟨'l', 'l' :: k.char :: rest, rfl, by decide⟩

theorem widthLoop_digits {c : Char} (hc : ¬('0' ≤ c ∧ c ≤ '9')) (digits : List (Fin 10))
    (pad : BitVec 32) (rest : List Char) :
    widthLoop pad (digitChars digits ++ c :: rest) =
      ((widthLoop pad (digitChars digits)).1, c :: rest) := by
  induction digits generalizing pad with
  | nil => simp [digitChars, widthLoop, hc]
  | cons d digits ih =>
    have hd := digitOf_bounds d
    simp only [digitChars, List.map_cons, List.cons_append, widthLoop, hd, and_self, if_true]
    exact ih _

theorem flag_digits {c : Char} (hc : ¬('0' ≤ c ∧ c ≤ '9')) (digits : List (Fin 10))
    (rest : List Char) :
    (if (digitChars digits ++ c :: rest).head? = some '0'
      then ('0', (digitChars digits ++ c :: rest).tail)
      else (' ', digitChars digits ++ c :: rest)) =
      ((flagged digits).1, digitChars (flagged digits).2 ++ c :: rest) := by
  cases digits with
  | nil =>
    have hne : c ≠ '0' := by
      rintro rfl
      exact hc (by decide)
    simp [digitChars, flagged, hne]
  | cons d digits =>
    have hzero : ∀ d : Fin 10, digitOf d = '0' ↔ d = 0 := by decide
    by_cases hd : d = 0
    · simp [digitChars, flagged, hd, show digitOf 0 = '0' from rfl]
    · simp [digitChars, flagged, hd, hzero d]

theorem Item.reads_printf (i : Item) : Reads (printfStep mem) i.format (i.printf mem) := by
  cases i with
  | literal c hpercent hnull =>
    refine Reads.one fun rest args => ?_
    simp [printfStep, hpercent, Item.printf, print]
  | percent => exact Reads.one fun rest args => rfl
  | conversion m k arg =>
    refine Reads.one fun rest args => ?_
    obtain ⟨c, l, heq, hc⟩ := exists_notDigit m.length k rest
    have hchars : m.chars k ++ rest = digitChars m.digits ++ c :: l := by
      rw [← heq, Modifiers.chars]
      simp
    have hlen := lengthModifier_chars m.length k rest
    rw [heq] at hlen
    rw [hchars]
    simp only [printfStep, ne_eq, not_true, if_false, flag_digits hc, widthLoop_digits hc, hlen]
    rfl

/-- An item that is copied: a `%` with something unknown behind it. -/
theorem reads_copied {step : Step Char Emit (List Word)} {c : Char} {w : List Char}
    (hpercent : ∀ rest args, step '%' (c :: rest) args = some ([.text '%', .text c], rest, args))
    (hstep : ∀ a, Ordinary a → ∀ rest args, step a rest args = some ([.text a], rest, args))
    (hw : ∀ a ∈ w, Ordinary a) : Reads step ('%' :: c :: w) (print (('%' :: c :: w).map .text)) := by
  have hfirst : Reads step ['%', c] (print [.text '%', .text c]) :=
    Reads.one fun rest args => hpercent rest args
  have hrest : Reads step w fun s => some (w.map .text, s) :=
    Reads.map fun a ha rest args => hstep a (hw a ha) rest args
  exact hfirst.append hrest

theorem serialStep_ordinary {a : Char} (ha : Ordinary a) (rest : List Char) (args : List Word) :
    serialStep mem a rest args = some ([.text a], rest, args) := by
  simp [serialStep, serialChar, ha.1, ha.2]

theorem logStep_ordinary {a : Char} (ha : Ordinary a) (rest : List Char) (args : List Word) :
    logStep mem a rest args = some ([.text a], rest, args) := by
  simp [logStep, ha.1]

theorem serialStep_digit (d : Fin 10) (rest : List Char) (args : List Word) :
    serialStep mem '%' (digitOf d :: rest) args =
      some ([.text '%', .text (digitOf d)], rest, args) := by
  fin_cases d <;> rfl

theorem logStep_digit (d : Fin 10) (rest : List Char) (args : List Word) :
    logStep mem '%' (digitOf d :: rest) args =
      some ([.text '%', .text (digitOf d)], rest, args) := by
  fin_cases d <;> rfl

theorem Item.reads_serial (i : Item) : Reads (serialStep mem) i.format (i.serial mem) := by
  cases i with
  | literal c hpercent hnull =>
    refine Reads.one fun rest args => ?_
    simp [serialStep, hpercent, Item.serial, print]
  | percent => exact Reads.one fun rest args => rfl
  | conversion m k arg =>
    obtain ⟨digits, len⟩ := m
    cases digits with
    | nil =>
      refine Reads.one fun rest args => ?_
      have hchars : Modifiers.chars ⟨[], len⟩ k ++ rest = lengthChars len ++ k.char :: rest := by
        simp [Modifiers.chars, digitChars]
      have hne : lengthChars len ++ k.char :: rest ≠ [] := by simp
      rw [hchars]
      simp only [serialStep, hne, ne_eq, not_false_eq_true, and_self, if_true,
        lengthModifier_chars]
      rfl
    | cons d digits =>
      have hordinary := ordinary_chars ⟨d :: digits, len⟩ k
      exact reads_copied (serialStep_digit d) (fun a ha => serialStep_ordinary ha)
        fun a ha => hordinary a (List.mem_cons_of_mem _ ha)

theorem Item.reads_log (i : Item) : Reads (logStep mem) i.format (i.log mem) := by
  cases i with
  | literal c hpercent hnull =>
    refine Reads.one fun rest args => ?_
    simp [logStep, hpercent, Item.log, print]
  | percent => exact Reads.one fun rest args => rfl
  | conversion m k arg =>
    obtain ⟨digits, len⟩ := m
    cases digits with
    | nil =>
      cases len with
      | none => exact Reads.one fun rest args => rfl
      | long =>
        have hordinary := ordinary_chars ⟨[], .long⟩ k
        exact reads_copied (fun rest args => rfl) (fun a ha => logStep_ordinary ha)
          fun a ha => hordinary a (List.mem_cons_of_mem _ ha)
      | longlong =>
        have hordinary := ordinary_chars ⟨[], .longlong⟩ k
        exact reads_copied (fun rest args => rfl) (fun a ha => logStep_ordinary ha)
          fun a ha => hordinary a (List.mem_cons_of_mem _ ha)
    | cons d digits =>
      have hordinary := ordinary_chars ⟨d :: digits, len⟩ k
      have haction : (Item.conversion ⟨d :: digits, len⟩ k arg).log mem =
          print (('%' :: Modifiers.chars ⟨d :: digits, len⟩ k).map .text) := by
        simp [Item.log, Modifiers.Plain]
      rw [haction]
      exact reads_copied (logStep_digit d) (fun a ha => logStep_ordinary ha)
        fun a ha => hordinary a (List.mem_cons_of_mem _ ha)

/-! ### Reading a format -/

theorem printf_eq (mem : Mem) (items : List Item) (args : List Word) :
    printf true mem (formatOf items) args = (run (Item.printf mem) items args).map fun r =>
      ((BitVec.ofNat 32 r.1.length).toInt, ⟨r.1, args.length - r.2.length⟩) := by
  have hscan := (Reads.flatMap (l := items) (f := Item.printf mem) fun i _ => i.reads_printf).scan_eq
  rw [printf, if_pos rfl, formatOf, hscan]

theorem serialPrintf_eq (mem : Mem) (items : List Item) (args : List Word) :
    serialPrintf mem (formatOf items) args = (run (Item.serial mem) items args).map fun r =>
      ⟨r.1, args.length - r.2.length⟩ := by
  have hscan := (Reads.flatMap (l := items) (f := Item.serial mem) fun i _ => i.reads_serial).scan_eq
  rw [serialPrintf, formatOf, hscan]

theorem logToTerminal_eq (mem : Mem) (call : LogCall) (items : List Item) (args : List Word) :
    logToTerminal true mem call (formatOf items) args = (run (Item.log mem) items args).bind fun r =>
      if (logHeader call).length + r.1.length < 1024 then
        some ⟨(logHeader call).map .header ++ r.1, args.length - r.2.length⟩
      else none := by
  have hscan := (Reads.flatMap (l := items) (f := Item.log mem) fun i _ => i.reads_log).scan_eq
  rw [logToTerminal, if_pos rfl, formatOf, hscan]
  simp only [List.length_append, List.length_map]

end Reading

end AncoreOS.Tools
