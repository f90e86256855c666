import AncoreOS.Tools.FormatItems

/-!
# When the three printers agree

`printf`, `serial_printf` and `log_to_terminal` are given the same formats.  They agree on a
format if they take the same number of arguments and print the same text, apart from padding,
`0x`, carriage returns and the header of a message.

They do so for plain conversions of small values only (`Item.Good`), as long as the message
fits into the buffer.  The proof of the other direction goes by what each item adds to a
total.  The numbers of arguments leave plain conversions other than `%c` only, so from there on
each conversion gets its own argument.  Then the lengths exclude null pointers for `%s`, the
signs exclude large values for `%u`, and the lengths again those for `%p`.
-/

namespace AncoreOS.Tools

open ByteMemory Scanner AncoreOS.Klibc

/-! ### Agreement -/

/-- The same number of arguments and the same text. -/
def FormatsAgree (globalFlanterm : Bool) (mem : Mem) (call : LogCall) (items : List Item) : Prop :=
  ∃ r p s l, printf globalFlanterm mem (formatOf items) (argsOf items) = some (r, p) ∧
    serialPrintf mem (formatOf items) (argsOf items) = some s ∧
    logToTerminal globalFlanterm mem call (formatOf items) (argsOf items) = some l ∧
    p.used = s.used ∧ s.used = l.used ∧ textOf p.out = textOf s.out ∧ textOf s.out = textOf l.out

/-- The items that all three print the same: no modifiers, and a value that fits into what the
narrowest of them makes of it. -/
def Item.Good (mem : Mem) : Item → Prop
  | .literal .. => True
  | .percent => True
  | .conversion m k arg => m.Plain ∧
    match k with
    | .d => True
    | .u => arg.toNat % 2 ^ 32 < 2 ^ 31
    | .x => True
    | .p => arg.toNat < 2 ^ 32
    | .s => arg ≠ 0 ∧ (string mem arg).isSome
    | .c => False

/-- The bytes of a message that an item takes. -/
def Item.size (mem : Mem) : Item → Nat
  | .literal .. => 1
  | .percent => 1
  | .conversion _ k arg =>
    match k with
    | .d => (itoa (arg.setWidth 32) 10).length
    | .u => (itoa (arg.setWidth 32) 10).length
    | .x => 2 + (itoa (arg.setWidth 32) 16).length
    | .p => 2 + (itoa (arg.setWidth 32) 16).length
    | .s => ((string mem arg).getD []).length
    | .c => 1

/-- Header and text leave room for a null character. -/
def Fits (mem : Mem) (call : LogCall) (items : List Item) : Prop :=
  (logHeader call).length + (items.map (Item.size mem)).sum < 1024

variable {mem : Mem} {call : LogCall} {items : List Item}

/-! ### The number of arguments -/

def Item.printfCount : Item → Nat
  | .conversion .. => 1
  | _ => 0

def Item.serialCount : Item → Nat
  | .conversion m _ _ => if m.digits = [] then 1 else 0
  | _ => 0

def Item.logCount : Item → Nat
  | .conversion m k _ => if m.Plain ∧ k ≠ .c then 1 else 0
  | _ => 0

section Counts

variable {out : List Emit} {args args' : List Word}

theorem Item.printf_length (i : Item) (h : i.printf mem args = some (out, args')) :
    args.length = i.printfCount + args'.length := by
  cases i with
  | literal c _ _ => exact print_length h
  | percent => exact print_length h
  | conversion m k arg => cases k <;> exact vaArg_length h

theorem Item.serial_length (i : Item) (h : i.serial mem args = some (out, args')) :
    args.length = i.serialCount + args'.length := by
  cases i with
  | literal c _ _ => exact print_length h
  | percent => exact print_length h
  | conversion m k arg =>
    simp only [Item.serial] at h
    simp only [Item.serialCount]
    split at h
    · rename_i hdigits
      rw [if_pos hdigits]
      cases k <;> exact vaArg_length h
    · rename_i hdigits
      rw [if_neg hdigits]
      exact print_length h

theorem Item.log_length (i : Item) (h : i.log mem args = some (out, args')) :
    args.length = i.logCount + args'.length := by
  cases i with
  | literal c _ _ => exact print_length h
  | percent => exact print_length h
  | conversion m k arg =>
    simp only [Item.log] at h
    simp only [Item.logCount]
    split at h
    · rename_i hplain
      cases k with
      | c => simpa using print_length h
      | _ => simpa [hplain] using vaArg_length h
    · rename_i hplain
      simpa [hplain] using print_length h

end Counts

/-- Plain, and not `%c`. -/
def Item.Simple : Item → Prop
  | .conversion m k _ => m.Plain ∧ k ≠ .c
  | _ => True

/-- If as many arguments are taken, every conversion takes its own. -/
theorem simple_of_counts (h : (items.map Item.logCount).sum = (items.map Item.printfCount).sum) :
    ∀ i ∈ items, i.Simple := by
  have hle : ∀ i ∈ items, i.logCount ≤ i.printfCount := by
    intro i _
    cases i with
    | literal c _ _ => exact le_rfl
    | percent => exact le_rfl
    | conversion m k arg =>
      simp only [Item.logCount, Item.printfCount]
      split <;> omega
  intro i hi
  have heq := eq_of_sum_eq hle h i hi
  cases i with
  | literal c _ _ => trivial
  | percent => trivial
  | conversion m k arg =>
    simp only [Item.logCount, Item.printfCount] at heq
    show m.Plain ∧ k ≠ .c
    by_contra hnot
    rw [if_neg hnot] at heq
    omega

/-! ### The text of simple items -/

def Item.printfText (mem : Mem) : Item → Option (List Char)
  | .literal c _ _ => some [c]
  | .percent => some ['%']
  | .conversion _ k a =>
    match k with
    | .d => some (itoa (a.setWidth 32) 10)
    | .u => some (itoa (a.setWidth 32) 10)
    | .x => some (itoa (a.setWidth 32) 16)
    | .p => some (itoa (a.setWidth 32) 16)
    | .s => if a = 0 then some "(null)".toList else string mem a
    | .c => none

def Item.serialText (mem : Mem) : Item → Option (List Char)
  | .literal c _ _ => some [c]
  | .percent => some ['%']
  | .conversion _ k a =>
    match k with
    | .d => some (itoa (a.setWidth 32) 10)
    | .u => some (numeral 10 (a.toNat % 2 ^ 32))
    | .x => some (numeral 16 (a.toNat % 2 ^ 32))
    | .p => some (numeral 16 a.toNat)
    | .s => string mem a
    | .c => none

def Item.logText (mem : Mem) : Item → Option (List Char)
  | .literal c _ _ => some [c]
  | .percent => some ['%']
  | .conversion _ k a =>
    match k with
    | .d => some (itoa (a.setWidth 32) 10)
    | .u => some (itoa (a.setWidth 32) 10)
    | .x => some (itoa (a.setWidth 32) 16)
    | .p => some (itoa (a.setWidth 32) 16)
    | .s => if a = 0 then some [] else string mem a
    | .c => none

/-- What an item prints of its own argument. -/
def Item.out (act : Item → Action Emit (List Word)) (i : Item) : Option (List Emit) :=
  (act i i.args).map Prod.fst

/-- An action that takes the argument of the item and prints `text`. -/
structure Prints (act : Item → Action Emit (List Word)) (text : Item → Option (List Char))
    (i : Item) : Prop where
  takes : ∀ args, act i (i.args ++ args) = (i.out act).map fun out => (out, args)
  text : (i.out act).map textOf = text i

theorem prints_print {act : Item → Action Emit (List Word)} {text : Item → Option (List Char)}
    {i : Item} {out : List Emit} (hact : act i = print out) (hargs : i.args = [])
    (htext : some (textOf out) = text i) : Prints act text i := by
  constructor
  · intro args
    rw [Item.out, hact, hargs]
    rfl
  · rw [Item.out, hact, hargs]
    exact htext

theorem prints_vaArg {act : Item → Action Emit (List Word)} {text : Item → Option (List Char)}
    {m : Modifiers} {k : Conversion} {a : Word} {f : Word → Option (List Emit)}
    (hact : act (.conversion m k a) = vaArg f)
    (htext : (f a).map textOf = text (.conversion m k a)) : Prints act text (.conversion m k a) := by
  constructor
  · intro args
    rw [Item.out, hact]
    simp only [Item.args, List.cons_append, List.nil_append, vaArg]
    cases f a <;> rfl
  · rw [Item.out, hact, ← htext]
    simp only [Item.args, vaArg]
    cases f a <;> rfl

theorem Item.Simple.printf {i : Item} (hi : i.Simple) :
    Prints (Item.printf mem) (Item.printfText mem) i := by
  cases i with
  | literal c _ _ => exact prints_print rfl rfl rfl
  | percent => exact prints_print rfl rfl rfl
  | conversion m k a =>
    cases k with
    | c => exact absurd rfl hi.2
    | s =>
      refine prints_vaArg rfl ?_
      simp only [Item.printfText, Option.map_map]
      split <;> simp [Function.comp_def]
    | _ =>
      refine prints_vaArg rfl ?_
      simp [Item.printfText]

theorem Item.Simple.serial {i : Item} (hi : i.Simple) :
    Prints (Item.serial mem) (Item.serialText mem) i := by
  cases i with
  | literal c _ _ => exact prints_print rfl rfl (by rw [textOf_serialChar]; rfl)
  | percent => exact prints_print rfl rfl rfl
  | conversion m k a =>
    obtain ⟨⟨digits, len⟩, hk⟩ : (m.digits = [] ∧ m.length = .none) ∧ k ≠ .c := hi
    have hact : (Item.conversion m k a).serial mem = serialConversion mem .none k.char := by
      simp [Item.serial, digits, len]
    cases k with
    | c => exact absurd rfl hk
    | x =>
      refine prints_vaArg hact ?_
      simp only [Item.serialText, Option.map_some]
      split <;> simp
    | s =>
      refine prints_vaArg hact ?_
      simp [Item.serialText, Function.comp_def]
    | _ =>
      refine prints_vaArg hact ?_
      simp [Item.serialText]

theorem Item.Simple.log {i : Item} (hi : i.Simple) :
    Prints (Item.log mem) (Item.logText mem) i := by
  cases i with
  | literal c _ _ => exact prints_print rfl rfl rfl
  | percent => exact prints_print rfl rfl rfl
  | conversion m k a =>
    have hact : (Item.conversion m k a).log mem = logConversion mem k.char := if_pos hi.1
    cases k with
    | c => exact absurd rfl hi.2
    | s =>
      refine prints_vaArg hact ?_
      simp only [Item.logText]
      split
      · rfl
      · simp [Function.comp_def]
    | _ =>
      refine prints_vaArg hact ?_
      simp [Item.logText]

/-! ### Totals -/

/-- The text of all items, where each of them has one. -/
def textTotal (text : Item → Option (List Char)) (items : List Item) : List Char :=
  items.flatMap fun i => (text i).getD []

/-- The output of all items. -/
def outTotal (act : Item → Action Emit (List Word)) (items : List Item) : List Emit :=
  items.flatMap fun i => (i.out act).getD []

section Totals

variable {act : Item → Action Emit (List Word)} {text : Item → Option (List Char)}

theorem Prints.isSome_iff {i : Item} (h : Prints act text i) :
    (text i).isSome ↔ (i.out act).isSome := by
  rw [← h.text, Option.isSome_map]

theorem textOf_outTotal (h : ∀ i ∈ items, Prints act text i) :
    textOf (outTotal act items) = textTotal text items := by
  rw [outTotal, textOf_flatMap, textTotal]
  refine List.flatMap_congr fun i hi => ?_
  rw [← (h i hi).text]
  cases i.out act <;> rfl

theorem run_of_isSome (h : ∀ i ∈ items, Prints act text i) (hsome : ∀ i ∈ items, (text i).isSome) :
    run act items (argsOf items) = some (outTotal act items, []) := by
  have hrun := run_of_takes (s := []) (fun i hi => (h i hi).isSome_iff.mp (hsome i hi))
    fun i hi => (h i hi).takes
  rwa [List.append_nil] at hrun

theorem isSome_of_run_some {r : List Emit × List Word} (h : ∀ i ∈ items, Prints act text i)
    (hrun : run act items (argsOf items) = some r) :
    (∀ i ∈ items, (text i).isSome) ∧ r = (outTotal act items, []) := by
  have hsome : ∀ i ∈ items, (text i).isSome := by
    intro i hi
    refine (h i hi).isSome_iff.mpr ?_
    exact isSome_of_run (s := []) (fun j hj => (h j hj).takes)
      (by rw [List.append_nil]; exact hrun) i hi
  refine ⟨hsome, ?_⟩
  rw [run_of_isSome h hsome] at hrun
  exact (Option.some.inj hrun).symm

end Totals

theorem textTotal_length (text : Item → Option (List Char)) (items : List Item) :
    (textTotal text items).length = (items.map fun i => ((text i).getD []).length).sum :=
  List.length_flatMap

theorem textTotal_count (text : Item → Option (List Char)) (items : List Item) :
    (textTotal text items).count '-' = (items.map fun i => ((text i).getD []).count '-').sum :=
  List.count_flatMap

/-! ### The three measures -/

/-- `%s` has a string. -/
def Item.NonNull : Item → Prop
  | .conversion _ .s a => a ≠ 0
  | _ => True

theorem logText_string {m : Modifiers} {a : Word} (ha : (Item.conversion m .s a).NonNull) :
    (Item.conversion m .s a).logText mem = string mem a :=
  if_neg ha

theorem nonNull_of_length
    (h : textTotal (Item.logText mem) items = textTotal (Item.printfText mem) items) :
    ∀ i ∈ items, i.NonNull := by
  have hle : ∀ i ∈ items, ((i.logText mem).getD []).length ≤ ((i.printfText mem).getD []).length := by
    intro i _
    cases i with
    | literal c _ _ => exact le_rfl
    | percent => exact le_rfl
    | conversion m k a =>
      cases k with
      | s =>
        simp only [Item.logText, Item.printfText]
        split
        · exact Nat.zero_le _
        · exact le_rfl
      | _ => exact le_rfl
  have hsum := congrArg List.length h
  rw [textTotal_length, textTotal_length] at hsum
  intro i hi
  have heq := eq_of_sum_eq hle hsum i hi
  cases i with
  | literal c _ _ => trivial
  | percent => trivial
  | conversion m k a =>
    cases k with
    | s =>
      rintro rfl
      simp [Item.logText, Item.printfText] at heq
    | _ => trivial

/-- The value of `%u` is not negative as an `int`. -/
def Item.SmallUnsigned : Item → Prop
  | .conversion _ .u a => a.toNat % 2 ^ 32 < 2 ^ 31
  | _ => True

theorem setWidth_toInt_neg {a : Word} : (a.setWidth 32).toInt < 0 ↔ ¬a.toNat % 2 ^ 32 < 2 ^ 31 := by
  have h := BitVec.toInt_eq_toNat_cond (a.setWidth 32)
  rw [BitVec.toNat_setWidth] at h
  split at h <;> omega

theorem itoa_small {a : Word} (h : a.toNat % 2 ^ 32 < 2 ^ 31) :
    itoa (a.setWidth 32) 10 = numeral 10 (a.toNat % 2 ^ 32) := by
  rw [itoa_dec, if_neg (fun hneg => setWidth_toInt_neg.mp hneg h), BitVec.toNat_setWidth]

theorem itoa_low (a : Word) : itoa (a.setWidth 32) 16 = numeral 16 (a.toNat % 2 ^ 32) := by
  rw [itoa_hex, BitVec.toNat_setWidth]

theorem count_numeral {base : Nat} (hbase : 1 < base) (hle : base ≤ 16) (n : Nat) :
    (numeral base n).count '-' = 0 :=
  List.count_eq_zero.mpr (not_mem_numeral hbase hle n)

theorem smallUnsigned_of_count (hnull : ∀ i ∈ items, i.NonNull)
    (h : textTotal (Item.serialText mem) items = textTotal (Item.logText mem) items) :
    ∀ i ∈ items, i.SmallUnsigned := by
  have hle : ∀ i ∈ items,
      ((i.serialText mem).getD []).count '-' ≤ ((i.logText mem).getD []).count '-' := by
    intro i hi
    cases i with
    | literal c _ _ => exact le_rfl
    | percent => exact le_rfl
    | conversion m k a =>
      cases k with
      | d => exact le_rfl
      | u =>
        simp only [Item.serialText, Option.getD_some, count_numeral (by decide : 1 < 10) (by decide)]
        exact Nat.zero_le _
      | x =>
        simp only [Item.serialText, Option.getD_some, count_numeral (by decide : 1 < 16) (by decide)]
        exact Nat.zero_le _
      | p =>
        simp only [Item.serialText, Option.getD_some, count_numeral (by decide : 1 < 16) (by decide)]
        exact Nat.zero_le _
      | s =>
        rw [logText_string (hnull _ hi)]
        exact le_rfl
      | c => exact le_rfl
  have hsum := congrArg (List.count '-') h
  rw [textTotal_count, textTotal_count] at hsum
  intro i hi
  have heq := eq_of_sum_eq hle hsum i hi
  cases i with
  | literal c _ _ => trivial
  | percent => trivial
  | conversion m k a =>
    cases k with
    | u =>
      by_contra hlarge
      simp only [Item.serialText, Item.logText, Option.getD_some, itoa_dec,
        if_pos (setWidth_toInt_neg.mpr hlarge), count_numeral (by decide : 1 < 10) (by decide),
        List.count_cons_self] at heq
      omega
    | _ => trivial

/-- The value of `%p` has no high half. -/
def Item.SmallPointer : Item → Prop
  | .conversion _ .p a => a.toNat < 2 ^ 32
  | _ => True

theorem smallPointer_of_length (hnull : ∀ i ∈ items, i.NonNull)
    (hsmall : ∀ i ∈ items, i.SmallUnsigned)
    (h : textTotal (Item.logText mem) items = textTotal (Item.serialText mem) items) :
    ∀ i ∈ items, i.SmallPointer := by
  have hlow : ∀ a : Word, 2 ^ 32 ≤ a.toNat →
      (itoa (a.setWidth 32) 16).length < (numeral 16 a.toNat).length := by
    intro a ha
    rw [itoa_low]
    exact numeral_low_length ha
  have hle : ∀ i ∈ items, ((i.logText mem).getD []).length ≤ ((i.serialText mem).getD []).length := by
    intro i hi
    cases i with
    | literal c _ _ => exact le_rfl
    | percent => exact le_rfl
    | conversion m k a =>
      cases k with
      | d => exact le_rfl
      | u =>
        have hu : a.toNat % 2 ^ 32 < 2 ^ 31 := hsmall _ hi
        simp [Item.serialText, Item.logText, itoa_small hu]
      | x => simp [Item.serialText, Item.logText, itoa_low]
      | p =>
        simp only [Item.serialText, Item.logText, Option.getD_some]
        by_cases ha : a.toNat < 2 ^ 32
        · rw [itoa_low, Nat.mod_eq_of_lt ha]
        · exact (hlow a (Nat.le_of_not_lt ha)).le
      | s =>
        rw [logText_string (hnull _ hi)]
        exact le_rfl
      | c => exact le_rfl
  have hsum := congrArg List.length h
  rw [textTotal_length, textTotal_length] at hsum
  intro i hi
  have heq := eq_of_sum_eq hle hsum i hi
  cases i with
  | literal c _ _ => trivial
  | percent => trivial
  | conversion m k a =>
    cases k with
    | p =>
      by_contra hlarge
      have hlt := hlow a (Nat.le_of_not_lt hlarge)
      simp only [Item.serialText, Item.logText, Option.getD_some] at heq
      omega
    | _ => trivial

/-! ### Good items -/

theorem Item.Good.simple {i : Item} (h : i.Good mem) : i.Simple := by
  cases i with
  | literal c _ _ => trivial
  | percent => trivial
  | conversion m k a =>
    refine ⟨h.1, ?_⟩
    rintro rfl
    exact h.2

/-- All three have the same text for a good item. -/
theorem Item.Good.text {i : Item} (h : i.Good mem) :
    ∃ t, i.printfText mem = some t ∧ i.serialText mem = some t ∧ i.logText mem = some t := by
  cases i with
  | literal c _ _ => exact ⟨[c], rfl, rfl, rfl⟩
  | percent => exact ⟨['%'], rfl, rfl, rfl⟩
  | conversion m k a =>
    obtain ⟨_, hk⟩ := h
    cases k with
    | d => exact ⟨_, rfl, rfl, rfl⟩
    | u => exact ⟨_, rfl, congrArg some (itoa_small hk).symm, rfl⟩
    | x => exact ⟨_, rfl, congrArg some (itoa_low a).symm, rfl⟩
    | p =>
      have hlow : itoa (a.setWidth 32) 16 = numeral 16 a.toNat := by
        rw [itoa_low, Nat.mod_eq_of_lt hk]
      exact ⟨_, rfl, congrArg some hlow.symm, rfl⟩
    | s =>
      obtain ⟨hne, hsome⟩ := hk
      obtain ⟨t, ht⟩ := Option.isSome_iff_exists.mp hsome
      exact ⟨t, (if_neg hne).trans ht, ht, (if_neg hne).trans ht⟩
    | c => exact absurd hk not_false

theorem good_of_simple {i : Item} (hsimple : i.Simple) (hnull : i.NonNull)
    (hunsigned : i.SmallUnsigned) (hpointer : i.SmallPointer) (hsome : (i.serialText mem).isSome) :
    i.Good mem := by
  cases i with
  | literal c _ _ => trivial
  | percent => trivial
  | conversion m k a =>
    refine ⟨hsimple.1, ?_⟩
    cases k with
    | d => trivial
    | u => exact hunsigned
    | x => trivial
    | p => exact hpointer
    | s => exact ⟨hnull, hsome⟩
    | c => exact absurd rfl hsimple.2

theorem Item.Good.size_eq {i : Item} (h : i.Good mem) :
    ((i.out (Item.log mem)).getD []).length = i.size mem := by
  cases i with
  | literal c _ _ => rfl
  | percent => rfl
  | conversion m k a =>
    have hact : (Item.conversion m k a).log mem = logConversion mem k.char := if_pos h.1
    rw [Item.out, hact]
    cases k with
    | c => exact absurd h.2 not_false
    | s =>
      obtain ⟨_, hne, hsome⟩ := h
      obtain ⟨t, ht⟩ := Option.isSome_iff_exists.mp hsome
      have hvalue : logConversion mem Conversion.s.char [a] = some (t.map .text, []) := by
        show Option.map _ (if a = 0 then some [] else _) = _
        rw [if_neg hne, ht]
        rfl
      simp only [Item.args, hvalue, Item.size, ht]
      simp
    | d => simp [logConversion, Conversion.char, vaArg, Item.args, Item.size]
    | u => simp [logConversion, Conversion.char, vaArg, Item.args, Item.size]
    | x =>
      simp [logConversion, Conversion.char, vaArg, Item.args, Item.size, zeroX]
      omega
    | p =>
      simp [logConversion, Conversion.char, vaArg, Item.args, Item.size, zeroX]
      omega

theorem outTotal_length (h : ∀ i ∈ items, i.Good mem) :
    (outTotal (Item.log mem) items).length = (items.map (Item.size mem)).sum := by
  rw [outTotal, List.length_flatMap]
  refine congrArg List.sum (List.map_congr_left fun i hi => ?_)
  exact (h i hi).size_eq

theorem textTotal_congr {text text' : Item → Option (List Char)}
    (h : ∀ i ∈ items, text i = text' i) : textTotal text items = textTotal text' items := by
  refine List.flatMap_congr fun i hi => ?_
  rw [h i hi]

/-! ### The condition is enough -/

theorem textOf_header (l : List Char) : textOf (l.map .header) = [] := by
  simp [textOf]

theorem agree_of_good (hgood : ∀ i ∈ items, i.Good mem) (hfits : Fits mem call items) :
    FormatsAgree true mem call items := by
  have hsimple : ∀ i ∈ items, i.Simple := fun i hi => (hgood i hi).simple
  have hprintf : ∀ i ∈ items, Prints (Item.printf mem) (Item.printfText mem) i :=
    fun i hi => (hsimple i hi).printf
  have hserial : ∀ i ∈ items, Prints (Item.serial mem) (Item.serialText mem) i :=
    fun i hi => (hsimple i hi).serial
  have hlog : ∀ i ∈ items, Prints (Item.log mem) (Item.logText mem) i :=
    fun i hi => (hsimple i hi).log
  have hsame : ∀ i ∈ items, i.printfText mem = i.serialText mem ∧
      i.serialText mem = i.logText mem ∧ (i.logText mem).isSome := by
    intro i hi
    obtain ⟨t, hp, hs, hl⟩ := (hgood i hi).text
    exact ⟨hp.trans hs.symm, hs.trans hl.symm, by rw [hl]; rfl⟩
  have hrunp := run_of_isSome hprintf fun i hi => by
    rw [(hsame i hi).1, (hsame i hi).2.1]
    exact (hsame i hi).2.2
  have hruns := run_of_isSome hserial fun i hi => by
    rw [(hsame i hi).2.1]
    exact (hsame i hi).2.2
  have hrunl := run_of_isSome hlog fun i hi => (hsame i hi).2.2
  refine ⟨(BitVec.ofNat 32 (outTotal (Item.printf mem) items).length).toInt,
    ⟨outTotal (Item.printf mem) items, (argsOf items).length⟩,
    ⟨outTotal (Item.serial mem) items, (argsOf items).length⟩,
    ⟨(logHeader call).map .header ++ outTotal (Item.log mem) items, (argsOf items).length⟩,
    ?_, ?_, ?_, rfl, rfl, ?_, ?_⟩
  · rw [printf_eq, hrunp]
    rfl
  · rw [serialPrintf_eq, hruns]
    rfl
  · rw [logToTerminal_eq, hrunl]
    exact if_pos (by rw [outTotal_length hgood]; exact hfits)
  · rw [textOf_outTotal hprintf, textOf_outTotal hserial]
    exact textTotal_congr fun i hi => (hsame i hi).1
  · rw [textOf_append, textOf_header, List.nil_append, textOf_outTotal hserial,
      textOf_outTotal hlog]
    exact textTotal_congr fun i hi => (hsame i hi).2.1

/-! ### The condition is needed -/

theorem good_of_agree (h : FormatsAgree true mem call items) :
    (∀ i ∈ items, i.Good mem) ∧ Fits mem call items := by
  obtain ⟨_, p, s, l, hp, hs, hl, hused, hused', htext, htext'⟩ := h
  rw [printf_eq] at hp
  rw [serialPrintf_eq] at hs
  rw [logToTerminal_eq] at hl
  obtain ⟨rp, hrunp, heqp⟩ := Option.map_eq_some_iff.mp hp
  obtain ⟨rs, hruns, rfl⟩ := Option.map_eq_some_iff.mp hs
  obtain ⟨rl, hrunl, hl⟩ := Option.bind_eq_some_iff.mp hl
  obtain ⟨_, rfl⟩ := Prod.mk.inj heqp
  obtain ⟨hroom, hl⟩ := Option.ite_none_right_eq_some.mp hl
  obtain rfl := Option.some.inj hl
  -- Arguments: each conversion takes its own.
  have hcountp := run_measure (μ := List.length) (fun i _ _ _ => i.printf_length) hrunp
  have hcountl := run_measure (μ := List.length) (fun i _ _ _ => i.log_length) hrunl
  have hsimple : ∀ i ∈ items, i.Simple := by
    apply simple_of_counts
    have husedpl : (argsOf items).length - rp.2.length = (argsOf items).length - rl.2.length :=
      hused.trans hused'
    omega
  have hprintf : ∀ i ∈ items, Prints (Item.printf mem) (Item.printfText mem) i :=
    fun i hi => (hsimple i hi).printf
  have hserial : ∀ i ∈ items, Prints (Item.serial mem) (Item.serialText mem) i :=
    fun i hi => (hsimple i hi).serial
  have hlog : ∀ i ∈ items, Prints (Item.log mem) (Item.logText mem) i :=
    fun i hi => (hsimple i hi).log
  obtain ⟨_, rfl⟩ := isSome_of_run_some hprintf hrunp
  obtain ⟨hsome, rfl⟩ := isSome_of_run_some hserial hruns
  obtain ⟨_, rfl⟩ := isSome_of_run_some hlog hrunl
  rw [textOf_outTotal hprintf, textOf_outTotal hserial] at htext
  rw [textOf_append, textOf_header, List.nil_append, textOf_outTotal hserial,
    textOf_outTotal hlog] at htext'
  have hnull := nonNull_of_length (htext.trans htext').symm
  have hunsigned := smallUnsigned_of_count hnull htext'
  have hpointer := smallPointer_of_length hnull hunsigned htext'.symm
  have hgood : ∀ i ∈ items, i.Good mem := fun i hi =>
    good_of_simple (hsimple i hi) (hnull i hi) (hunsigned i hi) (hpointer i hi) (hsome i hi)
  refine ⟨hgood, ?_⟩
  rw [outTotal_length hgood] at hroom
  exact hroom

/-- An item that takes nothing prints something. -/
theorem Item.serial_text_ne_nil {i : Item} {args args' : List Word} {out : List Emit}
    (h : i.serial mem args = some (out, args')) (hcount : i.serialCount = 0) : textOf out ≠ [] := by
  cases i with
  | literal c _ _ =>
    obtain ⟨rfl, _⟩ := Prod.mk.inj (Option.some.inj h)
    simp
  | percent =>
    obtain ⟨rfl, _⟩ := Prod.mk.inj (Option.some.inj h)
    simp [textOf]
  | conversion m k a =>
    have hdigits : m.digits ≠ [] := by
      intro hdigits
      rw [Item.serialCount, if_pos hdigits] at hcount
      omega
    rw [Item.serial, if_neg hdigits] at h
    obtain ⟨rfl, _⟩ := Prod.mk.inj (Option.some.inj h)
    rw [textOf_map]
    exact List.cons_ne_nil _ _

/-- Without a terminal only the empty format is printed the same. -/
theorem agree_false_iff : FormatsAgree false mem call items ↔ items = [] := by
  constructor
  · rintro ⟨_, p, s, l, hp, hs, hl, hused, _, htext, _⟩
    obtain ⟨_, rfl⟩ := Prod.mk.inj (Option.some.inj hp)
    rw [serialPrintf_eq] at hs
    obtain ⟨r, hrun, rfl⟩ := Option.map_eq_some_iff.mp hs
    cases items with
    | nil => rfl
    | cons i items =>
      have hcount := run_measure (μ := List.length) (fun i _ _ _ => i.serial_length) hrun
      rw [List.map_cons, List.sum_cons] at hcount
      have hzero : 0 = (argsOf (i :: items)).length - r.2.length := hused
      have hseq : (i.serial mem).seq (run (Item.serial mem) items) (argsOf (i :: items)) =
          some (r.1, r.2) := hrun
      obtain ⟨o, s₁, o', hi, _, hout⟩ := Action.seq_eq_some hseq
      have hne := Item.serial_text_ne_nil hi (by omega)
      have hnil : textOf r.1 = [] := htext.symm
      rw [hout, textOf_append] at hnil
      exact absurd (List.append_eq_nil_iff.mp hnil).1 hne
  · rintro rfl
    exact ⟨_, _, _, _, rfl, rfl, rfl, rfl, rfl, rfl, rfl⟩

/-- **The three printers agree on plain conversions of small values, in messages that fit, and on
nothing else.** -/
theorem formats_agree_iff (globalFlanterm : Bool) (mem : Mem) (call : LogCall) (items : List Item) :
    FormatsAgree globalFlanterm mem call items ↔
      if globalFlanterm then (∀ i ∈ items, i.Good mem) ∧ Fits mem call items else items = [] := by
  cases globalFlanterm with
  | false => exact agree_false_iff
  | true => exact ⟨good_of_agree, fun h => agree_of_good h.1 h.2⟩

/-- `%llx`, as in the register dump of a page fault. -/
def exampleCr2 : List Item := [.conversion ⟨[], .longlong⟩ .x 0xFFFFFFFF80001000]

def exampleCall : LogCall := ⟨0, .fatal, none, none, 125⟩

/-- `printf` prints the low half of the address, and `log_to_terminal` the format. -/
theorem exampleCr2_not_agree : ¬FormatsAgree true (fun _ => 0) exampleCall exampleCr2 := by
  intro h
  have hgood := (good_of_agree h).1 _ List.mem_cons_self
  exact absurd hgood.1 (by decide)

end AncoreOS.Tools
