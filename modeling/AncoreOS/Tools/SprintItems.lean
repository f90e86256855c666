import AncoreOS.Klibc.SprintFields
import AncoreOS.Tools.FormatItems

/-!
# Items of `vsprintf`

The formats of `vsprintf` as lists of items, each with its argument.  Its conversions have more
length modifiers than those of `printf`, and what it does not know it copies and pads.

A list of items is rendered field by field (`rendered`), and `vsprintf` writes this text and a null
character (`vsprintf_renders`).
-/

namespace AncoreOS.Tools

open ByteMemory Scanner AncoreOS.Klibc Buffer

/-! ### Items -/

/-- What stands between `%` and the conversion.  A zero in front of the digits is the flag. -/
structure SprintModifiers where
  digits : List (Fin 10)
  length : SprintLength
  deriving DecidableEq, Repr

namespace SprintModifiers

def chars (m : SprintModifiers) : List Char := digitChars m.digits ++ m.length.chars

/-- The modifiers are not continued by `c`. -/
def EndedBy (m : SprintModifiers) (c : Char) : Prop :=
  match m.length with
  | .none => ¬('0' ≤ c ∧ c ≤ '9') ∧ c ≠ 'l' ∧ c ≠ 'h' ∧ c ≠ 'z'
  | .h => c ≠ 'h'
  | .l => c ≠ 'l'
  | _ => True

/-- No modifiers at all. -/
def Bare (m : SprintModifiers) : Prop := m.digits = [] ∧ m.length = .none

def padChar (m : SprintModifiers) : Char := (flagged m.digits).1

/-- The width as a number. -/
def width (m : SprintModifiers) : Nat := valueOf 10 ((flagged m.digits).2.map Fin.val)

end SprintModifiers

/-- Behind `%` and modifiers comes a conversion, or a character that `vsprintf` does not know. -/
inductive SprintItem
  | literal (c : Char) (notPercent : c ≠ '%') (notNull : c ≠ '\x00')
  | percent
  | conversion (m : SprintModifiers) (k : SprintConversion) (arg : Word)
  | unknown (m : SprintModifiers) (c : Char) (ended : m.EndedBy c)
      (notPercent : m.Bare → c ≠ '%') (notConversion : ∀ k : SprintConversion, k.char ≠ c)

namespace SprintItem

def format : SprintItem → List Char
  | .literal c _ _ => [c]
  | .percent => ['%', '%']
  | .conversion m k _ => '%' :: (m.chars ++ [k.char])
  | .unknown m c _ _ _ => '%' :: (m.chars ++ [c])

def args : SprintItem → List Word
  | .conversion _ _ arg => [arg]
  | _ => []

/-- The width that the item asks for. -/
def width : SprintItem → Nat
  | .conversion m _ _ => m.width
  | .unknown m _ _ _ _ => m.width
  | _ => 0

/-- The text of the item without padding. -/
def text (mem : Mem) : SprintItem → Option (List Char)
  | .literal c _ _ => some [c]
  | .percent => some ['%']
  | .conversion m k arg => k.text mem m.length arg
  | .unknown _ c _ _ _ => some ['%', c]

/-- The text, padded to the width. -/
def rendered (mem : Mem) (i : SprintItem) : List Char :=
  match i with
  | .conversion m k arg => ((k.text mem m.length arg).getD []).leftpad m.width m.padChar
  | .unknown m c _ _ _ => ['%', c].leftpad m.width m.padChar
  | i => (i.text mem).getD []

/-- What `vsprintf` does with the item. -/
def act (mem : Mem) : SprintItem → Action Nat Sprint
  | .literal c _ _ => putChar c
  | .percent => putChar '%'
  | .conversion m k _ =>
    vsprintfField mem m.padChar (widthOf m.digits) m.length.flags.1 m.length.flags.2 k.char
  | .unknown m c _ _ _ =>
    vsprintfField mem m.padChar (widthOf m.digits) m.length.flags.1 m.length.flags.2 c

/-- The text with the padding that `vsprintf` computes, where a width is an `int`. -/
def field (mem : Mem) : SprintItem → List Char
  | .literal c _ _ => [c]
  | .percent => ['%']
  | .conversion m k arg =>
    fieldText m.padChar (widthOf m.digits) ((k.text mem m.length arg).getD [])
  | .unknown m c _ _ _ => fieldText m.padChar (widthOf m.digits) ['%', c]

end SprintItem

def sprintFormat (items : List SprintItem) : List Char := items.flatMap SprintItem.format

def sprintArgs (items : List SprintItem) : List Word := items.flatMap SprintItem.args

/-- The text of a list of items. -/
def rendered (mem : Mem) (items : List SprintItem) : List Char :=
  items.flatMap (SprintItem.rendered mem)

/-! ### Reading an item -/

section Reading

variable {mem : Mem} {m : SprintModifiers} {c : Char}

theorem sprintLength_chars (h : m.EndedBy c) (rest : List Char) :
    sprintLength (m.length.chars ++ c :: rest) = (m.length.flags, c :: rest) := by
  obtain ⟨digits, len⟩ := m
  cases len with
  | none =>
    obtain ⟨_, hl, hh, hz⟩ := h
    show sprintLength (c :: rest) = _
    unfold sprintLength
    split <;> simp_all [SprintLength.flags]
  | h =>
    show sprintLength ('h' :: c :: rest) = _
    unfold sprintLength
    split <;> simp_all [SprintLength.flags, SprintModifiers.EndedBy]
  | l =>
    show sprintLength ('l' :: c :: rest) = _
    unfold sprintLength
    split <;> simp_all [SprintLength.flags, SprintModifiers.EndedBy]
  | hh => rfl
  | ll => rfl
  | z => rfl

/-- What stands behind the digits does not start with one. -/
theorem SprintModifiers.EndedBy.exists_notDigit (h : m.EndedBy c) (rest : List Char) :
    ∃ e l, m.length.chars ++ c :: rest = e :: l ∧ ¬('0' ≤ e ∧ e ≤ '9') := by
  obtain ⟨digits, len⟩ := m
  cases len with
  | none => exact ⟨c, rest, rfl, h.1⟩
  | h => exact ⟨'h', c :: rest, rfl, by decide⟩
  | hh => exact ⟨'h', 'h' :: c :: rest, rfl, by decide⟩
  | l => exact ⟨'l', c :: rest, rfl, by decide⟩
  | ll => exact ⟨'l', 'l' :: c :: rest, rfl, by decide⟩
  | z => exact ⟨'z', c :: rest, rfl, by decide⟩

/-- Modifiers and a conversion do not begin with `%`. -/
theorem chars_head (h : m.Bare → c ≠ '%') (rest : List Char) :
    (m.chars ++ c :: rest).head? ≠ some '%' := by
  have hdigit : ∀ d : Fin 10, digitOf d ≠ '%' := by decide
  obtain ⟨digits, len⟩ := m
  cases digits with
  | cons d digits => simpa [SprintModifiers.chars, digitChars] using hdigit d
  | nil =>
    cases len with
    | none => simpa [SprintModifiers.chars, digitChars, SprintLength.chars] using h ⟨rfl, rfl⟩
    | _ => simp [SprintModifiers.chars, digitChars, SprintLength.chars]

/-- An escape is read in one step. -/
theorem vsprintfStep_escape (h : m.EndedBy c) (hpercent : m.Bare → c ≠ '%') (rest : List Char)
    (s : Sprint) :
    vsprintfStep mem '%' (m.chars ++ c :: rest) s =
      (vsprintfField mem m.padChar (widthOf m.digits) m.length.flags.1 m.length.flags.2 c s).map
        fun r => (r.1, rest, r.2) := by
  obtain ⟨e, l, heq, he⟩ := h.exists_notDigit rest
  have hhead := chars_head hpercent rest
  have hlen := sprintLength_chars h rest
  have hchars : m.chars ++ c :: rest = digitChars m.digits ++ e :: l := by
    rw [SprintModifiers.chars, List.append_assoc, heq]
  rw [heq] at hlen
  rw [hchars] at hhead ⊢
  simp only [vsprintfStep, ne_eq, not_true, if_false, if_neg hhead, flag_digits he,
    widthLoop_digits he, hlen]
  rfl

/-- Digits at the end of a format. -/
theorem widthLoop_end (pad : BitVec 32) (digits : List (Fin 10)) :
    (widthLoop pad (digitChars digits)).2 = [] := by
  induction digits generalizing pad with
  | nil => rfl
  | cons d digits ih =>
    rw [digitChars, List.map_cons, widthLoop, if_pos (digitOf_bounds d)]
    exact ih _

theorem flag_end (digits : List (Fin 10)) :
    (if (digitChars digits).head? = some '0' then ('0', (digitChars digits).tail)
      else (' ', digitChars digits)) = ((flagged digits).1, digitChars (flagged digits).2) := by
  cases digits with
  | nil => rfl
  | cons d digits =>
    have hzero : ∀ d : Fin 10, digitOf d = '0' ↔ d = 0 := by decide
    by_cases hd : d = 0
    · simp [digitChars, flagged, hd, show digitOf 0 = '0' from rfl]
    · simp [digitChars, flagged, hd, hzero d]

/-- An escape that is cut off has no result. -/
theorem vsprintfStep_cut (m : SprintModifiers) (s : Sprint) :
    vsprintfStep mem '%' m.chars s = none := by
  have hhead : m.chars.head? ≠ some '%' := by
    intro h
    have hlonger : (m.chars ++ 'd' :: []).head? = some '%' := by
      rw [List.head?_append, h]
      rfl
    exact chars_head (fun _ => by decide) [] hlonger
  obtain ⟨digits, len⟩ := m
  by_cases hnone : len = .none
  · subst hnone
    have hend := widthLoop_end 0 (flagged digits).2
    simp only [SprintModifiers.chars, SprintLength.chars, List.append_nil] at hhead ⊢
    simp only [vsprintfStep, ne_eq, not_true, if_false, if_neg hhead, flag_end, hend]
    rfl
  · obtain ⟨e, l, heq, he, hlen⟩ : ∃ e l, len.chars = e :: l ∧ ¬('0' ≤ e ∧ e ≤ '9') ∧
        sprintLength (e :: l) = (len.flags, []) := by
      cases len with
      | none => exact absurd rfl hnone
      | h => exact ⟨'h', [], rfl, by decide, rfl⟩
      | hh => exact ⟨'h', ['h'], rfl, by decide, rfl⟩
      | l => exact ⟨'l', [], rfl, by decide, rfl⟩
      | ll => exact ⟨'l', ['l'], rfl, by decide, rfl⟩
      | z => exact ⟨'z', [], rfl, by decide, rfl⟩
    simp only [SprintModifiers.chars, heq] at hhead ⊢
    simp only [vsprintfStep, ne_eq, not_true, if_false, if_neg hhead, flag_digits he,
      widthLoop_digits he, hlen]

theorem endedBy_char (m : SprintModifiers) (k : SprintConversion) : m.EndedBy k.char := by
  obtain ⟨digits, len⟩ := m
  cases len <;> cases k <;> simp [SprintModifiers.EndedBy, SprintConversion.char]

theorem SprintItem.reads (i : SprintItem) : Reads (vsprintfStep mem) i.format (i.act mem) := by
  cases i with
  | literal c hpercent hnull =>
    refine Reads.one fun rest s => ?_
    simp [vsprintfStep, hpercent, SprintItem.act]
  | percent => exact Reads.one fun rest s => rfl
  | conversion m k arg =>
    refine Reads.one fun rest s => ?_
    have hpercent : m.Bare → k.char ≠ '%' := fun _ => by cases k <;> decide
    rw [List.append_assoc, List.singleton_append]
    exact vsprintfStep_escape (endedBy_char m k) hpercent rest s
  | unknown m c hended hpercent hconversion =>
    refine Reads.one fun rest s => ?_
    rw [List.append_assoc, List.singleton_append]
    exact vsprintfStep_escape hended hpercent rest s

end Reading

/-! ### Writing the items -/

section Writing

variable {mem : Mem} {s : Sprint} {args : List Word} {l : List Char}

/-- An item writes its field.  What is in the buffer is said for texts whose length is an `int`. -/
theorem SprintItem.act_writes (i : SprintItem) (hargs : s.args = i.args ++ args)
    (htext : i.text mem = some l) :
    ∃ t, Writes (i.act mem) s t ∧ t.str = s.str + (i.field mem).length ∧ t.args = args ∧
      (l.length < 2 ^ 31 → t = { s with args := args }.append (i.field mem)) := by
  cases i with
  | literal c _ _ =>
    obtain rfl : s.args = args := hargs
    exact ⟨_, putChar_writes c, rfl, rfl, fun _ => rfl⟩
  | percent =>
    obtain rfl : s.args = args := hargs
    exact ⟨_, putChar_writes '%', rfl, rfl, fun _ => rfl⟩
  | conversion m k a =>
    have hfield : (SprintItem.conversion m k a).field mem =
        fieldText m.padChar (widthOf m.digits) l := by
      rw [SprintItem.field, show k.text mem m.length a = some l from htext, Option.getD_some]
    rw [hfield]
    exact vsprintfField_writes (by rfl) (vsprintfConversion_writes m.length k hargs htext)
  | unknown m c _ _ hc =>
    obtain rfl : s.args = args := hargs
    obtain rfl : ['%', c] = l := Option.some.inj htext
    exact vsprintfField_writes rfl (vsprintfConversion_unknown hc _ _)

/-- The text of a list of items, with the padding that `vsprintf` computes. -/
def fields (mem : Mem) (items : List SprintItem) : List Char :=
  items.flatMap (SprintItem.field mem)

/-- Items write their fields one behind the other. -/
theorem run_writes {items : List SprintItem} (hargs : s.args = sprintArgs items ++ args)
    (htext : ∀ i ∈ items, (i.text mem).isSome) :
    ∃ t, Writes (run (SprintItem.act mem) items) s t ∧
      t.str = s.str + (fields mem items).length ∧ t.args = args ∧
      ((∀ i ∈ items, ((i.text mem).getD []).length < 2 ^ 31) →
        t = { s with args := args }.append (fields mem items)) := by
  induction items generalizing s with
  | nil =>
    obtain rfl : s.args = args := hargs
    exact ⟨s, .skip, rfl, rfl, fun _ => s.append_nil.symm⟩
  | cons i items ih =>
    rw [sprintArgs, List.flatMap_cons, List.append_assoc] at hargs
    obtain ⟨l, hl⟩ := Option.isSome_iff_exists.mp (htext i List.mem_cons_self)
    obtain ⟨t, hi, hstr, hrest, ht⟩ := i.act_writes hargs hl
    obtain ⟨t', hitems, hstr', hrest', ht'⟩ := ih hrest fun j hj =>
      htext j (List.mem_cons_of_mem i hj)
    have htotal : (fields mem (i :: items)).length =
        (i.field mem).length + (fields mem items).length := by
      rw [fields, List.flatMap_cons, List.length_append, fields]
    refine ⟨t', hi.seq hitems (by omega), by omega, hrest', fun hlong => ?_⟩
    have hfirst := ht (by simpa [hl] using hlong i List.mem_cons_self)
    rw [ht' fun j hj => hlong j (List.mem_cons_of_mem i hj), hfirst]
    exact Sprint.append_append { s with args := args } (i.field mem) (fields mem items)

/-- A call, up to the null character. -/
theorem vsprintf_eq {items : List SprintItem} (buf : Nat → Char)
    (htext : ∀ i ∈ items, (i.text mem).isSome) (extra : List Word) :
    ∃ r, vsprintf mem buf (sprintFormat items) (sprintArgs items ++ extra) = some r ∧
      r.result = (BitVec.ofNat 32 (fields mem items).length).toInt ∧
      (fields mem items).length ∈ r.written ∧
      (∀ i ∈ r.written, i ≤ (fields mem items).length) ∧
      ((∀ i ∈ items, ((i.text mem).getD []).length < 2 ^ 31) →
        r.buf = writeAt buf 0 (fields mem items ++ ['\x00'])) := by
  obtain ⟨t, ⟨w, hrun, hw⟩, hstr, _, ht⟩ :=
    run_writes (s := ⟨buf, 0, sprintArgs items ++ extra⟩) rfl htext
  have hscan : scan (vsprintfStep mem) (items.flatMap SprintItem.format).length
      (items.flatMap SprintItem.format) = run (SprintItem.act mem) items :=
    (Reads.flatMap fun i _ => i.reads).scan_eq
  rw [Nat.zero_add] at hstr
  rw [hstr] at hw
  have hcall : vsprintf mem buf (sprintFormat items) (sprintArgs items ++ extra) =
      some ⟨(BitVec.ofNat 32 t.str).toInt, Function.update t.buf t.str '\x00', w ++ [t.str]⟩ := by
    rw [vsprintf, sprintFormat, hscan, Action.seq, hrun]
    rfl
  refine ⟨_, hcall, by rw [hstr], by simp [hstr], fun i hi => ?_, fun hlong => ?_⟩
  · rcases List.mem_append.mp hi with hi | hi
    · exact (hw i hi).le
    · rw [List.mem_singleton.mp hi, hstr]
  · have hend := update_writeAt buf 0 (fields mem items) '\x00'
    rw [Nat.zero_add] at hend
    rw [← hend, ← hstr, ht hlong]
    rfl

end Writing

/-! ### Widths -/

theorem widthLoop_digitChars (n : Nat) (digits : List (Fin 10)) :
    (widthLoop (BitVec.ofNat 32 n) (digitChars digits)).1 =
      BitVec.ofNat 32 ((digits.map Fin.val).foldl (fun n d => n * 10 + d) n) := by
  induction digits generalizing n with
  | nil => rfl
  | cons d digits ih =>
    have hbounds := digitOf_bounds d
    have hval : ∀ d : Fin 10, (digitOf d).toNat - 48 = d.val := by decide
    have hnext : BitVec.ofNat 32 n * 10 + BitVec.ofNat 32 ((digitOf d).toNat - 48) =
        BitVec.ofNat 32 (n * 10 + d.val) := by
      rw [hval, BitVec.ofNat_add, BitVec.ofNat_mul]
      rfl
    rw [digitChars, List.map_cons, widthLoop, if_pos hbounds, hnext]
    exact ih (n * 10 + d.val)

theorem SprintModifiers.widthOf_eq (m : SprintModifiers) :
    widthOf m.digits = BitVec.ofNat 32 m.width := by
  have h := widthLoop_digitChars 0 (flagged m.digits).2
  rw [foldl_digits, Nat.zero_mul, Nat.zero_add] at h
  exact h

/-- A field with a width that is an `int`. -/
theorem fieldText_eq {m : SprintModifiers} {l : List Char} (hwidth : m.width < 2 ^ 31)
    (hl : l.length < 2 ^ 31) :
    fieldText m.padChar (widthOf m.digits) l = l.leftpad m.width m.padChar := by
  have hcount : padCount (widthOf m.digits) l.length = m.width - l.length := by
    rw [padCount, m.widthOf_eq, ofNat_toInt_eq hwidth, ofNat_toInt_eq hl]
    omega
  rw [fieldText, hcount]
  rfl

theorem SprintItem.field_eq {mem : Mem} {i : SprintItem} (hwidth : i.width < 2 ^ 31)
    (hl : ((i.text mem).getD []).length < 2 ^ 31) : i.field mem = i.rendered mem := by
  cases i with
  | literal c _ _ => rfl
  | percent => rfl
  | conversion m k arg => exact fieldText_eq hwidth hl
  | unknown m c _ _ _ => exact fieldText_eq hwidth hl

theorem SprintItem.text_length_le (mem : Mem) (i : SprintItem) :
    ((i.text mem).getD []).length ≤ (i.rendered mem).length := by
  cases i with
  | literal c _ _ => exact le_rfl
  | percent => exact le_rfl
  | conversion m k arg => exact (List.leftpad_suffix).length_le
  | unknown m c _ _ _ => exact (List.leftpad_suffix).length_le

/-! ### The call -/

/-- **`vsprintf` writes the fields of its items and a null character.** -/
theorem vsprintf_renders (mem : Mem) (buf : Nat → Char) (items : List SprintItem)
    (extra : List Word) (htext : ∀ i ∈ items, (i.text mem).isSome)
    (hwidth : ∀ i ∈ items, i.width < 2 ^ 31) (hlength : (rendered mem items).length < 2 ^ 31) :
    ∃ written, vsprintf mem buf (sprintFormat items) (sprintArgs items ++ extra) =
        some ⟨(rendered mem items).length, writeAt buf 0 (rendered mem items ++ ['\x00']), written⟩ ∧
      ∀ i ∈ written, i ≤ (rendered mem items).length := by
  have hlong : ∀ i ∈ items, ((i.text mem).getD []).length < 2 ^ 31 := by
    intro i hi
    have hfield : (i.rendered mem).length ≤ (rendered mem items).length :=
      (List.sublist_flatten_of_mem (List.mem_map_of_mem hi)).length_le
    exact ((i.text_length_le mem).trans hfield).trans_lt hlength
  have hfields : fields mem items = rendered mem items :=
    List.flatMap_congr fun i hi => SprintItem.field_eq (hwidth i hi) (hlong i hi)
  obtain ⟨⟨result, buf', written⟩, hcall, hresult, _, hwritten, hbuf⟩ :=
    vsprintf_eq buf htext extra
  rw [hfields] at hresult hwritten hbuf
  rw [ofNat_toInt_eq hlength] at hresult
  exact ⟨written, by rw [hcall, ← hresult, ← hbuf hlong], hwritten⟩

theorem a_ne_percent : 'a' ≠ '%' := by decide

theorem a_ne_null : 'a' ≠ '\x00' := by decide

theorem neZero_ten : NeZero 10 := ⟨by decide⟩

/-- `a%05d%7s%X` with the arguments -42, a null pointer and 255. -/
def exampleItems : List SprintItem :=
  letI := neZero_ten
  [.literal 'a' a_ne_percent a_ne_null, .conversion ⟨[0, 5], .none⟩ .d (-42),
    .conversion ⟨[7], .none⟩ .s 0, .conversion ⟨[], .none⟩ .X 255]

theorem vsprintf_renders_exampleItems :
    ∃ written, vsprintf (fun _ => 0) (fun _ => 'z') "a%05d%7s%X".toList [-42, 0, 255] =
        some ⟨15, writeAt (fun _ => 'z') 0 ("a00-42 (null)FF".toList ++ ['\x00']), written⟩ ∧
      ∀ i ∈ written, i ≤ 15 := by
  have h42 : signedNumeral (SprintLength.none.signed (-42)) = "-42".toList := by
    have hvalue : SprintLength.none.signed (-42) = -42 := by decide
    rw [hvalue]
    norm_num [signedNumeral, numeral, digitOf]
    decide
  have hFF : (numeral 16 (SprintLength.none.unsigned 255)).map Char.toUpper = "FF".toList := by
    have hvalue : SprintLength.none.unsigned 255 = 255 := by decide
    rw [hvalue]
    norm_num [numeral, digitOf]
    decide
  have htext : rendered (fun _ => 0) exampleItems = "a00-42 (null)FF".toList := by
    simp only [rendered, exampleItems, List.flatMap_cons, List.flatMap_nil, SprintItem.rendered,
      SprintItem.text, SprintConversion.text, h42, hFF, Option.getD_some, if_true]
    decide
  have hsome : ∀ i ∈ exampleItems, (i.text fun _ => 0).isSome := by
    intro i hi
    simp only [exampleItems, List.mem_cons, List.not_mem_nil, or_false] at hi
    rcases hi with rfl | rfl | rfl | rfl <;> rfl
  have h := vsprintf_renders (fun _ => 0) (fun _ => 'z') exampleItems [] hsome
    (by simp [exampleItems, SprintItem.width, SprintModifiers.width, flagged, valueOf])
    (by rw [htext]; decide)
  rw [htext] at h
  exact h

end AncoreOS.Tools
