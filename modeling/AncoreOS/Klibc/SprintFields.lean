import AncoreOS.Klibc.Itoa
import AncoreOS.Klibc.Vsprintf

/-!
# Fields

What the parts of `vsprintf` write.  `Writes f s s'` says that `f` leads from `s` to `s'` and
writes nothing behind it, and `s.append l` is `s` with the list `l` written.

A number is written as its numeral (`numToStr_writes`), a conversion as its text
(`vsprintfConversion_writes`), and the padding puts characters in front of the text that is
already there (`sprintPad_append`).
-/

namespace AncoreOS.Klibc

open ByteMemory Scanner Buffer

/-! ### Writing -/

/-- A list is written at `str`. -/
def Sprint.append (s : Sprint) (l : List Char) : Sprint :=
  { s with buf := writeAt s.buf s.str l, str := s.str + l.length }

/-- The action leads from `s` to `s'`, and every offset that it writes is before the end. -/
def Writes (f : Action Nat Sprint) (s s' : Sprint) : Prop :=
  ∃ written, f s = some (written, s') ∧ ∀ i ∈ written, i < s'.str

variable {s s' s'' : Sprint} {f g : Action Nat Sprint} {l l' : List Char}

@[simp] theorem Sprint.append_str (s : Sprint) (l : List Char) :
    (s.append l).str = s.str + l.length := rfl

@[simp] theorem Sprint.append_args (s : Sprint) (l : List Char) : (s.append l).args = s.args := rfl

@[simp] theorem Sprint.append_nil (s : Sprint) : s.append [] = s := by
  simp [Sprint.append]

theorem Sprint.append_append (s : Sprint) (l l' : List Char) :
    (s.append l).append l' = s.append (l ++ l') := by
  simp only [Sprint.append, writeAt_append, List.length_append, Nat.add_assoc]

theorem Writes.skip : Writes Action.skip s s := ⟨[], rfl, by simp⟩

theorem Writes.seq (hf : Writes f s s') (hg : Writes g s' s'') (hle : s'.str ≤ s''.str) :
    Writes (f.seq g) s s'' := by
  obtain ⟨w, hfs, hw⟩ := hf
  obtain ⟨w', hgs, hw'⟩ := hg
  refine ⟨w ++ w', ?_, fun i hi => ?_⟩
  · rw [Action.seq, hfs]
    simp [hgs]
  · rcases List.mem_append.mp hi with hi | hi
    · exact (hw i hi).trans_le hle
    · exact hw' i hi

theorem putChar_writes (c : Char) : Writes (putChar c) s (s.append [c]) := by
  refine ⟨[s.str], ?_, by simp⟩
  rw [putChar, Sprint.append, writeAt_singleton]
  rfl

theorem run_putChar_writes (l : List Char) : Writes (run putChar l) s (s.append l) := by
  induction l generalizing s with
  | nil =>
    rw [Sprint.append_nil]
    exact .skip
  | cons c l ih =>
    have h := (putChar_writes (s := s) c).seq ih (by simp)
    rwa [Sprint.append_append] at h

theorem takeArg_writes {f : Word → Action Nat Sprint} {a : Word} {args : List Word}
    (hargs : s.args = a :: args) (h : Writes (f a) { s with args := args } s') :
    Writes (takeArg f) s s' := by
  obtain ⟨w, hfs, hw⟩ := h
  refine ⟨w, ?_, hw⟩
  rw [takeArg, hargs]
  exact hfs

/-! ### Numbers -/

/-- A numeral, with capital letters if they are asked for. -/
def numeralCase (base : Nat) (uppercase : Bool) (n : Nat) : List Char :=
  if uppercase then (numeral base n).map Char.toUpper else numeral base n

theorem numDigits_getD (uppercase : Bool) {d : Nat} (hd : d < 16) :
    (numDigits uppercase).getD d '0' = if uppercase then (digitOf d).toUpper else digitOf d := by
  have hall : ∀ u : Bool, ∀ d < 16,
      (numDigits u).getD d '0' = if u then (digitOf d).toUpper else digitOf d := by decide
  exact hall uppercase d hd

theorem numToStrLoop_eq {base : Nat} (hbase : 1 < base) (hle : base ≤ 16) (uppercase : Bool)
    (fuel num : Nat) :
    numToStrLoop base uppercase fuel num =
      (itoaLoop base fuel num).map fun c => if uppercase then c.toUpper else c := by
  induction fuel generalizing num with
  | zero => rfl
  | succ fuel ih =>
    have hdigit := numDigits_getD uppercase (d := num % base)
      ((Nat.mod_lt _ (by omega)).trans_le hle)
    rw [numToStrLoop, itoaLoop]
    split
    · rfl
    · rw [hdigit, ih, List.map_cons]

theorem numToStr_writes {base : Nat} (hbase : 8 ≤ base) (hle : base ≤ 16) (uppercase : Bool)
    (num : Word) :
    Writes (numToStr num base uppercase) s (s.append (numeralCase base uppercase num.toNat)) := by
  unfold numToStr
  by_cases hzero : num = 0
  · have htext : numeralCase base uppercase num.toNat = ['0'] := by
      rw [hzero]
      cases uppercase <;> rfl
    rw [if_pos hzero, htext]
    exact putChar_writes '0'
  · have hne : num.toNat ≠ 0 := fun h => hzero (BitVec.eq_of_toNat_eq h)
    have hlt : num.toNat < base ^ 32 := by
      calc num.toNat < 2 ^ 64 := num.isLt
        _ ≤ 8 ^ 32 := by decide
        _ ≤ base ^ 32 := Nat.pow_le_pow_left hbase 32
    have htext : (numToStrLoop base uppercase 32 num.toNat).reverse =
        numeralCase base uppercase num.toNat := by
      rw [numToStrLoop_eq (by omega) hle, itoaLoop_eq (by omega) hlt, numeralCase, numeral,
        if_neg hne]
      cases uppercase <;> simp
    rw [if_neg hzero, htext]
    exact run_putChar_writes _

theorem putSigned_writes (val : Word) :
    Writes (putSigned val) s (s.append (signedNumeral val.toInt)) := by
  unfold putSigned signedNumeral
  split
  · rename_i hneg
    have hdigits : Writes (numToStr (-val) 10 false) (s.append ['-']) _ :=
      numToStr_writes (by decide) (by decide) false (-val)
    have h := (putChar_writes '-').seq hdigits (by simp)
    rw [Sprint.append_append, toNat_of_neg hneg] at h
    exact h
  · rename_i hnonneg
    have h : Writes (numToStr val 10 false) s _ :=
      numToStr_writes (by decide) (by decide) false val
    rw [toNat_of_nonneg hnonneg] at h
    exact h

/-! ### Padding -/

/-- The characters that are put in front of `n` characters. -/
def padCount (width : BitVec 32) (n : Nat) : Nat :=
  (width.toInt - (BitVec.ofNat 32 n).toInt).toNat

theorem moveLoop_eq (start pad n : Nat) (s : Sprint) :
    ∃ written, moveLoop start pad n s = some (written, { s with buf := moveRight start pad n s.buf }) ∧
      ∀ i ∈ written, i < start + n + pad := by
  induction n generalizing s with
  | zero => exact ⟨[], rfl, by simp⟩
  | succ n ih =>
    obtain ⟨w, hmove, hw⟩ :=
      ih { s with buf := Function.update s.buf (start + n + pad) (s.buf (start + n)) }
    refine ⟨(start + n + pad) :: w, ?_, fun i hi => ?_⟩
    · simp only [moveLoop, Action.seq, setChar, Option.bind_some, hmove, Option.map_some]
      rfl
    · rcases List.mem_cons.mp hi with rfl | hi
      · omega
      · have := hw i hi
        omega

theorem fillLoop_eq (padChar : Char) (start pad : Nat) (s : Sprint) :
    ∃ written, fillLoop padChar start pad s =
        some (written, { s with buf := fillGap start padChar pad s.buf }) ∧
      ∀ i ∈ written, i < start + pad := by
  induction pad generalizing start s with
  | zero => exact ⟨[], rfl, by simp⟩
  | succ pad ih =>
    obtain ⟨w, hfill, hw⟩ := ih (start + 1) { s with buf := Function.update s.buf start padChar }
    refine ⟨start :: w, ?_, fun i hi => ?_⟩
    · simp only [fillLoop, Action.seq, setChar, Option.bind_some, hfill, Option.map_some]
      rfl
    · rcases List.mem_cons.mp hi with rfl | hi
      · omega
      · have := hw i hi
        omega

theorem ofNat_toInt_le (n : Nat) : (BitVec.ofNat 32 n).toInt ≤ n := by
  have h := BitVec.toInt_eq_toNat_cond (BitVec.ofNat 32 n)
  rw [BitVec.toNat_ofNat] at h
  split at h <;> omega

theorem ofNat_toInt_eq {n : Nat} (h : n < 2 ^ 31) : (BitVec.ofNat 32 n).toInt = n := by
  have hcond := BitVec.toInt_eq_toNat_cond (BitVec.ofNat 32 n)
  rw [BitVec.toNat_ofNat] at hcond
  split at hcond <;> omega

/-- The buffer behind the padding of the field that begins at `start`. -/
def padBuffer (padChar : Char) (width : BitVec 32) (start n : Nat) (buf : Nat → Char) : Nat → Char :=
  fillGap start padChar (padCount width n)
    (moveRight start (padCount width n) (BitVec.ofNat 32 n).toInt.toNat buf)

/-- The padding, whatever the length of the field. -/
theorem sprintPad_writes (padChar : Char) (width : BitVec 32) {start : Nat} (hle : start ≤ s.str) :
    ∃ buf, Writes (sprintPad padChar width start) s
        ⟨buf, s.str + padCount width (s.str - start), s.args⟩ ∧
      ((BitVec.ofNat 32 (s.str - start)).toInt < width.toInt →
        buf = padBuffer padChar width start (s.str - start) s.buf) ∧
      (¬ (BitVec.ofNat 32 (s.str - start)).toInt < width.toInt → buf = s.buf) := by
  have hlen := ofNat_toInt_le (s.str - start)
  by_cases hlt : (BitVec.ofNat 32 (s.str - start)).toInt < width.toInt
  · obtain ⟨w, hmove, hw⟩ := moveLoop_eq start (padCount width (s.str - start))
      (BitVec.ofNat 32 (s.str - start)).toInt.toNat s
    obtain ⟨w', hfill, hw'⟩ := fillLoop_eq padChar start (padCount width (s.str - start))
      ⟨moveRight start (padCount width (s.str - start))
        (BitVec.ofNat 32 (s.str - start)).toInt.toNat s.buf, s.str, s.args⟩
    refine ⟨_, ⟨w ++ w', ?_, fun i hi => ?_⟩, fun _ => rfl, fun h => absurd hlt h⟩
    · simp only [sprintPad, if_pos hlt]
      rw [← padCount, Action.seq, hmove]
      simp only [Option.bind_some, hfill, Option.map_some]
      rfl
    · show i < s.str + _
      rcases List.mem_append.mp hi with hi | hi
      · have := hw i hi
        omega
      · have := hw' i hi
        omega
  · have hzero : padCount width (s.str - start) = 0 := by
      unfold padCount
      omega
    refine ⟨s.buf, ⟨[], ?_, by simp⟩, fun h => absurd h hlt, fun _ => rfl⟩
    simp only [sprintPad, if_neg hlt]
    rw [hzero]
    rfl

/-- The text of a field with its padding. -/
def fieldText (padChar : Char) (width : BitVec 32) (text : List Char) : List Char :=
  List.replicate (padCount width text.length) padChar ++ text

/-- The padding is put in front of the text. -/
theorem sprintPad_append (padChar : Char) (width : BitVec 32) (hl : l.length < 2 ^ 31) :
    Writes (sprintPad padChar width s.str) (s.append l) (s.append (fieldText padChar width l)) := by
  obtain ⟨buf, hwrites, hpos, hneg⟩ :=
    sprintPad_writes (s := s.append l) padChar width (Nat.le_add_right s.str l.length)
  have hlen : (s.append l).str - s.str = l.length := Nat.add_sub_cancel_left _ _
  rw [hlen] at hwrites hpos hneg
  have hbuf : buf = writeAt s.buf s.str (fieldText padChar width l) := by
    by_cases hlt : (BitVec.ofNat 32 l.length).toInt < width.toInt
    · rw [hpos hlt, padBuffer, ofNat_toInt_eq hl, Int.toNat_natCast, fieldText]
      exact writeAt_shift s.buf s.str _ padChar l
    · have hzero : padCount width l.length = 0 := by
        unfold padCount
        omega
      rw [hneg hlt, fieldText, hzero]
      rfl
  have hstate : s.append (fieldText padChar width l) =
      ⟨buf, s.str + l.length + padCount width l.length, s.args⟩ := by
    rw [Sprint.append, ← hbuf, fieldText, List.length_append, List.length_replicate]
    congr 1
    omega
  rw [hstate]
  exact hwrites

/-- The field of a text.  What is in the buffer is said for texts whose length is an `int`. -/
theorem vsprintfField_writes {mem : Mem} {padChar c : Char} {width : BitVec 32}
    {isLong isLongLong : Bool} (hstr : s'.str = s.str)
    (htext : Writes (vsprintfConversion mem isLong isLongLong c) s (s'.append l)) :
    ∃ t, Writes (vsprintfField mem padChar width isLong isLongLong c) s t ∧
      t.str = s'.str + (fieldText padChar width l).length ∧ t.args = s'.args ∧
      (l.length < 2 ^ 31 → t = s'.append (fieldText padChar width l)) := by
  have hsize : (fieldText padChar width l).length = padCount width l.length + l.length := by
    rw [fieldText, List.length_append, List.length_replicate]
  by_cases hl : l.length < 2 ^ 31
  · have hpad := sprintPad_append (s := s') padChar width hl
    rw [hstr] at hpad
    have hle : (s'.append l).str ≤ (s'.append (fieldText padChar width l)).str := by
      rw [Sprint.append_str, Sprint.append_str, hsize]
      exact Nat.add_le_add_left (Nat.le_add_left _ _) _
    obtain ⟨w, hfield, hw⟩ := htext.seq hpad hle
    exact ⟨_, ⟨w, hfield, hw⟩, rfl, rfl, fun _ => rfl⟩
  · obtain ⟨buf, hpad, _, _⟩ := sprintPad_writes (s := s'.append l) padChar width
      (Nat.le_add_right s'.str l.length)
    have hlen : (s'.append l).str - s'.str = l.length := Nat.add_sub_cancel_left _ _
    rw [hlen, hstr] at hpad
    have hle : (s'.append l).str ≤ (s'.append l).str + padCount width l.length :=
      Nat.le_add_right _ _
    have htotal : (s'.append l).str + padCount width l.length =
        s'.str + (fieldText padChar width l).length := by
      rw [Sprint.append_str, hsize, Nat.add_assoc, Nat.add_comm l.length]
    obtain ⟨w, hfield, hw⟩ := htext.seq hpad hle
    exact ⟨_, ⟨w, hfield, hw⟩, htotal, rfl, fun h => absurd h hl⟩

/-! ### Conversions -/

inductive SprintLength
  | none
  | h
  | hh
  | l
  | ll
  | z
  deriving DecidableEq, Repr

inductive SprintConversion
  | d
  | i
  | u
  | x
  | X
  | o
  | p
  | s
  | c
  deriving DecidableEq, Repr

namespace SprintLength

def chars : SprintLength → List Char
  | .none => []
  | .h => ['h']
  | .hh => ['h', 'h']
  | .l => ['l']
  | .ll => ['l', 'l']
  | .z => ['z']

/-- `is_long` and `is_long_long`. -/
def flags : SprintLength → Bool × Bool
  | .none => (false, false)
  | .h => (false, false)
  | .hh => (false, false)
  | .l => (true, false)
  | .ll => (true, true)
  | .z => (true, true)

/-- The argument as a signed number of its type.  `h` and `hh` leave it an `int`. -/
def signed (len : SprintLength) (a : Word) : Int :=
  match len with
  | .l => a.toInt
  | .ll => a.toInt
  | .z => a.toInt
  | _ => (a.setWidth 32).toInt

/-- The argument as an unsigned number. -/
def unsigned (len : SprintLength) (a : Word) : Nat :=
  match len with
  | .l => a.toNat
  | .ll => a.toNat
  | .z => a.toNat
  | _ => a.toNat % 2 ^ 32

theorem signedArg_toInt (len : SprintLength) (a : Word) :
    (signedArg len.flags.1 len.flags.2 a).toInt = len.signed a := by
  have hshort : ((a.setWidth 32).signExtend 64).toInt = (a.setWidth 32).toInt :=
    BitVec.toInt_signExtend_of_le (by decide)
  cases len <;> first | rfl | exact hshort

theorem unsignedNum_toNat (len : SprintLength) (a : Word) :
    (unsignedNum len.flags.1 len.flags.2 a).toNat = len.unsigned a := by
  cases len <;> rfl

end SprintLength

namespace SprintConversion

def char : SprintConversion → Char
  | .d => 'd'
  | .i => 'i'
  | .u => 'u'
  | .x => 'x'
  | .X => 'X'
  | .o => 'o'
  | .p => 'p'
  | .s => 's'
  | .c => 'c'

/-- The text of an argument, without padding.  There is none for a `%s` without a string. -/
def text (mem : Mem) (len : SprintLength) (k : SprintConversion) (a : Word) : Option (List Char) :=
  match k with
  | .d => some (signedNumeral (len.signed a))
  | .i => some (signedNumeral (len.signed a))
  | .u => some (numeral 10 (len.unsigned a))
  | .x => some (numeral 16 (len.unsigned a))
  | .X => some ((numeral 16 (len.unsigned a)).map Char.toUpper)
  | .o => some (numeral 8 (len.unsigned a))
  | .p => some ('0' :: 'x' :: numeral 16 a.toNat)
  | .s => if a = 0 then some "(null)".toList else string mem a
  | .c => some [Char.ofNat (a.setWidth 8).toNat]

end SprintConversion

section Conversions

variable {mem : Mem} {a : Word} {args : List Word}

theorem unsigned_writes {base : Nat} (hbase : 8 ≤ base) (hle : base ≤ 16) (uppercase : Bool)
    (len : SprintLength) (a : Word) :
    Writes (numToStr (unsignedNum len.flags.1 len.flags.2 a) base uppercase) s
      (s.append (numeralCase base uppercase (len.unsigned a))) := by
  have h : Writes _ s _ :=
    numToStr_writes hbase hle uppercase (unsignedNum len.flags.1 len.flags.2 a)
  rwa [len.unsignedNum_toNat] at h

theorem signed_writes (len : SprintLength) (a : Word) :
    Writes (putSigned (signedArg len.flags.1 len.flags.2 a)) s
      (s.append (signedNumeral (len.signed a))) := by
  have h : Writes _ s _ := putSigned_writes (signedArg len.flags.1 len.flags.2 a)
  rwa [len.signedArg_toInt] at h

/-- A conversion writes its text. -/
theorem vsprintfConversion_writes (len : SprintLength) (k : SprintConversion)
    (hargs : s.args = a :: args) (htext : k.text mem len a = some l) :
    Writes (vsprintfConversion mem len.flags.1 len.flags.2 k.char) s
      ({ s with args := args }.append l) := by
  cases k with
  | d =>
    obtain rfl := Option.some.inj htext
    exact takeArg_writes hargs (signed_writes len a)
  | i =>
    obtain rfl := Option.some.inj htext
    exact takeArg_writes hargs (signed_writes len a)
  | u =>
    obtain rfl := Option.some.inj htext
    exact takeArg_writes hargs (unsigned_writes (by decide) (by decide) false len a)
  | x =>
    obtain rfl := Option.some.inj htext
    exact takeArg_writes hargs (unsigned_writes (by decide) (by decide) false len a)
  | X =>
    obtain rfl := Option.some.inj htext
    exact takeArg_writes hargs (unsigned_writes (by decide) (by decide) true len a)
  | o =>
    obtain rfl := Option.some.inj htext
    exact takeArg_writes hargs (unsigned_writes (by decide) (by decide) false len a)
  | p =>
    obtain rfl := Option.some.inj htext
    have hnum : Writes (takeArg fun a => numToStr a 16 false) ((s.append ['0']).append ['x'])
        (({ s with args := args }.append ['0', 'x']).append (numeral 16 a.toNat)) := by
      refine takeArg_writes hargs ?_
      rw [Sprint.append_append]
      exact numToStr_writes (by decide) (by decide) false a
    have hx := (putChar_writes 'x').seq hnum (Nat.le_add_right _ _)
    have h := (putChar_writes '0').seq hx (by simp; omega)
    rwa [Sprint.append_append] at h
  | s =>
    refine takeArg_writes hargs ?_
    simp only [SprintConversion.text] at htext
    simp only [htext]
    exact run_putChar_writes l
  | c =>
    obtain rfl := Option.some.inj htext
    exact takeArg_writes hargs (putChar_writes _)

/-- Anything else is copied, with the `%`. -/
theorem vsprintfConversion_unknown {c : Char} (hc : ∀ k : SprintConversion, k.char ≠ c)
    (isLong isLongLong : Bool) :
    Writes (vsprintfConversion mem isLong isLongLong c) s (s.append ['%', c]) := by
  have hcopy : vsprintfConversion mem isLong isLongLong c = (putChar '%').seq (putChar c) := by
    unfold vsprintfConversion
    split
    · exact absurd rfl (hc .d)
    · exact absurd rfl (hc .i)
    · exact absurd rfl (hc .u)
    · exact absurd rfl (hc .x)
    · exact absurd rfl (hc .X)
    · exact absurd rfl (hc .o)
    · exact absurd rfl (hc .p)
    · exact absurd rfl (hc .s)
    · exact absurd rfl (hc .c)
    · rfl
  have h := (putChar_writes (s := s) '%').seq (putChar_writes c) (by simp)
  rw [Sprint.append_append] at h
  rw [hcopy]
  exact h

end Conversions

end AncoreOS.Klibc
