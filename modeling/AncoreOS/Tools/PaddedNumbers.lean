import AncoreOS.Tools.PrintfNumbers
import AncoreOS.Tools.SprintItems

/-!
# Numbers with leading zeros

`printf` and `vsprintf` put the zeros of `%0Nd` in front of the number as it is, so in front of its
minus sign.  `strtol` reads such a field as 0 and stops at the sign.  So a number is read back if
and only if it is not negative or needs no padding (`padded_reads_iff`).
-/

namespace AncoreOS.Tools

open ByteMemory Buffer Scanner AncoreOS.Klibc

/-- `%0Nd`. -/
def paddedFormat (digits : List (Fin 10)) : List Char := '%' :: '0' :: (digitChars digits ++ ['d'])

/-- The width `N` as an `int`. -/
def paddedWidth (digits : List (Fin 10)) : BitVec 32 := BitVec.ofNat 32 (valueOf 10 (digits.map Fin.val))

/-- `strtol` reads the whole field, as the number. -/
def ReadsBack (field : List Char) (v : BitVec 32) : Prop := strtol field 10 = (v.signExtend 64, [])

/-! ### Reading -/

/-- Digits in base 10 are read up to the first character that is none. -/
theorem strtol_digits {d : Nat} {ds : List Nat} {rest : List Char} (hds : ∀ e ∈ d :: ds, e < 10)
    (hrest : NoDigit 10 rest) :
    strtol ((d :: ds).map digitOf ++ rest) 10 = (BitVec.ofNat 64 (valueOf 10 (d :: ds)), rest) := by
  have hdigit : (strtolDigit (digitOf d)).isSome := by
    have hlt := hds d List.mem_cons_self
    rw [strtolDigit_of_spells (by omega) (Or.inl rfl)]
    rfl
  have hsign : strtolSign (((d :: ds).map digitOf ++ rest).dropWhile strtolSpace) =
      (false, (d :: ds).map digitOf ++ rest) := by
    have hspaces : ∀ c ∈ ([] : List Char), c = ' ' ∨ c = '\t' ∨ c = '\n' := by simp
    exact strtolSign_chars hspaces .none hdigit (ds.map digitOf ++ rest)
  have hloop := strtolLoop_valueOf (by decide) hds (spells_digitOf (d :: ds)) hrest
  have hbase : strtolBase 10 ((d :: ds).map digitOf ++ rest) = (10, (d :: ds).map digitOf ++ rest) :=
    strtolBase_other (by decide) (by decide) _
  simp only [strtol, hsign, hbase]
  rw [show ((10 : Nat) : Int) = 10 from rfl] at hloop
  rw [hloop]
  rfl

theorem valueOf_replicate_zero (k : Nat) (ds : List Nat) :
    valueOf 10 (List.replicate k 0 ++ ds) = valueOf 10 ds := by
  have hzero : Nat.ofDigits 10 (List.replicate k 0) = 0 := by
    induction k with
    | zero => rfl
    | succ k ih => rw [List.replicate_succ, Nat.ofDigits_cons, ih]
  rw [valueOf, valueOf, List.reverse_append, Nat.ofDigits_append, List.reverse_replicate, hzero,
    Nat.mul_zero, Nat.add_zero]

/-- Zeros in front of a minus sign. -/
theorem strtol_zeros_minus (k : Nat) (s : List Char) :
    strtol (List.replicate (k + 1) '0' ++ '-' :: s) 10 = (0, '-' :: s) := by
  have hminus : NoDigit 10 ('-' :: s) := by
    intro c hc d hd hspell
    obtain rfl : '-' = c := by simpa using hc
    have hnone : strtolDigit '-' = none := rfl
    rw [strtolDigit_of_spells (by omega) hspell] at hnone
    exact Option.some_ne_none d hnone
  have hmap : List.replicate (k + 1) '0' = (0 :: List.replicate k 0).map digitOf := by
    rw [← List.replicate_succ, List.map_replicate]
    rfl
  have hvalue : valueOf 10 (0 :: List.replicate k 0) = 0 := by
    have h := valueOf_replicate_zero (k + 1) []
    rwa [List.append_nil, List.replicate_succ] at h
  have hdigits : ∀ e ∈ 0 :: List.replicate k 0, e < 10 := by
    intro e he
    rw [← List.replicate_succ] at he
    rw [List.eq_of_mem_replicate he]
    decide
  rw [hmap, strtol_digits hdigits hminus, hvalue]
  rfl

/-- Zeros in front of a numeral. -/
theorem strtol_zeros_numeral (k n : Nat) :
    strtol (List.replicate k '0' ++ numeral 10 n) 10 = (BitVec.ofNat 64 n, []) := by
  have hmap : List.replicate k '0' ++ numeral 10 n =
      (List.replicate k 0 ++ numeralDigits 10 n).map digitOf ++ [] := by
    rw [List.append_nil, List.map_append, List.map_replicate, numeral_eq_map]
    rfl
  have hdigits : ∀ e ∈ List.replicate k 0 ++ numeralDigits 10 n, e < 10 := by
    intro e he
    rcases List.mem_append.mp he with he | he
    · rw [List.eq_of_mem_replicate he]
      decide
    · exact numeralDigits_lt (by decide) e he
  have hvalue : valueOf 10 (List.replicate k 0 ++ numeralDigits 10 n) = n := by
    rw [valueOf_replicate_zero, valueOf_numeralDigits]
  obtain ⟨d, ds, heq⟩ : ∃ d ds, List.replicate k 0 ++ numeralDigits 10 n = d :: ds :=
    List.exists_cons_of_ne_nil (by simp [numeralDigits_ne_nil])
  rw [heq] at hmap hdigits hvalue
  rw [hmap, strtol_digits hdigits (by simp [NoDigit]), hvalue]

/-- A number with zeros in front of it. -/
theorem readsBack_iff (k : Nat) (v : BitVec 32) :
    ReadsBack (List.replicate k '0' ++ itoa v 10) v ↔ 0 ≤ v.toInt ∨ k = 0 := by
  unfold ReadsBack
  by_cases hneg : v.toInt < 0
  · have htext : itoa v 10 = '-' :: numeral 10 (-v).toNat := by rw [itoa_dec, if_pos hneg]
    rw [htext]
    cases k with
    | zero =>
      have h : strtol (itoa v 10) 10 = _ := strtol_itoa_eq (by decide) (by decide) v
      rw [htext] at h
      exact iff_of_true h (Or.inr rfl)
    | succ k =>
      rw [strtol_zeros_minus]
      refine iff_of_false (fun h => ?_) (by omega)
      exact List.cons_ne_nil _ _ (Prod.mk.inj h).2
  · have htext : itoa v 10 = numeral 10 v.toNat := by rw [itoa_dec, if_neg hneg]
    refine iff_of_true ?_ (Or.inl (by omega))
    rw [htext, strtol_zeros_numeral, ofNat_toNat_eq, signExtend_of_nonneg hneg]

/-! ### The two printers -/

theorem paddedWidth_eq (digits : List (Fin 10)) : widthOf (0 :: digits) = paddedWidth digits :=
  SprintModifiers.widthOf_eq ⟨0 :: digits, .none⟩

theorem charsOf_padded (padChar : Char) (pad : BitVec 32) (p : List Char) :
    charsOf (padded padChar pad p) = fieldText padChar pad p := by
  simp [charsOf, padded, fieldText, padCount, emitChar, Function.comp_def]

/-- `printf` prints the field. -/
theorem printf_padded (mem : Mem) (digits : List (Fin 10)) (a : Word) (args : List Word) :
    ∃ n out, printf true mem (paddedFormat digits) (a :: args) = some (n, ⟨out, 1⟩) ∧
      charsOf out = fieldText '0' (paddedWidth digits) (itoa (a.setWidth 32) 10) := by
  refine ⟨_, _, printf_number mem ⟨0 :: digits, .none⟩ .d a args, ?_⟩
  rw [← paddedWidth_eq]
  exact charsOf_padded _ _ _

/-- `vsprintf` writes the same field. -/
theorem vsprintf_padded (mem : Mem) (buf : Nat → Char) (digits : List (Fin 10)) (a : Word)
    (args : List Word) :
    ∃ r, vsprintf mem buf (paddedFormat digits) (a :: args) = some r ∧
      r.buf = writeAt buf 0
        (fieldText '0' (paddedWidth digits) (itoa (a.setWidth 32) 10) ++ ['\x00']) := by
  have htext : (SprintItem.conversion ⟨0 :: digits, .none⟩ .d a).text mem =
      some (itoa (a.setWidth 32) 10) := by
    rw [itoa_signed]
    rfl
  have hsome : ∀ i ∈ [SprintItem.conversion ⟨0 :: digits, .none⟩ .d a], (i.text mem).isSome := by
    simp [htext]
  have hlong : ∀ i ∈ [SprintItem.conversion ⟨0 :: digits, .none⟩ .d a],
      ((i.text mem).getD []).length < 2 ^ 31 := by
    have hlength : (itoa (a.setWidth 32) 10).length ≤ 32 := itoa_length_le (by decide) _
    simp only [List.mem_singleton, forall_eq, htext, Option.getD_some]
    omega
  have hformat : sprintFormat [.conversion ⟨0 :: digits, .none⟩ .d a] = paddedFormat digits := by
    simp [sprintFormat, SprintItem.format, SprintModifiers.chars, SprintLength.chars, digitChars,
      paddedFormat, SprintConversion.char, show digitOf 0 = '0' from rfl]
  have hfields : fields mem [.conversion ⟨0 :: digits, .none⟩ .d a] =
      fieldText '0' (paddedWidth digits) (itoa (a.setWidth 32) 10) := by
    rw [← paddedWidth_eq, itoa_signed, fields, List.flatMap_cons, List.flatMap_nil, List.append_nil]
    rfl
  obtain ⟨r, hcall, _, _, _, hbuf⟩ := vsprintf_eq buf hsome args
  rw [hformat] at hcall
  rw [hfields] at hbuf
  exact ⟨r, hcall, hbuf hlong⟩

/-- **A number with `%0Nd` is read back if and only if it is not negative or as long as the width
without padding.** -/
theorem padded_reads_iff (mem : Mem) (buf : Nat → Char) (digits : List (Fin 10)) (a : Word)
    (args : List Word) :
    ∃ n out r field, printf true mem (paddedFormat digits) (a :: args) = some (n, ⟨out, 1⟩) ∧
      charsOf out = field ∧
      vsprintf mem buf (paddedFormat digits) (a :: args) = some r ∧
      r.buf = writeAt buf 0 (field ++ ['\x00']) ∧
      (ReadsBack field (a.setWidth 32) ↔ 0 ≤ (a.setWidth 32).toInt ∨
        (paddedWidth digits).toInt ≤ (signedNumeral (a.setWidth 32).toInt).length) := by
  obtain ⟨n, out, hprintf, hout⟩ := printf_padded mem digits a args
  obtain ⟨r, hvsprintf, hbuf⟩ := vsprintf_padded mem buf digits a args
  refine ⟨n, out, r, _, hprintf, hout, hvsprintf, hbuf, ?_⟩
  have hlength : (itoa (a.setWidth 32) 10).length ≤ 32 := itoa_length_le (by decide) _
  have hcount : padCount (paddedWidth digits) (itoa (a.setWidth 32) 10).length = 0 ↔
      (paddedWidth digits).toInt ≤ (signedNumeral (a.setWidth 32).toInt).length := by
    rw [← itoa_signed, padCount, ofNat_toInt_eq (by omega)]
    omega
  rw [fieldText, readsBack_iff, hcount]

/-- `%05d` of -5 is `000-5`. -/
theorem padded_negative_not_read :
    ∃ n out r, printf true (fun _ => 0) "%05d".toList [-5] = some (n, ⟨out, 1⟩) ∧
      charsOf out = "000-5".toList ∧
      vsprintf (fun _ => 0) (fun _ => 'z') "%05d".toList [-5] = some r ∧
      r.buf = writeAt (fun _ => 'z') 0 ("000-5".toList ++ ['\x00']) ∧
      ¬ ReadsBack "000-5".toList (-5) := by
  have hfield : fieldText '0' (paddedWidth [5]) (itoa ((-5 : Word).setWidth 32) 10) =
      "000-5".toList := by decide
  obtain ⟨n, out, hprintf, hout⟩ := printf_padded (fun _ => 0) [5] (-5) []
  obtain ⟨r, hvsprintf, hbuf⟩ := vsprintf_padded (fun _ => 0) (fun _ => 'z') [5] (-5) []
  rw [hfield] at hout hbuf
  refine ⟨n, out, r, hprintf, hout, hvsprintf, hbuf, ?_⟩
  unfold ReadsBack
  decide

end AncoreOS.Tools
