import AncoreOS.Klibc.Atoi
import Mathlib.Data.List.TakeWhile

/-!
# The end pointer of `strtol`

A caller of `strtol` sees from the end pointer whether there was a number.  Where the string has
none, the end pointer is to be the string itself, and of a `0x` without a hexadecimal digit behind
it the `0` is the number (`EndContract`).

`strtol` does not go back.  It leaves the end pointer behind the white space and the sign it has
skipped, and behind a `0x`, so the contract is kept on the strings that have neither
(`end_contract_iff`).
-/

namespace AncoreOS.Klibc

open ByteMemory

/-! ### Contract -/

/-- A `0x` behind white space and a sign, with no hexadecimal digit behind it. -/
structure LoneText (base : Nat) (str : List Char) where
  spaces : List Char
  sign : Sign
  x : Char
  rest : List Char
  str_eq : str = spaces ++ (sign.chars ++ '0' :: x :: rest)
  isSpace : ∀ c ∈ spaces, c = ' ' ∨ c = '\t' ∨ c = '\n'
  isX : x = 'x' ∨ x = 'X'
  base_eq : base = 0 ∨ base = 16
  noDigit : NoDigit 16 rest

/-- What the result and the end pointer are where there is no number, or only the `0` of a `0x`. -/
structure EndContract (parse : List Char → Int → Word × List Char) (base : Nat)
    (str : List Char) : Prop where
  nothing : IsEmpty (NumberText base str) → parse str base = (0, str)
  zero : ∀ t : LoneText base str, parse str base = (0, t.x :: t.rest)

/-- The functions that parse a number and return an end pointer. -/
def endParsers : List (List Char → Int → Word × List Char) := [strtol, strtoul, strtoll, strtoull]

theorem forall_endParsers {base : Nat} {str : List Char} :
    (∀ parse ∈ endParsers, EndContract parse base str) ↔ EndContract strtol base str := by
  constructor
  · intro h
    exact h strtol List.mem_cons_self
  · intro h parse hparse
    simp only [endParsers, List.mem_cons, List.not_mem_nil, or_false] at hparse
    rcases hparse with rfl | rfl | rfl | rfl <;> exact h

/-! ### A lone `0x` -/

theorem LoneText.strtol_eq {base : Nat} {str : List Char} (t : LoneText base str) :
    strtol str base = (0, t.rest) := by
  have hsign := strtolSign_chars t.isSpace t.sign (c := '0') rfl (t.x :: t.rest)
  rw [← t.str_eq] at hsign
  have hskip : strtolBase base ('0' :: t.x :: t.rest) = (16, t.rest) := by
    rcases t.base_eq with rfl | rfl <;> rcases t.isX with hx | hx <;> rw [hx] <;> rfl
  have hloop : strtolLoop 16 0 t.rest = (0, t.rest) :=
    strtolLoop_noDigit (by decide) t.noDigit
  have hzero : -(0 : Word) = 0 := rfl
  simp only [strtol, hsign, hskip, hloop, hzero, ite_self]

/-! ### White space and signs -/

/-- What follows white space and a sign. -/
def unsignedPart (str : List Char) : List Char := (strtolSign (str.dropWhile strtolSpace)).2

/-- There is no white space and no sign in front. -/
def Bare (str : List Char) : Prop := ∀ c ∈ str.head?, c ∉ [' ', '\t', '\n', '-', '+']

theorem exists_sign (str : List Char) : ∃ spaces sign,
    (∀ c ∈ spaces, c = ' ' ∨ c = '\t' ∨ c = '\n') ∧
      str = spaces ++ (Sign.chars sign ++ unsignedPart str) := by
  have hspaces : ∀ c ∈ str.takeWhile strtolSpace, c = ' ' ∨ c = '\t' ∨ c = '\n' := by
    intro c hc
    have := List.mem_takeWhile_imp hc
    simpa [strtolSpace, or_assoc] using this
  have hsign : ∃ sign, str.dropWhile strtolSpace = Sign.chars sign ++ unsignedPart str := by
    unfold unsignedPart
    generalize str.dropWhile strtolSpace = s
    unfold strtolSign
    split
    · exact ⟨.minus, rfl⟩
    · exact ⟨.plus, rfl⟩
    · exact ⟨.none, rfl⟩
  obtain ⟨sign, hsign⟩ := hsign
  exact ⟨_, sign, hspaces, by rw [← hsign, List.takeWhile_append_dropWhile]⟩

theorem unsignedPart_length_le (str : List Char) : (unsignedPart str).length ≤ str.length := by
  obtain ⟨spaces, sign, -, heq⟩ := exists_sign str
  have := congrArg List.length heq
  simp only [List.length_append] at this
  omega

theorem unsignedPart_eq_iff (str : List Char) : unsignedPart str = str ↔ Bare str := by
  cases str with
  | nil => exact iff_of_true rfl (by simp [Bare])
  | cons c str =>
    by_cases hspace : strtolSpace c = true
    · have hskip : unsignedPart (c :: str) = unsignedPart str := by
        rw [unsignedPart, List.dropWhile_cons, if_pos hspace]
        rfl
      have hlen := unsignedPart_length_le str
      refine iff_of_false ?_ ?_
      · intro h
        rw [hskip] at h
        rw [h, List.length_cons] at hlen
        omega
      · intro h
        have := h c rfl
        simp_all [strtolSpace]
    · have hkeep : (c :: str).dropWhile strtolSpace = c :: str := by
        rw [List.dropWhile_cons, if_neg hspace]
      have hsign : unsignedPart (c :: str) = (strtolSign (c :: str)).2 := by
        rw [unsignedPart, hkeep]
      rw [hsign]
      by_cases hminus : c = '-'
      · subst hminus
        exact iff_of_false (List.ne_cons_self) fun h => h '-' rfl (by simp)
      · by_cases hplus : c = '+'
        · subst hplus
          exact iff_of_false (List.ne_cons_self) fun h => h '+' rfl (by simp)
        · have hnone : strtolSign (c :: str) = (false, c :: str) := by
            unfold strtolSign
            split <;> simp_all
          refine iff_of_true (by rw [hnone]) ?_
          rintro d ⟨⟩
          simp_all [strtolSpace]

/-! ### Digits in front -/

/-- The digits in front of a string. -/
theorem exists_digitRun (base : Nat) (str : List Char) : ∃ ds cs rest, str = cs ++ rest ∧
    (∀ d ∈ ds, d < base) ∧ List.Forall₂ Spells ds cs ∧ NoDigit base rest := by
  induction str with
  | nil => exact ⟨[], [], [], rfl, fun d hd => absurd hd List.not_mem_nil, .nil, by simp [NoDigit]⟩
  | cons c str ih =>
    by_cases hc : NoDigit base (c :: str)
    · exact ⟨[], [], c :: str, rfl, fun d hd => absurd hd List.not_mem_nil, .nil, hc⟩
    · obtain ⟨d, hd, hspell⟩ : ∃ d < base, Spells d c := by
        simpa [NoDigit] using hc
      obtain ⟨ds, cs, rest, rfl, hds, hcs, hrest⟩ := ih
      refine ⟨d :: ds, c :: cs, rest, rfl, ?_, .cons hspell hcs, hrest⟩
      intro e he
      rcases List.mem_cons.mp he with rfl | he
      · exact hd
      · exact hds e he

/-- White space and a sign, as the first part of a number. -/
structure Lead (str body : List Char) where
  spaces : List Char
  sign : Sign
  isSpace : ∀ c ∈ spaces, c = ' ' ∨ c = '\t' ∨ c = '\n'
  str_eq : str = spaces ++ (sign.chars ++ body)

variable {base : Nat} {str body : List Char}

/-- A digit behind a lead makes a number, when its base is the one to be read. -/
theorem Lead.exists_number (lead : Lead str body) (pre : HexPrefix) (resolved : Nat) {d : Nat}
    {c : Char} {s : List Char} (hbody : body = pre.chars ++ c :: s) (hd : d < resolved)
    (hc : Spells d c) (hresolves : ∀ ds, Resolves base pre (d :: ds) resolved)
    (htaken : pre = .none → base = 0 ∨ base = 16 →
      ∀ r, c :: s = '0' :: 'x' :: r ∨ c :: s = '0' :: 'X' :: r → NoDigit 16 r) :
    Nonempty (NumberText base str) := by
  obtain ⟨ds, cs, rest, rfl, hds, hcs, hrest⟩ := exists_digitRun resolved s
  exact ⟨{
    spaces := lead.spaces
    sign := lead.sign
    pre := pre
    digits := c :: cs
    rest := rest
    resolved := resolved
    values := d :: ds
    str_eq := lead.str_eq.trans (congrArg _ (congrArg _ hbody))
    isSpace := lead.isSpace
    resolves := hresolves ds
    nonempty := List.cons_ne_nil _ _
    lt_base := List.forall_mem_cons.mpr ⟨hd, hds⟩
    spelled := .cons hc hcs
    maximal := hrest
    taken := htaken }⟩

/-- A `0`, and perhaps a `0x` with a digit behind it, where both are read. -/
theorem Lead.exists_zero {s : List Char} (lead : Lead str ('0' :: s))
    (hbase : base = 0 ∨ base = 16) : Nonempty (NumberText base str) := by
  have hzero : Spells 0 '0' := Or.inl rfl
  by_cases hhex : ∃ pre, pre ≠ HexPrefix.none ∧
      ∃ c r, '0' :: s = pre.chars ++ c :: r ∧ ∃ d < 16, Spells d c
  · obtain ⟨pre, hpre, c, r, hs, d, hd, hc⟩ := hhex
    refine lead.exists_number pre 16 hs hd hc (fun ds => ?_) fun h => absurd h hpre
    rcases hbase with rfl | rfl
    · exact .hex hpre
    · exact .hexGiven hpre
  · have htaken : ∀ r, '0' :: s = '0' :: 'x' :: r ∨ '0' :: s = '0' :: 'X' :: r → NoDigit 16 r := by
      intro r hr c hc d hd hspell
      obtain ⟨t, rfl⟩ : ∃ t, r = c :: t := ⟨r.tail, List.eq_cons_of_mem_head? hc⟩
      rcases hr with hr | hr
      · exact hhex ⟨.lower, by decide, c, t, hr, d, hd, hspell⟩
      · exact hhex ⟨.upper, by decide, c, t, hr, d, hd, hspell⟩
    rcases hbase with rfl | rfl
    · exact lead.exists_number .none 8 rfl (by decide) hzero
        (fun ds => .octal) fun _ _ => htaken
    · exact lead.exists_number .none 16 rfl (by decide) hzero
        (fun ds => .given (by decide) (by decide)) fun _ _ => htaken

/-- Where there is no number, there is no digit either, and nothing that looks like a prefix. -/
theorem Lead.no_digit (lead : Lead str body) (hbase : base = 0 ∨ 2 ≤ base ∧ base ≤ 36)
    (hnone : IsEmpty (NumberText base str)) : ∃ b : Nat, b ≤ 36 ∧ NoDigit b body ∧
      strtolBase base body = ((b : Int), body) := by
  have hnot : ¬ Nonempty (NumberText base str) := not_nonempty_iff.mpr hnone
  have hhead : base = 0 ∨ base = 16 → ∀ s, body ≠ '0' :: s := by
    rintro h s rfl
    exact hnot (lead.exists_zero h)
  by_cases h0 : base = 0
  · subst h0
    refine ⟨10, by decide, ?_, ?_⟩
    · intro c hc d hd hspell
      obtain ⟨s, rfl⟩ : ∃ s, body = c :: s := ⟨body.tail, List.eq_cons_of_mem_head? hc⟩
      have hne : d ≠ 0 := by
        rintro rfl
        exact hhead (Or.inl rfl) s (by rw [spells_zero hspell])
      refine hnot (lead.exists_number .none 10 rfl hd hspell
        (fun ds => .decimal hne) fun _ _ r hr => ?_)
      exact absurd (hr.elim (fun h => ⟨_, h⟩) fun h => ⟨_, h⟩) (not_exists.mpr (hhead (Or.inl rfl)))
    · cases body with
      | nil => rfl
      | cons c s =>
        refine strtolBase_decimal ?_ s
        rintro rfl
        exact hhead (Or.inl rfl) s rfl
  · obtain ⟨h₁, h₂⟩ := hbase.resolve_left h0
    refine ⟨base, h₂, ?_, ?_⟩
    · intro c hc d hd hspell
      obtain ⟨s, rfl⟩ : ∃ s, body = c :: s := ⟨body.tail, List.eq_cons_of_mem_head? hc⟩
      refine hnot (lead.exists_number .none base rfl hd hspell (fun ds => .given h₁ h₂)
        fun _ h r hr => ?_)
      exact absurd (hr.elim (fun h => ⟨_, h⟩) fun h => ⟨_, h⟩) (not_exists.mpr (hhead h))
    · by_cases h16 : base = 16
      · subst h16
        refine strtolBase_hex ?_
        rintro ⟨s, h | h⟩
        · exact hhead (Or.inr rfl) _ h
        · exact hhead (Or.inr rfl) _ h
      · exact strtolBase_other (by omega) (by omega) _

/-- Where there is no number, the end pointer is left behind the white space and the sign. -/
theorem strtol_of_isEmpty (hbase : base = 0 ∨ 2 ≤ base ∧ base ≤ 36)
    (hnone : IsEmpty (NumberText base str)) : strtol str base = (0, unsignedPart str) := by
  obtain ⟨spaces, sign, hspaces, heq⟩ := exists_sign str
  obtain ⟨b, hb, hdigit, hskip⟩ :=
    Lead.no_digit ⟨spaces, sign, hspaces, heq⟩ hbase hnone
  have hloop : strtolLoop b 0 (unsignedPart str) = (0, unsignedPart str) :=
    strtolLoop_noDigit hb hdigit
  have hzero : -(0 : Word) = 0 := rfl
  rw [unsignedPart] at hskip hloop
  simp only [strtol, hskip, hloop, hzero, ite_self]
  rfl

/-- **The end pointer is right when there is no white space and no sign in front of what is no
number, and no lone `0x`.** -/
theorem end_contract_iff (hbase : base = 0 ∨ 2 ≤ base ∧ base ≤ 36) (str : List Char) :
    (∀ parse ∈ endParsers, EndContract parse base str) ↔
      (IsEmpty (NumberText base str) → Bare str) ∧ IsEmpty (LoneText base str) := by
  rw [forall_endParsers]
  constructor
  · intro h
    refine ⟨fun hnone => ?_, ⟨fun t => ?_⟩⟩
    · have heq := h.nothing hnone
      rw [strtol_of_isEmpty hbase hnone] at heq
      exact (unsignedPart_eq_iff str).mp (Prod.mk.inj heq).2
    · have heq := h.zero t
      rw [t.strtol_eq] at heq
      exact List.ne_cons_self (Prod.mk.inj heq).2
  · rintro ⟨hbare, hlone⟩
    refine ⟨fun hnone => ?_, fun t => hlone.elim t⟩
    rw [strtol_of_isEmpty hbase hnone, (unsignedPart_eq_iff str).mpr (hbare hnone)]

/-- A number has a digit. -/
theorem NumberText.isEmpty_of_digits (h : ∀ c ∈ str, strtolDigit c = none) :
    IsEmpty (NumberText base str) := by
  refine ⟨fun t => ?_⟩
  obtain ⟨c, s, hbody, hdigit⟩ := t.body_head
  have hmem : c ∈ str := by
    have hstr : str = t.spaces ++ (t.sign.chars ++ t.body) := t.str_eq
    rw [hstr, hbody]
    simp
  rw [h c hmem] at hdigit
  cases hdigit

/-- `"-"` is no number. -/
theorem isEmpty_minus : IsEmpty (NumberText 10 ['-']) :=
  NumberText.isEmpty_of_digits (by simp; decide)

example : strtol " +g".toList 10 = (0, ['g']) := by decide

theorem end_contract_iff_minus : (10 = 0 ∨ 2 ≤ 10 ∧ 10 ≤ 36) ∧
    ((∀ parse ∈ endParsers, EndContract parse 10 ['-']) ↔
      (IsEmpty (NumberText 10 ['-']) → Bare ['-']) ∧ IsEmpty (LoneText 10 ['-'])) :=
  ⟨by decide, end_contract_iff (by decide) ['-']⟩

/-- The end pointer of `"-"` is behind the sign. -/
theorem minus_not_rolled_back : ¬ ∀ (base : Nat) (str : List Char),
    base = 0 ∨ 2 ≤ base ∧ base ≤ 36 → ∀ parse ∈ endParsers, EndContract parse base str := by
  intro h
  have hend := (h 10 ['-'] (by decide) strtol List.mem_cons_self).nothing isEmpty_minus
  exact absurd (congrArg Prod.snd hend) (by decide)

end AncoreOS.Klibc
