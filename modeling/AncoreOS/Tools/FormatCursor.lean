import AncoreOS.Library.Cursor
import AncoreOS.Tools.SprintItems

/-!
# How the printers read a format

Each printer goes through its format with a pointer.  What it does with the pointer depends on the
characters of the format only, not on the arguments, so it is a cursor: a state for each place in
the source that reads `*format`, and for each character the next place and whether the pointer
moves on.  The format is a function from offsets to characters, so that what stands behind the
null character can be read, too.

`printf` and `vsprintf` take the null character for a conversion if the format ends behind a
`%` or behind modifiers.  `serial_printf` looks for it behind `%` but not behind `l`, `ll` and
`L`.  So they stay inside the format if and only if it is complete (`format_bounded_iff`).
-/

namespace AncoreOS.Tools

open ByteMemory Scanner Cursor Munch AncoreOS.Klibc

/-! ### The cursors -/

def IsDigit (c : Char) : Prop := '0' ≤ c ∧ c ≤ '9'

instance decidableIsDigit (c : Char) : Decidable (IsDigit c) := inferInstanceAs (Decidable (_ ∧ _))

/-- The places where `printf` reads `*format`. -/
inductive PrintfPlace
  | loop
  | flag
  | width
  | length
  | secondL
  | conversion
  deriving DecidableEq, Repr

/-- Every case of the `switch` goes on with the loop. -/
def printfCursor : Control PrintfPlace Char := fun place c =>
  match place with
  | .loop => if c = '\x00' then none else if c ≠ '%' then some (.loop, true) else some (.flag, true)
  | .flag => if c = '0' then some (.width, true) else some (.width, false)
  | .width => if IsDigit c then some (.width, true) else some (.length, false)
  | .length =>
    if c = 'l' then some (.secondL, true)
    else if c = 'L' then some (.conversion, true) else some (.conversion, false)
  | .secondL => if c = 'l' then some (.conversion, true) else some (.conversion, false)
  | .conversion => some (.loop, true)

/-- The places where `vsprintf` reads `*fmt`. -/
inductive VsprintfPlace
  | loop
  | percent
  | flag
  | width
  | length
  | secondL
  | secondH
  | conversion
  deriving DecidableEq, Repr

/-- The loop moves `fmt` on behind a literal character, behind `%%` and behind a conversion. -/
def vsprintfCursor : Control VsprintfPlace Char := fun place c =>
  match place with
  | .loop =>
    if c = '\x00' then none else if c ≠ '%' then some (.loop, true) else some (.percent, true)
  | .percent => if c = '%' then some (.loop, true) else some (.flag, false)
  | .flag => if c = '0' then some (.width, true) else some (.width, false)
  | .width => if IsDigit c then some (.width, true) else some (.length, false)
  | .length =>
    if c = 'l' then some (.secondL, true)
    else if c = 'h' then some (.secondH, true)
    else if c = 'z' then some (.conversion, true) else some (.conversion, false)
  | .secondL => if c = 'l' then some (.conversion, true) else some (.conversion, false)
  | .secondH => if c = 'h' then some (.conversion, true) else some (.conversion, false)
  | .conversion => some (.loop, true)

/-- The places where `serial_printf` reads `*p`; `next` reads `*(p + 1)`. -/
inductive SerialPlace
  | loop
  | next
  | length
  | secondL
  | conversion
  deriving DecidableEq, Repr

/-- A `%` in front of the null character is copied, and the pointer is at the null character. -/
def serialCursor : Control SerialPlace Char := fun place c =>
  match place with
  | .loop => if c = '\x00' then none else if c = '%' then some (.next, true) else some (.loop, true)
  | .next => if c ≠ '\x00' then some (.length, false) else some (.loop, false)
  | .length =>
    if c = 'l' then some (.secondL, true)
    else if c = 'L' then some (.conversion, true) else some (.conversion, false)
  | .secondL => if c = 'l' then some (.conversion, true) else some (.conversion, false)
  | .conversion => some (.loop, true)

/-! ### Modifiers -/

/-- The length modifiers of `printf` and `serial_printf`. -/
def lengthWords : List (List Char) := [[], ['l'], ['l', 'l'], ['L']]

def LengthWord (m : List Char) : Prop := m ∈ lengthWords

/-- Digits and a length modifier: what `printf` reads behind `%`. -/
def PrintfWord (m : List Char) : Prop :=
  ∃ (digits : List (Fin 10)) (w : List Char), w ∈ lengthWords ∧ m = digitChars digits ++ w

/-- What `vsprintf` reads behind `%`. -/
def VsprintfWord (m : List Char) : Prop := ∃ mods : SprintModifiers, m = mods.chars

theorem IsDigit.exists_digit {c : Char} (h : IsDigit c) : ∃ d : Fin 10, digitOf d = c := by
  have hlo : 48 ≤ c.toNat := h.1
  have hhi : c.toNat ≤ 57 := h.2
  refine ⟨⟨c.toNat - 48, by omega⟩, ?_⟩
  rw [digitOf, if_neg (by simp only; omega), Nat.sub_add_cancel hlo, Char.ofNat_toNat]

theorem digitChars_append (digits : List (Fin 10)) (d : Fin 10) :
    digitChars (digits ++ [d]) = digitChars digits ++ [digitOf d] := by
  simp [digitChars]

theorem isDigit_of_mem {digits : List (Fin 10)} : ∀ c ∈ digitChars digits, IsDigit c := by
  intro c hc
  obtain ⟨d, _, rfl⟩ := List.mem_map.mp hc
  exact digitOf_bounds d

section Maximal

variable {digits : List (Fin 10)} {w : List Char} {a : Char}

/-- A character that does not continue a word is no digit, unless there is a length modifier. -/
theorem printfWord_stop (hmax : ¬ PrintfWord (digitChars digits ++ w ++ [a])) :
    (w = [] → ¬ IsDigit a) ∧ w ++ [a] ∉ lengthWords := by
  refine ⟨?_, fun h => hmax ⟨digits, w ++ [a], h, List.append_assoc _ _ _⟩⟩
  rintro rfl hdigit
  obtain ⟨d, rfl⟩ := hdigit.exists_digit
  refine hmax ⟨digits ++ [d], [], by simp [lengthWords], ?_⟩
  rw [digitChars_append, List.append_nil, List.append_nil]

/-- The same for `vsprintf`. -/
theorem endedBy_of_maximal {m : SprintModifiers} (hmax : ¬ VsprintfWord (m.chars ++ [a])) :
    m.EndedBy a := by
  obtain ⟨digits, len⟩ := m
  have hlonger : ∀ len' : SprintLength, len.chars ++ [a] ≠ len'.chars := by
    intro len' h
    refine hmax ⟨⟨digits, len'⟩, ?_⟩
    rw [SprintModifiers.chars, SprintModifiers.chars, List.append_assoc, h]
  cases len with
  | none =>
    refine ⟨fun hdigit => ?_, ?_, ?_, ?_⟩
    · obtain ⟨d, rfl⟩ := IsDigit.exists_digit hdigit
      refine hmax ⟨⟨digits ++ [d], .none⟩, ?_⟩
      simp [SprintModifiers.chars, SprintLength.chars, digitChars_append]
    · rintro rfl
      exact hlonger .l rfl
    · rintro rfl
      exact hlonger .h rfl
    · rintro rfl
      exact hlonger .z rfl
  | h =>
    rintro rfl
    exact hlonger .hh rfl
  | l =>
    rintro rfl
    exact hlonger .ll rfl
  | hh => trivial
  | ll => trivial
  | z => trivial

/-- Behind a `%`, a second one without modifiers is the only other case. -/
theorem bare_of_percent {m : SprintModifiers} (h : ¬ (m.Bare → a ≠ '%')) :
    m = ⟨[], .none⟩ ∧ a = '%' := by
  obtain ⟨digits, len⟩ := m
  by_contra hne
  refine h fun hbare ha => hne ?_
  obtain ⟨rfl, rfl⟩ := hbare
  exact ⟨rfl, ha⟩

end Maximal

/-! ### Reading modifiers -/

section Parts

variable {Q : Type*} {δ : Control Q Char} {input : Nat → Char} {i : Nat}

/-- The flag and the width. -/
theorem reach_digits {flag width length : Q} (hzero : δ flag '0' = some (width, true))
    (hflag : ∀ c, c ≠ '0' → δ flag c = some (width, false))
    (hdigit : ∀ c, IsDigit c → δ width c = some (width, true))
    (hstop : ∀ c, ¬ IsDigit c → δ width c = some (length, false)) {digits : List (Fin 10)}
    (hstands : StandsAt input i (digitChars digits))
    (hnext : ¬ IsDigit (input (i + (digitChars digits).length))) :
    Reach δ input (flag, i) (length, i + (digitChars digits).length) := by
  have hend := Reach.stay (hstop _ hnext)
  cases digits with
  | nil =>
    have hne : input i ≠ '0' := by
      intro h
      refine hnext ?_
      rw [digitChars, List.map_nil, List.length_nil, Nat.add_zero, h]
      decide
    exact (Reach.stay (hflag _ hne)).trans hend
  | cons d digits =>
    have hfirst : input i = digitOf d := hstands.head
    have hd : IsDigit (input i) := by
      rw [hfirst]
      exact digitOf_bounds d
    have hrest := Reach.through hdigit isDigit_of_mem (hstands.tail : StandsAt _ _ (digitChars digits))
    have hlength : (digitChars (d :: digits)).length = 1 + (digitChars digits).length := by
      rw [digitChars, List.map_cons, List.length_cons, Nat.add_comm, digitChars]
    rw [hlength, ← Nat.add_assoc] at hend ⊢
    by_cases h0 : input i = '0'
    · exact ((Reach.move (by rw [h0]; exact hzero)).trans hrest).trans hend
    · exact (((Reach.stay (hflag _ h0)).trans (Reach.move (hdigit _ hd))).trans hrest).trans hend

/-- The length modifier of `printf` and `serial_printf`. -/
theorem reach_lengthWord {length secondL conversion : Q}
    (hl : δ length 'l' = some (secondL, true)) (hL : δ length 'L' = some (conversion, true))
    (hother : ∀ c, c ≠ 'l' → c ≠ 'L' → δ length c = some (conversion, false))
    (hll : δ secondL 'l' = some (conversion, true))
    (hsecond : ∀ c, c ≠ 'l' → δ secondL c = some (conversion, false)) {w : List Char} {a : Char}
    (hw : w ∈ lengthWords) (hmax : w ++ [a] ∉ lengthWords) (hstands : StandsAt input i (w ++ [a])) :
    Reach δ input (length, i) (conversion, i + w.length) := by
  have ha : input (i + w.length) = a := hstands.right.head
  simp only [lengthWords, List.mem_cons, List.not_mem_nil, or_false] at hw
  obtain rfl | rfl | rfl | rfl := hw
  · refine Reach.stay (hother _ (fun h => ?_) fun h => ?_)
    · obtain rfl : a = 'l' := ha.symm.trans h
      exact hmax (by decide)
    · obtain rfl : a = 'L' := ha.symm.trans h
      exact hmax (by decide)
  · have h0 : input i = 'l' := hstands.head
    have hne : input (i + 1) ≠ 'l' := by
      intro h
      obtain rfl : a = 'l' := ha.symm.trans h
      exact hmax (by decide)
    exact (Reach.move (by rw [h0]; exact hl)).trans (Reach.stay (hsecond _ hne))
  · have h0 : input i = 'l' := hstands.head
    have h1 : input (i + 1) = 'l' := hstands.tail.head
    exact (Reach.move (by rw [h0]; exact hl)).trans (Reach.move (by rw [h1]; exact hll))
  · have h0 : input i = 'L' := hstands.head
    exact Reach.move (by rw [h0]; exact hL)

end Parts

/-! ### Reading an escape -/

theorem notDigit_of_mem_lengthWords {w : List Char} {a : Char} (hw : w ∈ lengthWords)
    (ha : w = [] → ¬ IsDigit a) : ∀ c, (w ++ [a]).head? = some c → ¬ IsDigit c := by
  intro c hc
  simp only [lengthWords, List.mem_cons, List.not_mem_nil, or_false] at hw
  obtain rfl | rfl | rfl | rfl := hw
  · obtain rfl : a = c := by simpa using hc
    exact ha rfl
  · obtain rfl : 'l' = c := by simpa using hc
    decide
  · obtain rfl : 'l' = c := by simpa using hc
    decide
  · obtain rfl : 'L' = c := by simpa using hc
    decide

theorem head_of_stands {input : Nat → Char} {i : Nat} {w : List Char} {a : Char}
    (h : StandsAt input i (w ++ [a])) : (w ++ [a]).head? = some (input i) := by
  cases w with
  | nil => rw [List.nil_append, List.head?_cons, h.head]
  | cons b w => rw [List.cons_append, List.head?_cons, h.head]

theorem printfCursor_escape {m : List Char} {a : Char} (hm : PrintfWord m)
    (hmax : ¬ PrintfWord (m ++ [a])) : ReadsEscape printfCursor .loop '%' m a := by
  intro input i hstands
  obtain ⟨digits, w, hw, rfl⟩ := hm
  obtain ⟨hdigit, hlonger⟩ := printfWord_stop hmax
  have hpercent : input i = '%' := hstands.head
  have htail := hstands.tail
  rw [List.append_assoc] at htail
  have hdigits : Reach printfCursor input (.flag, i + 1)
      (.length, i + 1 + (digitChars digits).length) := by
    refine reach_digits rfl (fun c hc => if_neg hc) (fun c hc => if_pos hc) (fun c hc => if_neg hc)
      htail.left ?_
    exact notDigit_of_mem_lengthWords hw hdigit _ (head_of_stands htail.right)
  have hlength : Reach printfCursor input (.length, i + 1 + (digitChars digits).length)
      (.conversion, i + 1 + (digitChars digits).length + w.length) :=
    reach_lengthWord rfl rfl (fun c h₁ h₂ => by simp [printfCursor, h₁, h₂]) rfl
      (fun c h => if_neg h) hw hlonger htail.right
  have hfirst : Reach printfCursor input (.loop, i) (.flag, i + 1) :=
    Reach.move (by rw [hpercent]; rfl)
  have hlast : Reach printfCursor input
      (.conversion, i + 1 + (digitChars digits).length + w.length)
      (.loop, i + 1 + (digitChars digits).length + w.length + 1) := Reach.move rfl
  have h := ((hfirst.trans hdigits).trans hlength).trans hlast
  rwa [show i + ((digitChars digits ++ w).length + 2) =
    i + 1 + (digitChars digits).length + w.length + 1 by rw [List.length_append]; omega]

theorem serialCursor_escape {m : List Char} {a : Char} (hm : LengthWord m)
    (hmax : ¬ LengthWord (m ++ [a])) (hne : m = [] → a ≠ '\x00') :
    ReadsEscape serialCursor .loop '%' m a := by
  intro input i hstands
  have hpercent : input i = '%' := hstands.head
  have htail := hstands.tail
  have hnull : input (i + 1) ≠ '\x00' := by
    intro h
    have hhead := head_of_stands htail
    rw [h] at hhead
    simp only [LengthWord, lengthWords, List.mem_cons, List.not_mem_nil, or_false] at hm
    obtain rfl | rfl | rfl | rfl := hm
    · exact hne rfl (by simpa using hhead)
    · exact absurd (Option.some.inj hhead) (by decide)
    · exact absurd (Option.some.inj hhead) (by decide)
    · exact absurd (Option.some.inj hhead) (by decide)
  have hfirst : Reach serialCursor input (.loop, i) (.next, i + 1) :=
    Reach.move (by rw [hpercent]; rfl)
  have hnext : Reach serialCursor input (.next, i + 1) (.length, i + 1) :=
    Reach.stay (if_pos hnull)
  have hlength : Reach serialCursor input (.length, i + 1) (.conversion, i + 1 + m.length) :=
    reach_lengthWord rfl rfl (fun c h₁ h₂ => by simp [serialCursor, h₁, h₂]) rfl
      (fun c h => if_neg h) hm hmax htail
  have hlast : Reach serialCursor input (.conversion, i + 1 + m.length)
      (.loop, i + 1 + m.length + 1) := Reach.move rfl
  have h := ((hfirst.trans hnext).trans hlength).trans hlast
  rwa [show i + (m.length + 2) = i + 1 + m.length + 1 by omega]

/-- The length modifier of `vsprintf`. -/
theorem reach_sprintLength {input : Nat → Char} {i : Nat} {m : SprintModifiers} {a : Char}
    (hended : m.EndedBy a) (hstands : StandsAt input i (m.length.chars ++ [a])) :
    Reach vsprintfCursor input (.length, i) (.conversion, i + m.length.chars.length) := by
  obtain ⟨digits, len⟩ := m
  have ha : input (i + len.chars.length) = a := hstands.right.head
  have hl : input i = 'l' → Reach vsprintfCursor input (.length, i) (.secondL, i + 1) :=
    fun h => Reach.move (by rw [h]; rfl)
  have hh : input i = 'h' → Reach vsprintfCursor input (.length, i) (.secondH, i + 1) :=
    fun h => Reach.move (by rw [h]; rfl)
  cases len with
  | none =>
    obtain ⟨_, hl, hh, hz⟩ := hended
    have ha : input i = a := ha
    refine Reach.stay ?_
    rw [ha]
    simp [vsprintfCursor, hl, hh, hz]
  | h =>
    have hne : input (i + 1) ≠ 'h' := by
      rw [show input (i + 1) = a from ha]
      exact hended
    exact (hh (StandsAt.head hstands)).trans (Reach.stay (if_neg hne))
  | hh =>
    have h1 : input (i + 1) = 'h' := (StandsAt.tail hstands).head
    exact (hh (StandsAt.head hstands)).trans (Reach.move (if_pos h1))
  | l =>
    have hne : input (i + 1) ≠ 'l' := by
      rw [show input (i + 1) = a from ha]
      exact hended
    exact (hl (StandsAt.head hstands)).trans (Reach.stay (if_neg hne))
  | ll =>
    have h1 : input (i + 1) = 'l' := (StandsAt.tail hstands).head
    exact (hl (StandsAt.head hstands)).trans (Reach.move (if_pos h1))
  | z =>
    have h0 : input i = 'z' := StandsAt.head hstands
    exact Reach.move (by rw [h0]; rfl)

theorem vsprintfCursor_escape {m : List Char} {a : Char} (hm : VsprintfWord m)
    (hmax : ¬ VsprintfWord (m ++ [a])) : ReadsEscape vsprintfCursor .loop '%' m a := by
  intro input i hstands
  obtain ⟨mods, rfl⟩ := hm
  have hended := endedBy_of_maximal hmax
  have hpercent : input i = '%' := hstands.head
  have htail := hstands.tail
  have hfirst : Reach vsprintfCursor input (.loop, i) (.percent, i + 1) :=
    Reach.move (by rw [hpercent]; rfl)
  by_cases hsecond : input (i + 1) = '%'
  · -- Two `%`: there are no modifiers, and the second one is the last character.
    have hhead := head_of_stands htail
    rw [hsecond] at hhead
    have hbare : mods.Bare := by
      by_contra hbare
      exact chars_head (fun h => absurd h hbare) [] hhead
    have hchars : mods.chars = [] := by
      rw [SprintModifiers.chars, hbare.1, hbare.2]
      rfl
    rw [hchars]
    exact hfirst.trans (Reach.move (if_pos hsecond))
  · have hpart := htail
    rw [SprintModifiers.chars, List.append_assoc] at hpart
    have hskip : Reach vsprintfCursor input (.percent, i + 1) (.flag, i + 1) :=
      Reach.stay (if_neg hsecond)
    have hdigits : Reach vsprintfCursor input (.flag, i + 1)
        (.length, i + 1 + (digitChars mods.digits).length) := by
      refine reach_digits rfl (fun c hc => if_neg hc) (fun c hc => if_pos hc)
        (fun c hc => if_neg hc) hpart.left ?_
      obtain ⟨e, l, heq, he⟩ := hended.exists_notDigit []
      have hhead := head_of_stands hpart.right
      rw [heq, List.head?_cons, Option.some.injEq] at hhead
      rwa [← hhead]
    have hlength := reach_sprintLength hended hpart.right
    have hlast : Reach vsprintfCursor input
        (.conversion, i + 1 + (digitChars mods.digits).length + mods.length.chars.length)
        (.loop, i + 1 + (digitChars mods.digits).length + mods.length.chars.length + 1) :=
      Reach.move rfl
    have h := (((hfirst.trans hskip).trans hdigits).trans hlength).trans hlast
    rwa [show i + (mods.chars.length + 2) =
      i + 1 + (digitChars mods.digits).length + mods.length.chars.length + 1 by
        rw [SprintModifiers.chars, List.length_append]; omega]

/-! ### The end of the format -/

theorem null_not_mem_digitChars (digits : List (Fin 10)) : '\x00' ∉ digitChars digits :=
  fun h => absurd (isDigit_of_mem _ h) (by decide)

theorem not_lengthWord_null (m : List Char) : ¬ LengthWord (m ++ ['\x00']) := by
  have hall : ∀ w ∈ lengthWords, '\x00' ∉ w := by decide
  exact fun h => hall _ h (List.mem_append_right m List.mem_cons_self)

theorem not_printfWord_null (m : List Char) : ¬ PrintfWord (m ++ ['\x00']) := by
  have hall : ∀ w ∈ lengthWords, '\x00' ∉ w := by decide
  rintro ⟨digits, w, hw, heq⟩
  have hmem : '\x00' ∈ digitChars digits ++ w := by
    rw [← heq]
    exact List.mem_append_right m List.mem_cons_self
  exact (List.mem_append.mp hmem).elim (null_not_mem_digitChars digits) (hall w hw)

theorem not_vsprintfWord_null (m : List Char) : ¬ VsprintfWord (m ++ ['\x00']) := by
  rintro ⟨⟨digits, len⟩, heq⟩
  have hlen : '\x00' ∉ len.chars := by cases len <;> decide
  have hmem : '\x00' ∈ digitChars digits ++ len.chars := by
    rw [show digitChars digits ++ len.chars = m ++ ['\x00'] from heq.symm]
    exact List.mem_append_right m List.mem_cons_self
  exact (List.mem_append.mp hmem).elim (null_not_mem_digitChars digits) hlen

theorem vsprintfWord_nil : VsprintfWord [] := ⟨⟨[], .none⟩, rfl⟩

theorem printfWord_nil : PrintfWord [] := ⟨[], [], by decide, rfl⟩

theorem lengthWord_nil : LengthWord [] := by
  unfold LengthWord
  decide

/-- For `serial_printf` a `%` may be the last character. -/
def SerialComplete (l : List Char) : Prop :=
  Complete '%' LengthWord l ∨ ∃ l', Complete '%' LengthWord l' ∧ l = l' ++ ['%']

section Bounds

variable {fmt : Nat → Char} {l : List Char}

theorem printf_bounded_iff (hl : StandsAt fmt 0 (l ++ ['\x00'])) (hnull : '\x00' ∉ l) :
    Bounded printfCursor fmt l.length (.loop, 0) ↔ Complete '%' PrintfWord l :=
  bounded_iff_complete rfl (fun a h₁ h₂ => by simp [printfCursor, h₁, h₂])
    (fun _ _ => printfCursor_escape) printfWord_nil not_printfWord_null hnull hl

theorem vsprintf_bounded_iff (hl : StandsAt fmt 0 (l ++ ['\x00'])) (hnull : '\x00' ∉ l) :
    Bounded vsprintfCursor fmt l.length (.loop, 0) ↔ Complete '%' VsprintfWord l :=
  bounded_iff_complete rfl (fun a h₁ h₂ => by simp [vsprintfCursor, h₁, h₂])
    (fun _ _ => vsprintfCursor_escape) vsprintfWord_nil not_vsprintfWord_null hnull hl

/-- A `%` at the end is copied, and the null character ends the loop. -/
theorem serial_bounded_of_last {l' : List Char} (h : Complete '%' LengthWord l')
    (hnull : '\x00' ∉ l') (hl : StandsAt fmt 0 (l' ++ ['%'] ++ ['\x00'])) :
    Bounded serialCursor fmt (l' ++ ['%']).length (.loop, 0) := by
  have hletter : ∀ a, a ≠ '%' → a ≠ '\x00' → serialCursor .loop a = some (.loop, true) :=
    fun a h₁ h₂ => by simp [serialCursor, h₁, h₂]
  have hpercent : fmt (0 + l'.length) = '%' := hl.left.right.head
  have hend : fmt (0 + l'.length + 1) = '\x00' := by
    have hhead := hl.right.head
    rwa [List.length_append, List.length_singleton, ← Nat.add_assoc] at hhead
  have hreach : Reach serialCursor fmt (.loop, 0) (.loop, 0 + l'.length) :=
    reach_of_complete hletter (fun m a hm hmax ha => serialCursor_escape hm hmax fun _ => ha) h
      hnull hl.left.left
  have hnext : Reach serialCursor fmt (.loop, 0 + l'.length) (.next, 0 + l'.length + 1) :=
    Reach.move (by rw [hpercent]; rfl)
  have hstay : Reach serialCursor fmt (.next, 0 + l'.length + 1) (.loop, 0 + l'.length + 1) :=
    Reach.stay (by rw [hend]; rfl)
  have hstop : Bounded serialCursor fmt (0 + l'.length + 1) (.loop, 0 + l'.length + 1) :=
    bounded_of_stop (by rw [hend]; rfl)
  rw [List.length_append, List.length_singleton]
  have h := hstop.of_reach ((hreach.trans hnext).trans hstay)
  rwa [Nat.zero_add] at h

theorem serial_bounded_iff (hl : StandsAt fmt 0 (l ++ ['\x00'])) (hnull : '\x00' ∉ l) :
    Bounded serialCursor fmt l.length (.loop, 0) ↔ SerialComplete l := by
  have hletter : ∀ a, a ≠ '%' → a ≠ '\x00' → serialCursor .loop a = some (.loop, true) :=
    fun a h₁ h₂ => by simp [serialCursor, h₁, h₂]
  have hescape : ∀ m a, LengthWord m → ¬ LengthWord (m ++ [a]) → a ≠ '\x00' →
      ReadsEscape serialCursor .loop '%' m a :=
    fun m a hm hmax ha => serialCursor_escape hm hmax fun _ => ha
  constructor
  · intro hbounded
    obtain h | ⟨l', m, hl', hm, rfl⟩ := complete_or_truncated '%' lengthWord_nil l
    · exact Or.inl h
    · by_cases hempty : m = []
      · subst hempty
        exact Or.inr ⟨l', hl', rfl⟩
      · have hnull' : '\x00' ∉ l' := fun h => hnull (List.mem_append_left _ h)
        exact absurd hbounded (not_bounded_of_truncated hletter hescape hl' hnull'
          (serialCursor_escape hm (not_lengthWord_null m) fun h => absurd h hempty) hl)
  · rintro (h | ⟨l', hl', rfl⟩)
    · exact bounded_of_complete rfl hletter hescape h hnull hl
    · exact serial_bounded_of_last hl' (fun h => hnull (List.mem_append_left _ h)) hl

end Bounds

/-! ### The cursors and the printers -/

/-- A printer leaves off where the cursor is. -/
def Follows {β σ Q : Type*} (step : Step Char β σ) (δ : Control Q Char) (loop : Q) : Prop :=
  ∀ c l s out rest s', step c l s = some (out, rest, s') → '\x00' ∉ c :: l →
    ∀ input i, StandsAt input i (c :: l ++ ['\x00']) →
      ∃ w, c :: l = w ++ rest ∧ Reach δ input (loop, i) (loop, i + w.length)

section Follows

variable {mem : Mem}

/-- A printer that copies letters, reads escapes as the cursor does, and has no result for an
escape that is cut off. -/
theorem follows_of_escapes {β σ Q : Type*} {step : Step Char β σ} {δ : Control Q Char} {loop : Q}
    {W : List Char → Prop} (hnil : W [])
    (hletter : ∀ a, a ≠ '%' → a ≠ '\x00' → δ loop a = some (loop, true))
    (hescape : ∀ m a, W m → ¬ W (m ++ [a]) → a ≠ '\x00' → ReadsEscape δ loop '%' m a)
    (hcopy : ∀ c l s out rest s', c ≠ '%' → step c l s = some (out, rest, s') → rest = l)
    (hread : ∀ m a l s out rest s', W m → ¬ W (m ++ [a]) →
      step '%' (m ++ a :: l) s = some (out, rest, s') → rest = l)
    (hcut : ∀ m s, W m → m ≠ [] → step '%' m s = none)
    (hlast : ∀ s out rest s', step '%' [] s = some (out, rest, s') → rest = [] ∧
      ∀ input i, StandsAt input i ['%', '\x00'] → Reach δ input (loop, i) (loop, i + 1)) :
    Follows step δ loop := by
  intro c l s out rest s' hstep hnull input i hstands
  by_cases hc : c = '%'
  · subst hc
    obtain hw | ⟨m, a, l', heq, hm, hmax⟩ := exists_longest hnil l
    · by_cases hempty : l = []
      · subst hempty
        obtain ⟨rfl, hreach⟩ := hlast s out rest s' hstep
        exact ⟨['%'], rfl, hreach input i hstands⟩
      · rw [hcut l s hw hempty] at hstep
        exact absurd hstep (Option.some_ne_none _).symm
    · obtain rfl : l = m ++ a :: l' := heq
      obtain rfl := hread m a l' s out rest s' hm hmax hstep
      have ha : a ≠ '\x00' := by
        rintro rfl
        exact hnull (by simp)
      have hword : '%' :: (m ++ a :: rest) = ('%' :: (m ++ [a])) ++ rest := by simp
      rw [hword, List.append_assoc] at hstands
      refine ⟨'%' :: (m ++ [a]), hword, ?_⟩
      have h := hescape m a hm hmax ha input i hstands.left
      rwa [show ('%' :: (m ++ [a])).length = m.length + 2 by simp]
  · obtain rfl := hcopy c l s out rest s' hc hstep
    have hfirst : input i = c := hstands.head
    refine ⟨[c], rfl, Reach.move ?_⟩
    rw [hfirst]
    exact hletter c hc fun h => hnull (by rw [h]; exact List.mem_cons_self)

theorem rest_of_map {β σ τ : Type*} {o : Option (β × σ)} {l rest : τ} {out : β} {s' : σ}
    (h : (o.map fun r => (r.1, l, r.2)) = some (out, rest, s')) : rest = l := by
  obtain ⟨r, _, heq⟩ := Option.map_eq_some_iff.mp h
  exact (congrArg (fun t => t.2.1) heq).symm

theorem vsprintf_follows : Follows (vsprintfStep mem) vsprintfCursor .loop := by
  refine follows_of_escapes vsprintfWord_nil (fun a h₁ h₂ => by simp [vsprintfCursor, h₁, h₂])
    (fun m a hm hmax _ => vsprintfCursor_escape hm hmax) ?_ ?_ ?_ ?_
  · intro c l s out rest s' hc hstep
    rw [vsprintfStep, if_pos hc] at hstep
    exact rest_of_map hstep
  · rintro m a l s out rest s' ⟨mods, rfl⟩ hmax hstep
    by_cases hpercent : mods.Bare → a ≠ '%'
    · rw [vsprintfStep_escape (endedBy_of_maximal hmax) hpercent] at hstep
      exact rest_of_map hstep
    · -- `%%`
      obtain ⟨rfl, rfl⟩ := bare_of_percent hpercent
      have hcopied : ((putChar '%' s).map fun r => (r.1, l, r.2)) = some (out, rest, s') := hstep
      exact rest_of_map hcopied
  · rintro m s ⟨mods, rfl⟩ _
    exact vsprintfStep_cut mods s
  · intro s out rest s' hstep
    exact absurd hstep (Option.some_ne_none _).symm

theorem lengthModifier_word {w : List Char} {a : Char} (hw : w ∈ lengthWords)
    (hmax : w ++ [a] ∉ lengthWords) (rest : List Char) :
    (lengthModifier (w ++ a :: rest)).2 = a :: rest := by
  simp only [lengthWords, List.mem_cons, List.not_mem_nil, or_false] at hw
  obtain rfl | rfl | rfl | rfl := hw
  · have hl : a ≠ 'l' := by
      rintro rfl
      exact hmax (by decide)
    have hL : a ≠ 'L' := by
      rintro rfl
      exact hmax (by decide)
    show (lengthModifier (a :: rest)).2 = _
    unfold lengthModifier
    split <;> simp_all
  · have hl : a ≠ 'l' := by
      rintro rfl
      exact hmax (by decide)
    show (lengthModifier ('l' :: a :: rest)).2 = _
    unfold lengthModifier
    split <;> simp_all
  · rfl
  · rfl

theorem lengthModifier_end {w : List Char} (hw : w ∈ lengthWords) : (lengthModifier w).2 = [] := by
  simp only [lengthWords, List.mem_cons, List.not_mem_nil, or_false] at hw
  obtain rfl | rfl | rfl | rfl := hw <;> rfl

theorem printfStep_escape {digits : List (Fin 10)} {w : List Char} {a : Char}
    (hw : w ∈ lengthWords) (hdigit : w = [] → ¬ IsDigit a) (hlonger : w ++ [a] ∉ lengthWords)
    (rest : List Char) (args : List Word) :
    printfStep mem '%' (digitChars digits ++ w ++ a :: rest) args =
      (printfConversion mem (flagged digits).1 (widthOf digits) a args).map
        fun r => (r.1, rest, r.2) := by
  obtain ⟨e, l, heq, he⟩ : ∃ e l, w ++ a :: rest = e :: l ∧ ¬ IsDigit e := by
    have hhead := notDigit_of_mem_lengthWords hw hdigit
    cases w with
    | nil => exact ⟨a, rest, rfl, hdigit rfl⟩
    | cons b w => exact ⟨b, w ++ a :: rest, rfl, hhead b rfl⟩
  have hlen := lengthModifier_word hw hlonger rest
  rw [List.append_assoc]
  rw [heq] at hlen ⊢
  simp only [printfStep, ne_eq, not_true, if_false, flag_digits he, widthLoop_digits he, hlen]
  rfl

theorem printfStep_cut {digits : List (Fin 10)} {w : List Char} (hw : w ∈ lengthWords)
    (args : List Word) : printfStep mem '%' (digitChars digits ++ w) args = none := by
  have hlen := lengthModifier_end hw
  cases w with
  | nil =>
    rw [List.append_nil]
    simp only [printfStep, ne_eq, not_true, if_false, flag_end, widthLoop_end, hlen]
  | cons e l =>
    have he : ¬ IsDigit e :=
      notDigit_of_mem_lengthWords hw (fun h => absurd h (List.cons_ne_nil _ _)) (a := e) e rfl
    simp only [printfStep, ne_eq, not_true, if_false, flag_digits he, widthLoop_digits he, hlen]

theorem printf_follows : Follows (printfStep mem) printfCursor .loop := by
  refine follows_of_escapes printfWord_nil (fun a h₁ h₂ => by simp [printfCursor, h₁, h₂])
    (fun m a hm hmax _ => printfCursor_escape hm hmax) ?_ ?_ ?_ ?_
  · intro c l s out rest s' hc hstep
    rw [printfStep, if_pos hc] at hstep
    exact (congrArg (fun t => t.2.1) (Option.some.inj hstep)).symm
  · rintro m a l s out rest s' ⟨digits, w, hw, rfl⟩ hmax hstep
    obtain ⟨hdigit, hlonger⟩ := printfWord_stop hmax
    rw [printfStep_escape hw hdigit hlonger] at hstep
    exact rest_of_map hstep
  · rintro m s ⟨digits, w, hw, rfl⟩ _
    exact printfStep_cut hw s
  · intro s out rest s' hstep
    exact absurd hstep (Option.some_ne_none _).symm

theorem serial_follows : Follows (serialStep mem) serialCursor .loop := by
  refine follows_of_escapes lengthWord_nil (fun a h₁ h₂ => by simp [serialCursor, h₁, h₂])
    (fun m a hm hmax ha => serialCursor_escape hm hmax fun _ => ha) ?_ ?_ ?_ ?_
  · intro c l s out rest s' hc hstep
    rw [serialStep, if_neg fun h => hc h.1] at hstep
    exact (congrArg (fun t => t.2.1) (Option.some.inj hstep)).symm
  · intro m a l s out rest s' hm hmax hstep
    rw [serialStep, if_pos ⟨rfl, by simp⟩] at hstep
    simp only [lengthModifier_word hm hmax] at hstep
    exact rest_of_map hstep
  · intro m s hm hne
    rw [serialStep, if_pos ⟨rfl, hne⟩]
    simp only [lengthModifier_end hm]
  · intro s out rest s' hstep
    refine ⟨(congrArg (fun t => t.2.1) (Option.some.inj hstep)).symm, fun input i hstands => ?_⟩
    have hpercent : input i = '%' := hstands.head
    have hend : input (i + 1) = '\x00' := hstands.tail.head
    have hnext : Reach serialCursor input (.loop, i) (.next, i + 1) :=
      Reach.move (by rw [hpercent]; rfl)
    exact hnext.trans (Reach.stay (by rw [hend]; rfl))

end Follows

section Bounds

variable {fmt : Nat → Char} {l : List Char}

/-- **The printers stay inside a format if and only if no escape is cut off at its end.** -/
theorem format_bounded_iff (hl : StandsAt fmt 0 (l ++ ['\x00'])) (hnull : '\x00' ∉ l) :
    (Bounded printfCursor fmt l.length (.loop, 0) ↔ Complete '%' PrintfWord l) ∧
      (Bounded vsprintfCursor fmt l.length (.loop, 0) ↔ Complete '%' VsprintfWord l) ∧
      (Bounded serialCursor fmt l.length (.loop, 0) ↔ SerialComplete l) :=
  ⟨printf_bounded_iff hl hnull, vsprintf_bounded_iff hl hnull, serial_bounded_iff hl hnull⟩

end Bounds

/-- `%l`, and null characters behind it. -/
def exampleCutOff : Nat → Char
  | 0 => '%'
  | 1 => 'l'
  | _ => '\x00'

theorem exampleCutOff_stands : StandsAt exampleCutOff 0 ("%l".toList ++ ['\x00']) := by
  intro k hk
  match k, hk with
  | 0, _ => rfl
  | 1, _ => rfl
  | 2, _ => rfl

theorem format_bounded_exampleCutOff :
    (Bounded printfCursor exampleCutOff 2 (.loop, 0) ↔ Complete '%' PrintfWord "%l".toList) ∧
      (Bounded vsprintfCursor exampleCutOff 2 (.loop, 0) ↔
        Complete '%' VsprintfWord "%l".toList) ∧
      (Bounded serialCursor exampleCutOff 2 (.loop, 0) ↔ SerialComplete "%l".toList) :=
  format_bounded_iff exampleCutOff_stands (by decide)

/-- All three read behind the null character. -/
theorem exampleCutOff_not_bounded :
    StandsAt exampleCutOff 0 ("%l".toList ++ ['\x00']) ∧ '\x00' ∉ "%l".toList ∧
      ¬ Bounded printfCursor exampleCutOff "%l".toList.length (.loop, 0) ∧
      ¬ Bounded vsprintfCursor exampleCutOff "%l".toList.length (.loop, 0) ∧
      ¬ Bounded serialCursor exampleCutOff "%l".toList.length (.loop, 0) := by
  refine ⟨exampleCutOff_stands, by decide, fun h => ?_, fun h => ?_, fun h => ?_⟩
  · have hreach : Reach printfCursor exampleCutOff (.loop, 0) (.loop, 3) := by
      have hflag : Reach printfCursor exampleCutOff (.loop, 0) (.flag, 1) := Reach.move rfl
      have hwidth : Reach printfCursor exampleCutOff (.flag, 1) (.width, 1) := Reach.stay rfl
      have hlength : Reach printfCursor exampleCutOff (.width, 1) (.length, 1) := Reach.stay rfl
      have hsecond : Reach printfCursor exampleCutOff (.length, 1) (.secondL, 2) := Reach.move rfl
      have hlast : Reach printfCursor exampleCutOff (.secondL, 2) (.conversion, 2) := Reach.stay rfl
      exact ((((hflag.trans hwidth).trans hlength).trans hsecond).trans hlast).trans (Reach.move rfl)
    exact absurd (h _ hreach) (by decide)
  · have hreach : Reach vsprintfCursor exampleCutOff (.loop, 0) (.loop, 3) := by
      have hpercent : Reach vsprintfCursor exampleCutOff (.loop, 0) (.percent, 1) := Reach.move rfl
      have hflag : Reach vsprintfCursor exampleCutOff (.percent, 1) (.flag, 1) := Reach.stay rfl
      have hwidth : Reach vsprintfCursor exampleCutOff (.flag, 1) (.width, 1) := Reach.stay rfl
      have hlength : Reach vsprintfCursor exampleCutOff (.width, 1) (.length, 1) := Reach.stay rfl
      have hsecond : Reach vsprintfCursor exampleCutOff (.length, 1) (.secondL, 2) := Reach.move rfl
      have hlast : Reach vsprintfCursor exampleCutOff (.secondL, 2) (.conversion, 2) :=
        Reach.stay rfl
      exact (((((hpercent.trans hflag).trans hwidth).trans hlength).trans hsecond).trans
        hlast).trans (Reach.move rfl)
    exact absurd (h _ hreach) (by decide)
  · have hreach : Reach serialCursor exampleCutOff (.loop, 0) (.loop, 3) := by
      have hnext : Reach serialCursor exampleCutOff (.loop, 0) (.next, 1) := Reach.move rfl
      have hlength : Reach serialCursor exampleCutOff (.next, 1) (.length, 1) := Reach.stay rfl
      have hsecond : Reach serialCursor exampleCutOff (.length, 1) (.secondL, 2) := Reach.move rfl
      have hlast : Reach serialCursor exampleCutOff (.secondL, 2) (.conversion, 2) := Reach.stay rfl
      exact ((hnext.trans hlength).trans hsecond).trans (hlast.trans (Reach.move rfl))
    exact absurd (h _ hreach) (by decide)

end AncoreOS.Tools
