import AncoreOS.Klibc.Stdio

/-!
# `strtol`

A string is the list of the characters before its null character, and `strtol` returns the
number together with what is left of the string, which is where `*endptr` points to.

The number is read in three steps.  White space and the sign go first, then the base is settled
and a `0x` is skipped, and then the digits are read up to the first character that is none.  A
`0x` is skipped whether or not a digit follows, so a `0` in front of an `x` that belongs to
something else is not read as a number (`strtol_reads_iff`).
-/

namespace AncoreOS.Klibc

open ByteMemory

/-! ### The code -/

def strtolSpace (c : Char) : Bool := c = ' ' || c = '\t' || c = '\n'

/-- The sign, and what follows it. -/
def strtolSign : List Char → Bool × List Char
  | '-' :: str => (true, str)
  | '+' :: str => (false, str)
  | str => (false, str)

/-- The base, and what follows a `0x`, or the `0` of an octal number. -/
def strtolBase (base : Int) (str : List Char) : Int × List Char :=
  if base = 0 then
    match str with
    | '0' :: 'x' :: str => (16, str)
    | '0' :: 'X' :: str => (16, str)
    | '0' :: str => (8, str)
    | str => (10, str)
  else if base = 16 then
    match str with
    | '0' :: 'x' :: str => (16, str)
    | '0' :: 'X' :: str => (16, str)
    | str => (16, str)
  else (base, str)

def strtolDigit (c : Char) : Option Nat :=
  if '0' ≤ c ∧ c ≤ '9' then some (c.toNat - 48)
  else if 'a' ≤ c ∧ c ≤ 'z' then some (c.toNat - 97 + 10)
  else if 'A' ≤ c ∧ c ≤ 'Z' then some (c.toNat - 65 + 10)
  else none

def strtolLoop (base : Int) (result : Word) : List Char → Word × List Char
  | [] => (result, [])
  | c :: str =>
    match strtolDigit c with
    | none => (result, c :: str)
    | some digit =>
      if base ≤ digit then (result, c :: str)
      else strtolLoop base (result * BitVec.ofInt 64 base + BitVec.ofNat 64 digit) str

def strtol (str : List Char) (base : Int) : Word × List Char :=
  let (negative, str) := strtolSign (str.dropWhile strtolSpace)
  let (base, str) := strtolBase base str
  let (result, str) := strtolLoop base 0 str
  (if negative then -result else result, str)

/-! ### Digits -/

/-- The character for a digit, with a capital letter. -/
def upperDigitOf (rem : Nat) : Char :=
  if 9 < rem then Char.ofNat (rem - 10 + 65) else Char.ofNat (rem + 48)

/-- A character stands for a digit, in either case. -/
def Spells (d : Nat) (c : Char) : Prop := c = digitOf d ∨ c = upperDigitOf d

/-- There is no digit of the base in front. -/
def NoDigit (base : Nat) (str : List Char) : Prop :=
  ∀ c ∈ str.head?, ∀ d < base, ¬ Spells d c

theorem strtolDigit_of_spells {d : Nat} {c : Char} (hd : d < 36) (h : Spells d c) :
    strtolDigit c = some d := by
  have hall : ∀ d < 36, strtolDigit (digitOf d) = some d ∧ strtolDigit (upperDigitOf d) = some d := by
    decide
  rcases h with rfl | rfl
  · exact (hall d hd).1
  · exact (hall d hd).2

theorem spells_of_strtolDigit {d : Nat} {c : Char} (h : strtolDigit c = some d) :
    d < 36 ∧ Spells d c := by
  have hascii : ∀ n < 128, ∀ d ∈ strtolDigit (Char.ofNat n), d < 36 ∧
      (Char.ofNat n = digitOf d ∨ Char.ofNat n = upperDigitOf d) := by
    decide
  have hlt : c.toNat < 128 := by
    have hle : ∀ e : Char, e.toNat < 128 → c ≤ e → c.toNat < 128 := by
      intro e he hce
      have : c.toNat ≤ e.toNat := hce
      omega
    unfold strtolDigit at h
    split_ifs at h with h₁ h₂ h₃
    · exact hle '9' (by decide) h₁.2
    · exact hle 'z' (by decide) h₂.2
    · exact hle 'Z' (by decide) h₃.2
  have hc := hascii c.toNat hlt
  rw [Char.ofNat_toNat] at hc
  exact hc d h

theorem NoDigit.stop {base : Nat} {c : Char} {str : List Char} (h : NoDigit base (c :: str)) :
    ∀ d, strtolDigit c = some d → base ≤ d := by
  intro d hd
  by_contra hlt
  exact h c rfl d (by omega) (spells_of_strtolDigit hd).2

theorem noDigit_of_le {base k : Nat} {c : Char} {str : List Char} (h : strtolDigit c = some k)
    (hle : base ≤ k) : NoDigit base (c :: str) := by
  rintro e ⟨⟩ d hd hspell
  have hk := (spells_of_strtolDigit h).1
  rw [strtolDigit_of_spells (by omega) hspell] at h
  have := Option.some.inj h
  omega

/-- The digits of a number, and the number itself. -/
theorem strtolLoop_digits {base : Nat} (hbase : base ≤ 36) {ds : List Nat} {str rest : List Char}
    (hds : ∀ d ∈ ds, d < base) (hstr : List.Forall₂ Spells ds str) (hrest : NoDigit base rest)
    (n : Nat) :
    strtolLoop base (BitVec.ofNat 64 n) (str ++ rest) =
      (BitVec.ofNat 64 (ds.foldl (fun n d => n * base + d) n), rest) := by
  induction hstr generalizing n with
  | nil =>
    cases rest with
    | nil => rfl
    | cons c rest =>
      rw [List.nil_append, strtolLoop]
      split
      · rfl
      · rename_i d hd
        rw [if_pos (by exact_mod_cast hrest.stop d hd)]
        rfl
  | @cons d c ds str hdc _ ih =>
    have hd := hds d List.mem_cons_self
    have hnext : BitVec.ofNat 64 n * BitVec.ofInt 64 base + BitVec.ofNat 64 d =
        BitVec.ofNat 64 (n * base + d) := by
      rw [BitVec.ofInt_natCast, BitVec.ofNat_add, BitVec.ofNat_mul]
    rw [List.cons_append, strtolLoop, strtolDigit_of_spells (by omega) hdc]
    simp only
    rw [if_neg (by omega), hnext, ih (fun d hd => hds d (List.mem_cons_of_mem _ hd))]
    rfl

theorem foldl_digits (base n : Nat) (ds : List Nat) :
    ds.foldl (fun n d => n * base + d) n = n * base ^ ds.length + Nat.ofDigits base ds.reverse := by
  induction ds generalizing n with
  | nil => simp
  | cons d ds ih =>
    rw [List.foldl_cons, ih, List.reverse_cons, Nat.ofDigits_append, List.length_reverse,
      Nat.ofDigits_singleton, List.length_cons, Nat.pow_succ]
    ring

/-- The number that digits stand for, first digit first. -/
def valueOf (base : Nat) (ds : List Nat) : Nat := Nat.ofDigits base ds.reverse

theorem strtolLoop_valueOf {base : Nat} (hbase : base ≤ 36) {ds : List Nat} {str rest : List Char}
    (hds : ∀ d ∈ ds, d < base) (hstr : List.Forall₂ Spells ds str) (hrest : NoDigit base rest) :
    strtolLoop base 0 (str ++ rest) = (BitVec.ofNat 64 (valueOf base ds), rest) := by
  have h := strtolLoop_digits hbase hds hstr hrest 0
  rwa [foldl_digits, Nat.zero_mul, Nat.zero_add] at h

theorem strtolLoop_noDigit {base : Nat} (hbase : base ≤ 36) {rest : List Char}
    (hrest : NoDigit base rest) : strtolLoop base 0 rest = (0, rest) :=
  strtolLoop_valueOf hbase (fun _ hd => absurd hd List.not_mem_nil) .nil hrest

/-! ### Numbers -/

inductive Sign
  | none
  | plus
  | minus
  deriving DecidableEq, Repr

def Sign.chars : Sign → List Char
  | .none => []
  | .plus => ['+']
  | .minus => ['-']

def Sign.apply : Sign → Nat → Int
  | .minus, n => -n
  | _, n => n

inductive HexPrefix
  | none
  | lower
  | upper
  deriving DecidableEq, Repr

def HexPrefix.chars : HexPrefix → List Char
  | .none => []
  | .lower => ['0', 'x']
  | .upper => ['0', 'X']

/-- The base in which the digits are to be read.  The `0` of an octal number is a digit of it. -/
inductive Resolves : Nat → HexPrefix → List Nat → Nat → Prop
  | given {base : Nat} {ds : List Nat} (h₁ : 2 ≤ base) (h₂ : base ≤ 36) :
      Resolves base .none ds base
  | hexGiven {pre : HexPrefix} {ds : List Nat} (hpre : pre ≠ .none) : Resolves 16 pre ds 16
  | hex {pre : HexPrefix} {ds : List Nat} (hpre : pre ≠ .none) : Resolves 0 pre ds 16
  | octal {ds : List Nat} : Resolves 0 .none (0 :: ds) 8
  | decimal {d : Nat} {ds : List Nat} (hd : d ≠ 0) : Resolves 0 .none (d :: ds) 10

theorem Resolves.le {base resolved : Nat} {pre : HexPrefix} {ds : List Nat}
    (h : Resolves base pre ds resolved) : resolved ≤ 36 := by
  cases h <;> omega

theorem Resolves.le_sixteen {base resolved : Nat} {pre : HexPrefix} {ds : List Nat}
    (h : Resolves base pre ds resolved) (hbase : base = 0 ∨ base = 16) : resolved ≤ 16 := by
  cases h <;> omega

theorem skip_spaces {spaces : List Char} (h : ∀ c ∈ spaces, c = ' ' ∨ c = '\t' ∨ c = '\n')
    {c : Char} (hc : strtolSpace c = false) (s : List Char) :
    (spaces ++ c :: s).dropWhile strtolSpace = c :: s := by
  induction spaces with
  | nil => rw [List.nil_append, List.dropWhile_cons, hc]; rfl
  | cons a spaces ih =>
    have ha : strtolSpace a = true := by
      rcases h a List.mem_cons_self with rfl | rfl | rfl <;> rfl
    rw [List.cons_append, List.dropWhile_cons, if_pos ha]
    exact ih fun c hc => h c (List.mem_cons_of_mem _ hc)

theorem strtolSign_chars {spaces : List Char} (h : ∀ c ∈ spaces, c = ' ' ∨ c = '\t' ∨ c = '\n')
    (sign : Sign) {c : Char} (hdigit : (strtolDigit c).isSome) (s : List Char) :
    strtolSign ((spaces ++ (sign.chars ++ c :: s)).dropWhile strtolSpace) =
      (decide (sign = .minus), c :: s) := by
  cases sign with
  | none =>
    have hspace : strtolSpace c = false := by
      by_contra h
      rw [Bool.not_eq_false] at h
      simp only [strtolSpace, Bool.or_eq_true, decide_eq_true_eq] at h
      rcases h with (rfl | rfl) | rfl <;> exact absurd hdigit (by decide)
    have hminus : c ≠ '-' := by
      rintro rfl
      exact absurd hdigit (by decide)
    have hplus : c ≠ '+' := by
      rintro rfl
      exact absurd hdigit (by decide)
    rw [Sign.chars, List.nil_append, skip_spaces h hspace]
    unfold strtolSign
    split <;> simp_all
  | plus =>
    rw [Sign.chars, List.cons_append, skip_spaces h rfl]
    rfl
  | minus =>
    rw [Sign.chars, List.cons_append, skip_spaces h rfl]
    rfl

theorem spells_zero {c : Char} (h : Spells 0 c) : c = '0' := h.elim id id

theorem spells_ne_zero {d : Nat} {c : Char} (h : Spells d c) (hd : d < 36) (hne : d ≠ 0) :
    c ≠ '0' := by
  rintro rfl
  have h₁ := strtolDigit_of_spells hd h
  have h₂ : strtolDigit '0' = some 0 := rfl
  rw [h₂] at h₁
  exact hne (Option.some.inj h₁).symm

theorem strtolBase_octal {str : List Char}
    (h : ¬ ∃ s, '0' :: str = '0' :: 'x' :: s ∨ '0' :: str = '0' :: 'X' :: s) :
    strtolBase 0 ('0' :: str) = (8, str) := by
  unfold strtolBase
  rw [if_pos rfl]
  split <;> simp_all

theorem strtolBase_decimal {c : Char} (hc : c ≠ '0') (str : List Char) :
    strtolBase 0 (c :: str) = (10, c :: str) := by
  unfold strtolBase
  rw [if_pos rfl]
  split <;> simp_all

theorem strtolBase_hex {str : List Char}
    (h : ¬ ∃ s, str = '0' :: 'x' :: s ∨ str = '0' :: 'X' :: s) : strtolBase 16 str = (16, str) := by
  unfold strtolBase
  rw [if_neg (by decide), if_pos rfl]
  split <;> simp_all

theorem strtolBase_other {base : Int} (h : base ≠ 0) (h' : base ≠ 16) (str : List Char) :
    strtolBase base str = (base, str) := by
  unfold strtolBase
  rw [if_neg h, if_neg h']

/-- Behind the prefix are digits with the value of the number, in the base to be read. -/
theorem strtolBase_run {base resolved : Nat} {pre : HexPrefix} {values : List Nat}
    {digits : List Char} (rest : List Char) (hresolves : Resolves base pre values resolved)
    (hlt : ∀ d ∈ values, d < resolved) (hspelled : List.Forall₂ Spells values digits)
    (hlone : pre = .none → base = 0 ∨ base = 16 →
      ¬ ∃ s, digits ++ rest = '0' :: 'x' :: s ∨ digits ++ rest = '0' :: 'X' :: s) :
    ∃ ds cs, strtolBase base (pre.chars ++ (digits ++ rest)) = ((resolved : Int), cs ++ rest) ∧
      (∀ d ∈ ds, d < resolved) ∧ List.Forall₂ Spells ds cs ∧
        valueOf resolved ds = valueOf resolved values := by
  cases hresolves with
  | given h₁ h₂ =>
    refine ⟨values, digits, ?_, hlt, hspelled, rfl⟩
    rw [HexPrefix.chars, List.nil_append]
    by_cases h16 : base = 16
    · subst h16
      exact strtolBase_hex (hlone rfl (Or.inr rfl))
    · exact strtolBase_other (by omega) (by omega) _
  | hexGiven hne =>
    refine ⟨values, digits, ?_, hlt, hspelled, rfl⟩
    cases pre with
    | none => exact absurd rfl hne
    | lower => rfl
    | upper => rfl
  | hex hne =>
    refine ⟨values, digits, ?_, hlt, hspelled, rfl⟩
    cases pre with
    | none => exact absurd rfl hne
    | lower => rfl
    | upper => rfl
  | @octal ds =>
    cases hspelled with
    | @cons _ c _ cs hc hcs =>
      obtain rfl := spells_zero hc
      refine ⟨ds, cs, ?_, fun d hd => hlt d (List.mem_cons_of_mem _ hd), hcs, ?_⟩
      · exact strtolBase_octal (hlone rfl (Or.inl rfl))
      · rw [valueOf, valueOf, List.reverse_cons, Nat.ofDigits_append]
        simp
  | @decimal d ds hne =>
    cases hspelled with
    | @cons _ c _ cs hc hcs =>
      have hd := hlt d List.mem_cons_self
      have hzero : c ≠ '0' := spells_ne_zero hc (by omega) hne
      exact ⟨d :: ds, c :: cs, strtolBase_decimal hzero _, hlt, .cons hc hcs, rfl⟩

theorem strtolBase_digits {base resolved : Nat} {pre : HexPrefix} {values : List Nat}
    {digits rest : List Char} (hresolves : Resolves base pre values resolved)
    (hlt : ∀ d ∈ values, d < resolved) (hspelled : List.Forall₂ Spells values digits)
    (hmaximal : NoDigit resolved rest)
    (hlone : pre = .none → base = 0 ∨ base = 16 →
      ¬ ∃ s, digits ++ rest = '0' :: 'x' :: s ∨ digits ++ rest = '0' :: 'X' :: s) :
    ∃ b s, strtolBase base (pre.chars ++ (digits ++ rest)) = (b, s) ∧
      strtolLoop b 0 s = (BitVec.ofNat 64 (valueOf resolved values), rest) := by
  obtain ⟨ds, cs, hskip, hds, hcs, hvalue⟩ := strtolBase_run rest hresolves hlt hspelled hlone
  refine ⟨_, _, hskip, ?_⟩
  rw [← hvalue]
  exact strtolLoop_valueOf hresolves.le hds hcs hmaximal

/-- A string with a number in front: white space, a sign, a `0x`, the digits, and anything. -/
structure NumberText (base : Nat) (str : List Char) where
  spaces : List Char
  sign : Sign
  pre : HexPrefix
  digits : List Char
  rest : List Char
  resolved : Nat
  values : List Nat
  str_eq : str = spaces ++ (sign.chars ++ (pre.chars ++ (digits ++ rest)))
  isSpace : ∀ c ∈ spaces, c = ' ' ∨ c = '\t' ∨ c = '\n'
  resolves : Resolves base pre values resolved
  nonempty : values ≠ []
  lt_base : ∀ d ∈ values, d < resolved
  spelled : List.Forall₂ Spells values digits
  /-- The digits go on as far as they can. -/
  maximal : NoDigit resolved rest
  /-- A `0x` is part of the number when a digit follows it. -/
  taken : pre = .none → base = 0 ∨ base = 16 →
    ∀ s, digits ++ rest = '0' :: 'x' :: s ∨ digits ++ rest = '0' :: 'X' :: s → NoDigit 16 s

/-- Without white space. -/
theorem isSpace_nil : ∀ c ∈ ([] : List Char), c = ' ' ∨ c = '\t' ∨ c = '\n' := by simp

namespace NumberText

variable {base : Nat} {str : List Char} (t : NumberText base str)

/-- What follows the sign. -/
def body : List Char := t.pre.chars ++ (t.digits ++ t.rest)

/-- A `0x` that is not part of the number, where one could be. -/
def LonePrefix : Prop :=
  t.pre = .none ∧ (base = 0 ∨ base = 16) ∧
    ∃ s, t.digits ++ t.rest = '0' :: 'x' :: s ∨ t.digits ++ t.rest = '0' :: 'X' :: s

theorem exists_digits : ∃ d ds c cs, t.values = d :: ds ∧ t.digits = c :: cs ∧ d < t.resolved ∧
    Spells d c ∧ List.Forall₂ Spells ds cs := by
  have hspelled := t.spelled
  cases hvalues : t.values with
  | nil => exact absurd hvalues t.nonempty
  | cons d ds =>
    rw [hvalues] at hspelled
    cases hdigits : t.digits with
    | nil =>
      rw [hdigits] at hspelled
      cases hspelled
    | cons c cs =>
      rw [hdigits] at hspelled
      obtain ⟨hd, hds⟩ := List.forall₂_cons.mp hspelled
      exact ⟨d, ds, c, cs, rfl, rfl, t.lt_base d (hvalues ▸ List.mem_cons_self), hd, hds⟩

/-- The body starts with a digit. -/
theorem body_head : ∃ c s, t.body = c :: s ∧ (strtolDigit c).isSome := by
  obtain ⟨d, ds, c, cs, _, hdigits, hd, hspell, _⟩ := t.exists_digits
  have hle := t.resolves.le
  unfold body
  cases hpre : t.pre with
  | none =>
    refine ⟨c, cs ++ t.rest, by rw [hdigits]; rfl, ?_⟩
    rw [strtolDigit_of_spells (by omega) hspell]
    rfl
  | lower => exact ⟨'0', _, rfl, rfl⟩
  | upper => exact ⟨'0', _, rfl, rfl⟩

/-- White space and the sign. -/
theorem sign_eq : strtolSign (str.dropWhile strtolSpace) = (decide (t.sign = .minus), t.body) := by
  obtain ⟨c, s, hbody, hdigit⟩ := t.body_head
  have h := strtolSign_chars t.isSpace t.sign hdigit s
  rw [← hbody] at h
  rw [← h]
  exact congrArg (fun s => strtolSign (s.dropWhile strtolSpace)) t.str_eq

/-- The digits of the number are read when no other `0x` is skipped. -/
theorem digits_eq (hlone : ¬ t.LonePrefix) :
    ∃ b s, strtolBase base t.body = (b, s) ∧
      strtolLoop b 0 s = (BitVec.ofNat 64 (valueOf t.resolved t.values), t.rest) :=
  strtolBase_digits t.resolves t.lt_base t.spelled t.maximal fun hpre hbase hs =>
    hlone ⟨hpre, hbase, hs⟩

theorem strtol_eq (hlone : ¬ t.LonePrefix) :
    strtol str base = (if t.sign = .minus then -BitVec.ofNat 64 (valueOf t.resolved t.values)
      else BitVec.ofNat 64 (valueOf t.resolved t.values), t.rest) := by
  obtain ⟨b, s, hskip, hloop⟩ := t.digits_eq hlone
  simp only [strtol, t.sign_eq, hskip, hloop, decide_eq_true_eq]

/-- Of a `0x` that is not part of the number, the `0` is all there is of it, and `strtol` skips
both characters. -/
theorem lone_digits (hlone : t.LonePrefix) : t.values = [0] ∧
    ∃ x s, t.rest = x :: s ∧ NoDigit 16 s ∧ strtolBase base t.body = (16, s) := by
  obtain ⟨hpre, hbase, s, hs⟩ := hlone
  have hnone := t.taken hpre hbase s hs
  have hskip : strtolBase base t.body = (16, s) := by
    have hbody : t.body = t.digits ++ t.rest := by
      rw [body, hpre]
      rfl
    rw [hbody]
    rcases hbase with rfl | rfl <;> rcases hs with hs | hs <;> rw [hs] <;> rfl
  obtain ⟨d, ds, c, cs, hvalues, hdigits, hd, hspell, hrest⟩ := t.exists_digits
  have hle := t.resolves.le_sixteen hbase
  rw [hdigits, List.cons_append] at hs
  obtain ⟨rfl, x, hx, htail⟩ : c = '0' ∧ ∃ x, strtolDigit x = some 33 ∧ cs ++ t.rest = x :: s := by
    rcases hs with hs | hs
    · exact ⟨(List.cons.inj hs).1, 'x', rfl, (List.cons.inj hs).2⟩
    · exact ⟨(List.cons.inj hs).1, 'X', rfl, (List.cons.inj hs).2⟩
  obtain rfl : d = 0 := by
    have := strtolDigit_of_spells (by omega) hspell
    exact (Option.some.inj this).symm
  cases hrest with
  | nil => exact ⟨hvalues, x, s, htail, hnone, hskip⟩
  | @cons e a ds cs he hes =>
    -- The `x` is not a digit of the base.
    have hlt := t.lt_base e (by rw [hvalues]; simp)
    rw [List.cons_append] at htail
    rw [(List.cons.inj htail).1] at he
    rw [strtolDigit_of_spells (by omega) he] at hx
    have := Option.some.inj hx
    omega

/-- A `0x` that is not part of the number is skipped all the same. -/
theorem lone_eq (hlone : t.LonePrefix) : ∃ s, s ≠ t.rest ∧ strtolBase base t.body = (16, s) ∧
    strtolLoop 16 0 s = (0, s) := by
  obtain ⟨-, x, s, hrest, hnone, hskip⟩ := t.lone_digits hlone
  exact ⟨s, hrest ▸ List.ne_cons_self, hskip, strtolLoop_noDigit (by decide) hnone⟩

/-- **A number is read as what it stands for, and `*endptr` points behind it, unless `strtol` skips
a `0x` that has no digit behind it.** -/
theorem strtol_reads_iff (h : valueOf t.resolved t.values ≤ 2 ^ 63 - 1) :
    ((strtol str base).1.toInt = t.sign.apply (valueOf t.resolved t.values) ∧
      (strtol str base).2 = t.rest) ↔ ¬ t.LonePrefix := by
  constructor
  · rintro ⟨-, hend⟩ hlone
    obtain ⟨s, hne, hskip, hloop⟩ := t.lone_eq hlone
    simp only [strtol, t.sign_eq, hskip, hloop] at hend
    exact hne hend
  · intro hlone
    rw [t.strtol_eq hlone]
    refine ⟨?_, rfl⟩
    have hpos : (BitVec.ofNat 64 (valueOf t.resolved t.values)).toInt =
        valueOf t.resolved t.values := by
      rw [BitVec.toInt_eq_toNat_of_lt, BitVec.toNat_ofNat, Nat.mod_eq_of_lt (by omega)]
      rw [BitVec.toNat_ofNat, Nat.mod_eq_of_lt (by omega)]
      omega
    cases t.sign with
    | none => exact hpos
    | plus => exact hpos
    | minus =>
      rw [if_pos rfl, BitVec.toInt_neg, hpos]
      exact Int.bmod_eq_of_le (by omega) (by omega)

end NumberText

/-- `" -0x1fg"`. -/
def exampleHex : NumberText 0 " -0x1fg".toList where
  spaces := [' ']
  sign := .minus
  pre := .lower
  digits := ['1', 'f']
  rest := ['g']
  resolved := 16
  values := [1, 15]
  str_eq := rfl
  isSpace := by simp
  resolves := .hex (by decide)
  nonempty := by decide
  lt_base := by decide
  spelled := .cons (Or.inl rfl) (.cons (Or.inl rfl) .nil)
  maximal := noDigit_of_le (k := 16) rfl (by decide)
  taken := fun hpre => absurd hpre (by decide)

theorem strtol_reads_exampleHex : valueOf exampleHex.resolved exampleHex.values ≤ 2 ^ 63 - 1 ∧
    ((strtol " -0x1fg".toList (0 : Nat)).1.toInt =
        exampleHex.sign.apply (valueOf exampleHex.resolved exampleHex.values) ∧
      (strtol " -0x1fg".toList (0 : Nat)).2 = exampleHex.rest ↔ ¬ exampleHex.LonePrefix) :=
  ⟨by decide, exampleHex.strtol_reads_iff (by decide)⟩

/-- `"0xg"` in base 16: the number is the `0`. -/
def exampleLone : NumberText 16 "0xg".toList where
  spaces := []
  sign := .none
  pre := .none
  digits := ['0']
  rest := ['x', 'g']
  resolved := 16
  values := [0]
  str_eq := rfl
  isSpace := isSpace_nil
  resolves := .given (by decide) (by decide)
  nonempty := by decide
  lt_base := by decide
  spelled := .cons (Or.inl rfl) .nil
  maximal := noDigit_of_le (k := 33) rfl (by decide)
  taken := by
    rintro _ _ s (heq | heq)
    · obtain rfl : s = ['g'] := by simpa using heq.symm
      exact noDigit_of_le (k := 16) rfl (by decide)
    · simp at heq

/-- `*endptr` points to the `g`, not to the `x` behind the number. -/
theorem exampleLone_not_read :
    ¬ ∀ (base : Nat) (str : List Char) (t : NumberText base str),
      valueOf t.resolved t.values ≤ 2 ^ 63 - 1 →
      (strtol str base).1.toInt = t.sign.apply (valueOf t.resolved t.values) ∧
        (strtol str base).2 = t.rest := by
  intro h
  have hend := (h 16 _ exampleLone (by decide)).2
  exact absurd hend (by decide)

end AncoreOS.Klibc
