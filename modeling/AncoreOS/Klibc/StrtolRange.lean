import AncoreOS.Klibc.Atoi
import AncoreOS.Library.SignedArith

/-!
# Overflow in `strtol` and its copies

The functions again, with every operation on signed numbers checked: the difference that makes a
digit, the product and the sum of each round, and the product with the sign.  A checked function
has no result when one of these overflows, and otherwise that of the function
(`strtol_of_checked`, `decimal_of_checked`).

The digits are accumulated without the sign.  So the most negative number overflows although the
result has room for it, and the functions with an unsigned result, which call `strtol`, overflow
from `2 ^ 63` on (`Reader.exact_iff`).
-/

namespace AncoreOS.Klibc

open ByteMemory SignedArith

/-! ### The code -/

/-- A character as an `int`. -/
def charInt (c : Char) : BitVec 32 := BitVec.ofNat 32 c.toNat

def strtolDigitChecked (c : Char) : Option (Option (BitVec 32)) :=
  if '0' ≤ c ∧ c ≤ '9' then (signedSub (charInt c) 48).map some
  else if 'a' ≤ c ∧ c ≤ 'z' then ((signedSub (charInt c) 97).bind (signedAdd · 10)).map some
  else if 'A' ≤ c ∧ c ≤ 'Z' then ((signedSub (charInt c) 65).bind (signedAdd · 10)).map some
  else some none

/-- `result * base + digit`. -/
def accumulate {w : Nat} (base result : BitVec w) (digit : BitVec 32) : Option (BitVec w) :=
  (signedMul result base).bind fun product => signedAdd product (digit.signExtend w)

def strtolLoopChecked (base : Int) (result : Word) : List Char → Option (Word × List Char)
  | [] => some (result, [])
  | c :: str =>
    match strtolDigitChecked c with
    | none => none
    | some none => some (result, c :: str)
    | some (some digit) =>
      if base ≤ digit.toInt then some (result, c :: str)
      else (accumulate (BitVec.ofInt 64 base) result digit).bind fun result =>
        strtolLoopChecked base result str

/-- `sign * result`. -/
def applySign {w : Nat} (negative : Bool) (result : BitVec w) : Option (BitVec w) :=
  signedMul (if negative then -1 else 1) result

def strtolChecked (str : List Char) (base : Int) : Option (Word × List Char) :=
  let (negative, str) := strtolSign (str.dropWhile strtolSpace)
  let (base, str) := strtolBase base str
  (strtolLoopChecked base 0 str).bind fun (result, str) =>
    (applySign negative result).map fun result => (result, str)

def decimalLoopChecked {w : Nat} (result : BitVec w) : List Char → Option (BitVec w)
  | [] => some result
  | c :: str =>
    if '0' ≤ c ∧ c ≤ '9' then
      (signedSub (charInt c) 48).bind fun digit =>
        (accumulate 10 result digit).bind fun result => decimalLoopChecked result str
    else some result

def decimalChecked (w : Nat) (str : List Char) : Option (BitVec w) :=
  let (negative, str) := strtolSign (str.dropWhile strtolSpace)
  (decimalLoopChecked (0 : BitVec w) str).bind (applySign negative)

/-! ### Single operations -/

variable {w : Nat}

theorem toInt_ofNat_of_lt {n : Nat} (h : 2 * n < 2 ^ w) : (BitVec.ofNat w n).toInt = n := by
  have hmod : n % 2 ^ w = n := Nat.mod_eq_of_lt (by omega)
  rw [BitVec.toInt_eq_toNat_of_lt (by rwa [BitVec.toNat_ofNat, hmod]), BitVec.toNat_ofNat, hmod]

/-- A letter or a digit minus the first one. -/
theorem signedSub_char {c : Char} {k : Nat} (h : k ≤ c.toNat) (hc : c.toNat < 128) :
    signedSub (charInt c) (BitVec.ofNat 32 k) = some (BitVec.ofNat 32 (c.toNat - k)) := by
  rw [signedSub_eq_some_iff, charInt, toInt_ofNat_of_lt (by omega), toInt_ofNat_of_lt (by omega),
    toInt_ofNat_of_lt (by omega)]
  omega

theorem signedSub_zero {c : Char} (hc : '0' ≤ c ∧ c ≤ '9') :
    signedSub (charInt c) 48 = some (BitVec.ofNat 32 (c.toNat - 48)) := by
  have hlo : 48 ≤ c.toNat := hc.1
  have hhi : c.toNat ≤ 57 := hc.2
  exact signedSub_char hlo (by omega)

theorem signedAdd_ten {d : Nat} (h : d < 128) :
    signedAdd (BitVec.ofNat 32 d) 10 = some (BitVec.ofNat 32 (d + 10)) := by
  have hten : (10 : BitVec 32).toInt = 10 := by decide
  rw [signedAdd_eq_some_iff, hten, toInt_ofNat_of_lt (by omega), toInt_ofNat_of_lt (by omega)]
  omega

/-- The digits do not overflow. -/
theorem strtolDigitChecked_eq (c : Char) :
    strtolDigitChecked c = some ((strtolDigit c).map (BitVec.ofNat 32)) := by
  unfold strtolDigitChecked
  unfold strtolDigit
  by_cases h₁ : '0' ≤ c ∧ c ≤ '9'
  · rw [if_pos h₁, if_pos h₁]
    exact congrArg (Option.map some) (signedSub_zero h₁)
  · rw [if_neg h₁, if_neg h₁]
    by_cases h₂ : 'a' ≤ c ∧ c ≤ 'z'
    · have hlo : 97 ≤ c.toNat := h₂.1
      have hhi : c.toNat ≤ 122 := h₂.2
      have hsub : signedSub (charInt c) 97 = some (BitVec.ofNat 32 (c.toNat - 97)) :=
        signedSub_char hlo (by omega)
      rw [if_pos h₂, if_pos h₂, hsub, Option.bind_some, signedAdd_ten (by omega)]
      rfl
    · rw [if_neg h₂, if_neg h₂]
      by_cases h₃ : 'A' ≤ c ∧ c ≤ 'Z'
      · have hlo : 65 ≤ c.toNat := h₃.1
        have hhi : c.toNat ≤ 90 := h₃.2
        have hsub : signedSub (charInt c) 65 = some (BitVec.ofNat 32 (c.toNat - 65)) :=
          signedSub_char hlo (by omega)
        rw [if_pos h₃, if_pos h₃, hsub, Option.bind_some, signedAdd_ten (by omega)]
        rfl
      · rw [if_neg h₃, if_neg h₃]
        rfl

theorem signExtend_digit (hw : 32 ≤ w) {d : Nat} (hd : d < 36) :
    (BitVec.ofNat 32 d).signExtend w = BitVec.ofNat w d := by
  have hpow : 2 ^ 32 ≤ 2 ^ w := Nat.pow_le_pow_right (by decide) hw
  apply BitVec.eq_of_toInt_eq
  rw [BitVec.toInt_signExtend_of_le hw, toInt_ofNat_of_lt (by omega), toInt_ofNat_of_lt (by omega)]

theorem eq_of_accumulate {base result v : BitVec w} {digit : BitVec 32}
    (h : accumulate base result digit = some v) :
    v = result * base + digit.signExtend w := by
  obtain ⟨product, hproduct, hsum⟩ := Option.bind_eq_some_iff.mp h
  rw [eq_add_of_signedAdd hsum, eq_mul_of_signedMul hproduct]

/-- The product is below the sum, so it is the sum that overflows, if anything does. -/
theorem accumulate_eq_some_iff (hw : 32 ≤ w) {base result v : BitVec w} {b n d : Nat}
    (hbase : base.toInt = b) (hresult : result.toInt = n) (hd : d < 36) :
    accumulate base result (BitVec.ofNat 32 d) = some v ↔ v.toInt = (n * b + d : Nat) := by
  have hpow : 2 ^ 32 ≤ 2 ^ w := Nat.pow_le_pow_right (by decide) hw
  have hdigit : ((BitVec.ofNat 32 d).signExtend w).toInt = d := by
    rw [signExtend_digit hw hd, toInt_ofNat_of_lt (by omega)]
  constructor
  · intro h
    obtain ⟨product, hproduct, hsum⟩ := Option.bind_eq_some_iff.mp h
    have h₁ := signedMul_eq_some_iff.mp hproduct
    have h₂ := signedAdd_eq_some_iff.mp hsum
    rw [h₂, h₁, hbase, hresult, hdigit]
    push_cast
    rfl
  · intro h
    have hfits : Fits w (n * b + d : Nat) := h ▸ fits_toInt v
    have hproduct : Fits w (result.toInt * base.toInt) := by
      obtain ⟨hlo, hhi⟩ := hfits
      rw [hresult, hbase]
      constructor
      · have : (0 : Int) ≤ 2 ^ w := by positivity
        have : (0 : Int) ≤ (n : Int) * b := by positivity
        omega
      · push_cast at hhi
        omega
    obtain ⟨product, hmul, hval⟩ := signedMul_of_fits hproduct
    rw [accumulate, hmul, Option.bind_some, signedAdd_eq_some_iff, hdigit, hval, hbase, hresult, h]
    push_cast
    rfl

/-! ### Loops -/

/-- The value only grows. -/
theorem le_foldl_digits {base : Nat} (hbase : 0 < base) (ds : List Nat) (n : Nat) :
    n ≤ ds.foldl (fun n d => n * base + d) n := by
  rw [foldl_digits]
  have : n * 1 ≤ n * base ^ ds.length := Nat.mul_le_mul_left n (Nat.pow_pos hbase)
  omega

/-- **The rounds of the loop, one for each digit, have the value of the digits for a result when it
fits, and no result otherwise.** -/
theorem foldlM_accumulate (hw : 32 ≤ w) {base : BitVec w} {b : Nat} (hbase : base.toInt = b)
    (hb : b ≤ 36) {ds : List Nat} (hds : ∀ d ∈ ds, d < b) {result v : BitVec w} {n : Nat}
    (hresult : result.toInt = n) :
    (ds.map (BitVec.ofNat 32)).foldlM (accumulate base) result = some v ↔
      v.toInt = (ds.foldl (fun n d => n * b + d) n : Nat) := by
  induction ds generalizing result n with
  | nil =>
    rw [List.map_nil, List.foldlM_nil, List.foldl_nil, ← hresult]
    exact ⟨fun h => by rw [Option.some.inj h], fun h => by rw [BitVec.eq_of_toInt_eq h]; rfl⟩
  | cons d ds ih =>
    have hd := hds d List.mem_cons_self
    have htail : ∀ d ∈ ds, d < b := fun d hd => hds d (List.mem_cons_of_mem _ hd)
    have hround := fun v => accumulate_eq_some_iff hw (v := v) hbase hresult (by omega : d < 36)
    rw [List.map_cons, List.foldlM_cons, List.foldl_cons]
    cases hstep : accumulate base result (BitVec.ofNat 32 d) with
    | some s =>
      have hs := (hround s).mp hstep
      exact ih htail hs
    | none =>
      refine iff_of_false nofun fun h => ?_
      -- The final value is at least the one that did not fit.
      have hle := le_foldl_digits (by omega : 0 < b) ds (n * b + d)
      obtain ⟨-, hhi⟩ := fits_toInt v
      rw [h] at hhi
      have hfits : Fits w (n * b + d : Nat) := by
        have : (0 : Int) ≤ 2 ^ w := by positivity
        constructor <;> omega
      have hnone := (hround (BitVec.ofInt w (n * b + d : Nat))).mpr (toInt_ofInt_of_fits hfits)
      rw [hstep] at hnone
      cases hnone

/-- The digit that a character of a number spells is below the base. -/
theorem strtolLoopChecked_digits {base : Nat} (hbase : base ≤ 36) {ds : List Nat}
    {str rest : List Char} (hds : ∀ d ∈ ds, d < base) (hstr : List.Forall₂ Spells ds str)
    (hrest : NoDigit base rest) (result : Word) :
    strtolLoopChecked base result (str ++ rest) =
      ((ds.map (BitVec.ofNat 32)).foldlM (accumulate (BitVec.ofInt 64 base)) result).map
        fun result => (result, rest) := by
  induction hstr generalizing result with
  | nil =>
    cases rest with
    | nil => rfl
    | cons c rest =>
      rw [List.nil_append, strtolLoopChecked, strtolDigitChecked_eq]
      cases hdigit : strtolDigit c with
      | none => rfl
      | some d =>
        have hlt := (spells_of_strtolDigit hdigit).1
        have hle : (base : Int) ≤ (BitVec.ofNat 32 d).toInt := by
          rw [toInt_ofNat_of_lt (by omega)]
          exact_mod_cast hrest.stop d hdigit
        simp only [Option.map_some]
        rw [if_pos hle]
        rfl
  | @cons d c ds str hdc _ ih =>
    have hd := hds d List.mem_cons_self
    have hlt : ¬ (base : Int) ≤ (BitVec.ofNat 32 d).toInt := by
      rw [toInt_ofNat_of_lt (by omega)]
      omega
    rw [List.cons_append, strtolLoopChecked, strtolDigitChecked_eq,
      strtolDigit_of_spells (by omega) hdc, List.map_cons, List.foldlM_cons]
    simp only [Option.map_some]
    rw [if_neg hlt]
    cases accumulate (BitVec.ofInt 64 base) result (BitVec.ofNat 32 d) with
    | none => rfl
    | some v => exact ih (fun d hd => hds d (List.mem_cons_of_mem _ hd)) v

theorem decimal_of_spells {d : Nat} {c : Char} (hd : d < 10) (h : Spells d c) :
    ('0' ≤ c ∧ c ≤ '9') ∧ c.toNat - 48 = d := by
  have hdigit := strtolDigit_of_spells (by omega) h
  have hc : '0' ≤ c ∧ c ≤ '9' := by
    by_contra hc
    have := ten_le_of_strtolDigit hc hdigit
    omega
  rw [(strtolDigit_lt_ten hc).1] at hdigit
  exact ⟨hc, Option.some.inj hdigit⟩

theorem decimalLoopChecked_digits {ds : List Nat} {str rest : List Char} (hds : ∀ d ∈ ds, d < 10)
    (hstr : List.Forall₂ Spells ds str) (hrest : NoDigit 10 rest) (result : BitVec w) :
    decimalLoopChecked result (str ++ rest) =
      (ds.map (BitVec.ofNat 32)).foldlM (accumulate 10) result := by
  induction hstr generalizing result with
  | nil =>
    cases rest with
    | nil => rfl
    | cons c rest =>
      have hc : ¬ ('0' ≤ c ∧ c ≤ '9') := by
        intro hc
        obtain ⟨hdigit, hlt⟩ := strtolDigit_lt_ten hc
        have := hrest.stop _ hdigit
        omega
      rw [List.nil_append, decimalLoopChecked, if_neg hc]
      rfl
  | @cons d c ds str hdc _ ih =>
    obtain ⟨hc, rfl⟩ := decimal_of_spells (hds d List.mem_cons_self) hdc
    rw [List.cons_append, decimalLoopChecked, if_pos hc, signedSub_zero hc, List.map_cons,
      List.foldlM_cons]
    cases hstep : accumulate 10 result (BitVec.ofNat 32 (c.toNat - 48)) with
    | none => rw [Option.bind_some, hstep]; rfl
    | some v =>
      rw [Option.bind_some, hstep]
      exact ih (fun d hd => hds d (List.mem_cons_of_mem _ hd)) v

/-! ### The checked functions and the functions -/

theorem strtolLoop_of_checked {base : Int} {result : Word} {str : List Char} {r : Word × List Char}
    (h : strtolLoopChecked base result str = some r) : strtolLoop base result str = r := by
  induction str generalizing result with
  | nil => exact Option.some.inj h
  | cons c str ih =>
    rw [strtolLoopChecked, strtolDigitChecked_eq] at h
    rw [strtolLoop]
    cases hdigit : strtolDigit c with
    | none =>
      rw [hdigit] at h
      exact Option.some.inj h
    | some d =>
      have hlt := (spells_of_strtolDigit hdigit).1
      rw [hdigit] at h
      simp only [Option.map_some, toInt_ofNat_of_lt (show 2 * d < 2 ^ 32 by omega)] at h ⊢
      by_cases hle : base ≤ d
      · rw [if_pos hle] at h
        rw [if_pos hle]
        exact Option.some.inj h
      · rw [if_neg hle] at h
        obtain ⟨v, hv, hrest⟩ := Option.bind_eq_some_iff.mp h
        rw [if_neg hle, ← ih hrest, eq_of_accumulate hv, signExtend_digit (by decide) hlt]

theorem decimalLoop_of_checked (hw : 32 ≤ w) {result v : BitVec w} {str : List Char}
    (h : decimalLoopChecked result str = some v) : decimalLoop result str = v := by
  induction str generalizing result with
  | nil => exact Option.some.inj h
  | cons c str ih =>
    rw [decimalLoopChecked] at h
    rw [decimalLoop]
    by_cases hc : '0' ≤ c ∧ c ≤ '9'
    · have hlt := (strtolDigit_lt_ten hc).2
      rw [if_pos hc, signedSub_zero hc, Option.bind_some] at h
      obtain ⟨s, hs, hrest⟩ := Option.bind_eq_some_iff.mp h
      rw [if_pos hc, ← ih hrest, eq_of_accumulate hs, signExtend_digit hw (by omega)]
    · rw [if_neg hc] at h
      rw [if_neg hc]
      exact Option.some.inj h

theorem eq_of_applySign {negative : Bool} {result v : BitVec w}
    (h : applySign negative result = some v) : v = if negative then -result else result := by
  have hv := eq_mul_of_signedMul h
  cases negative with
  | true =>
    have hneg : -1 * result = -result :=
      (BitVec.neg_mul 1 result).trans (congrArg Neg.neg (BitVec.one_mul result))
    rw [hv]
    exact hneg
  | false =>
    rw [hv]
    exact BitVec.one_mul result

/-- **Where no operation overflows, the checked function is the function.** -/
theorem strtol_of_checked {str : List Char} {base : Int} {r : Word × List Char}
    (h : strtolChecked str base = some r) : strtol str base = r := by
  obtain ⟨negative, s, hsign⟩ : ∃ negative s,
      strtolSign (str.dropWhile strtolSpace) = (negative, s) := ⟨_, _, rfl⟩
  obtain ⟨b, s', hskip⟩ : ∃ b s', strtolBase base s = (b, s') := ⟨_, _, rfl⟩
  simp only [strtolChecked, hsign, hskip] at h
  obtain ⟨⟨result, rest⟩, hloop, h⟩ := Option.bind_eq_some_iff.mp h
  obtain ⟨v, hv, rfl⟩ := Option.map_eq_some_iff.mp h
  simp only [strtol, hsign, hskip, strtolLoop_of_checked hloop, eq_of_applySign hv]

theorem decimal_of_checked (hw : 32 ≤ w) {str : List Char} {v : BitVec w}
    (h : decimalChecked w str = some v) : decimal w str = v := by
  obtain ⟨negative, s, hsign⟩ : ∃ negative s,
      strtolSign (str.dropWhile strtolSpace) = (negative, s) := ⟨_, _, rfl⟩
  simp only [decimalChecked, hsign] at h
  obtain ⟨result, hloop, hv⟩ := Option.bind_eq_some_iff.mp h
  simp only [decimal, hsign, decimalLoop_of_checked hw hloop, eq_of_applySign hv]

/-! ### Numbers -/

/-- The sign does not overflow. -/
theorem applySign_of_toInt (hw : 32 ≤ w) (sign : Sign) {result : BitVec w} {n : Nat}
    (h : result.toInt = n) : ∃ v, applySign (decide (sign = .minus)) result = some v ∧
      v.toInt = sign.apply n := by
  have hpow : (2 : Int) ^ 32 ≤ 2 ^ w := pow_le_pow_right₀ (by decide) hw
  obtain ⟨hlo, hhi⟩ := fits_toInt result
  have hminus : (-1 : BitVec w).toInt = -1 := by
    have heq : (-1 : BitVec w) = BitVec.ofInt w (-1) := by simp [BitVec.ofInt_neg]
    rw [heq]
    exact toInt_ofInt_of_fits ⟨by omega, by omega⟩
  have hone : (1 : BitVec w).toInt = 1 := by
    have heq : (1 : BitVec w) = BitVec.ofInt w 1 := by simp
    rw [heq]
    exact toInt_ofInt_of_fits ⟨by omega, by omega⟩
  have hmul : ∀ (factor : BitVec w) (k : Int), factor.toInt = k → Fits w (k * n) →
      ∃ v, signedMul factor result = some v ∧ v.toInt = k * n := by
    rintro factor k rfl hfits
    have := signedMul_of_fits (a := factor) (b := result) (by rwa [h])
    rwa [h] at this
  cases sign with
  | none =>
    obtain ⟨v, hv, hval⟩ := hmul 1 1 hone ⟨by omega, by omega⟩
    exact ⟨v, hv, hval.trans (one_mul _)⟩
  | plus =>
    obtain ⟨v, hv, hval⟩ := hmul 1 1 hone ⟨by omega, by omega⟩
    exact ⟨v, hv, hval.trans (one_mul _)⟩
  | minus =>
    obtain ⟨v, hv, hval⟩ := hmul (-1) (-1) hminus ⟨by omega, by omega⟩
    exact ⟨v, hv, hval.trans (neg_one_mul _)⟩

/-- A number whose digits are accumulated without the sign. -/
theorem bind_applySign (hw : 32 ≤ w) (sign : Sign) {o : Option (BitVec w)} {n : Nat}
    (ho : ∀ r, o = some r ↔ r.toInt = n) :
    (2 * n < 2 ^ w → ∃ v, o.bind (applySign (decide (sign = .minus))) = some v ∧
      v.toInt = sign.apply n) ∧
    (2 ^ w ≤ 2 * n → o.bind (applySign (decide (sign = .minus))) = none) := by
  constructor
  · intro hlt
    have hresult := toInt_ofNat_of_lt hlt
    rw [(ho _).mpr hresult]
    exact applySign_of_toInt hw sign hresult
  · intro hle
    cases o with
    | none => rfl
    | some r =>
      obtain ⟨-, hhi⟩ := fits_toInt r
      rw [(ho r).mp rfl] at hhi
      have : ((2 * n : Nat) : Int) < (2 ^ w : Nat) := by
        push_cast
        exact hhi
      omega

namespace NumberText

variable {base : Nat} {str : List Char} (t : NumberText base str)

/-- The number without its sign. -/
def magnitude : Nat := valueOf t.resolved t.values

def value : Int := t.sign.apply t.magnitude

/-- The digits that are read have the value of the number, also behind an `x` that is skipped. -/
theorem exists_digits_read : ∃ (b : Nat) (ds : List Nat) (cs rest : List Char), b ≤ 36 ∧
    strtolBase base t.body = ((b : Int), cs ++ rest) ∧ (∀ d ∈ ds, d < b) ∧
      List.Forall₂ Spells ds cs ∧ NoDigit b rest ∧ valueOf b ds = t.magnitude := by
  by_cases hlone : t.LonePrefix
  · obtain ⟨hvalues, x, s, -, hdigit, hskip⟩ := t.lone_digits hlone
    refine ⟨16, [], [], s, by decide, hskip, fun d hd => absurd hd List.not_mem_nil, .nil, hdigit,
      ?_⟩
    rw [magnitude, hvalues]
    simp [valueOf]
  · obtain ⟨ds, cs, hskip, hds, hcs, hvalue⟩ := strtolBase_run t.rest t.resolves t.lt_base
      t.spelled fun hpre hbase hs => hlone ⟨hpre, hbase, hs⟩
    exact ⟨t.resolved, ds, cs, t.rest, t.resolves.le, hskip, hds, hcs, t.maximal, hvalue⟩

/-- The digits, accumulated from zero. -/
theorem foldlM_digits (hw : 32 ≤ w) {b : Nat} (hb : b ≤ 36) {ds : List Nat}
    (hds : ∀ d ∈ ds, d < b) (r : BitVec w) :
    (ds.map (BitVec.ofNat 32)).foldlM (accumulate (BitVec.ofInt w b)) 0 = some r ↔
      r.toInt = (valueOf b ds : Nat) := by
  have hpow : (2 : Int) ^ 32 ≤ 2 ^ w := pow_le_pow_right₀ (by decide) hw
  have hbase : (BitVec.ofInt w b).toInt = b := toInt_ofInt_of_fits ⟨by omega, by omega⟩
  have hzero : (0 : BitVec w).toInt = (0 : Nat) := by simp
  have h := foldlM_accumulate hw (v := r) hbase hb hds hzero
  rwa [foldl_digits, Nat.zero_mul, Nat.zero_add] at h

theorem strtolChecked_eq : ∃ (o : Option Word) (rest : List Char),
    (∀ r, o = some r ↔ r.toInt = t.magnitude) ∧ strtolChecked str base =
      (o.bind (applySign (decide (t.sign = .minus)))).map fun result => (result, rest) := by
  obtain ⟨b, ds, cs, rest, hb, hskip, hds, hcs, hrest, hvalue⟩ := t.exists_digits_read
  have hloop := strtolLoopChecked_digits hb hds hcs hrest 0
  refine ⟨(ds.map (BitVec.ofNat 32)).foldlM (accumulate (BitVec.ofInt 64 b)) 0, rest, ?_, ?_⟩
  · intro r
    rw [foldlM_digits (by decide) hb hds, hvalue]
  · simp only [strtolChecked, t.sign_eq, hskip, hloop]
    cases (ds.map (BitVec.ofNat 32)).foldlM (accumulate (BitVec.ofInt 64 b)) (0 : Word) with
    | none => rfl
    | some r => rfl

theorem decimalChecked_eq (t : NumberText 10 str) (hw : 32 ≤ w) : ∃ o : Option (BitVec w),
    (∀ r, o = some r ↔ r.toInt = t.magnitude) ∧
      decimalChecked w str = o.bind (applySign (decide (t.sign = .minus))) := by
  obtain ⟨hpre, hresolved⟩ : t.pre = .none ∧ t.resolved = 10 := by
    have := t.resolves
    generalize t.pre = pre, t.resolved = resolved, t.values = values at this
    cases this
    exact ⟨rfl, rfl⟩
  have hds := t.lt_base
  have hrest := t.maximal
  rw [hresolved] at hds hrest
  have hbody : t.body = t.digits ++ t.rest := by
    rw [body, hpre]
    rfl
  have hten : (10 : BitVec w) = BitVec.ofInt w (10 : Nat) := by simp
  refine ⟨(t.values.map (BitVec.ofNat 32)).foldlM (accumulate 10) 0, ?_, ?_⟩
  · intro r
    rw [hten, foldlM_digits hw (by decide) hds, magnitude, hresolved]
  · simp only [decimalChecked, t.sign_eq, hbody, decimalLoopChecked_digits hds t.spelled hrest]

end NumberText

/-! ### Range -/

/-- The functions that read a number, the last four with the base they are called with. -/
inductive Reader
  | atoi
  | atol
  | atoll
  | strtol (base : Nat)
  | strtoll (base : Nat)
  | strtoul (base : Nat)
  | strtoull (base : Nat)

namespace Reader

def base : Reader → Nat
  | .atoi | .atol | .atoll => 10
  | .strtol base | .strtoll base | .strtoul base | .strtoull base => base

/-- The return type has the number. -/
def Represents : Reader → Int → Prop
  | .atoi, x => Fits 32 x
  | .atol, x | .atoll, x | .strtol _, x | .strtoll _, x => Fits 64 x
  | .strtoul _, x | .strtoull _, x => 0 ≤ x ∧ x < 2 ^ 64

/-- The number that is returned. -/
def value : Reader → List Char → Int
  | .atoi, str => (Klibc.atoi str).toInt
  | .atol, str => (Klibc.atol str).toInt
  | .atoll, str => (Klibc.atoll str).toInt
  | .strtol base, str => (Klibc.strtol str base).1.toInt
  | .strtoll base, str => (Klibc.strtoll str base).1.toInt
  | .strtoul base, str => (Klibc.strtoul str base).1.toNat
  | .strtoull base, str => (Klibc.strtoull str base).1.toNat

/-- No operation overflows. -/
def Safe : Reader → List Char → Prop
  | .atoi, str => (decimalChecked 32 str).isSome
  | .atol, str | .atoll, str => (decimalChecked 64 str).isSome
  | .strtol base, str | .strtoll base, str | .strtoul base, str | .strtoull base, str =>
    (strtolChecked str base).isSome

/-- Where the accumulator overflows. -/
def limit : Reader → Nat
  | .atoi => 2 ^ 31
  | _ => 2 ^ 63

end Reader

theorem NumberText.natAbs_value {base : Nat} {str : List Char} (t : NumberText base str) :
    t.value.natAbs = t.magnitude := by
  unfold value
  cases t.sign with
  | none => exact Int.natAbs_natCast _
  | plus => exact Int.natAbs_natCast _
  | minus => exact (Int.natAbs_neg _).trans (Int.natAbs_natCast _)

theorem decimal_exact_iff {w : Nat} (hw : 32 ≤ w) {str : List Char} (t : NumberText 10 str) :
    (decimalChecked w str).isSome ∧ (decimal w str).toInt = t.value ↔
      2 * t.value.natAbs < 2 ^ w := by
  obtain ⟨o, ho, heq⟩ := t.decimalChecked_eq hw
  obtain ⟨hsome, hnone⟩ := bind_applySign hw t.sign ho
  rw [t.natAbs_value]
  constructor
  · rintro ⟨hsafe, -⟩
    by_contra hle
    rw [heq, hnone (by omega)] at hsafe
    cases hsafe
  · intro hlt
    obtain ⟨v, hv, hval⟩ := hsome hlt
    rw [← heq] at hv
    exact ⟨by rw [hv]; rfl, by rw [decimal_of_checked hw hv]; exact hval⟩

/-- Whatever the return type makes of the bits. -/
theorem strtol_exact_iff {base : Nat} {str : List Char} (t : NumberText base str)
    {read : Word → Int} (hread : ∀ v : Word, v.toInt = t.value → read v = t.value) :
    (strtolChecked str base).isSome ∧ read (strtol str base).1 = t.value ↔
      2 * t.value.natAbs < 2 ^ 64 := by
  obtain ⟨o, rest, ho, heq⟩ := t.strtolChecked_eq
  obtain ⟨hsome, hnone⟩ := bind_applySign (by decide) t.sign ho
  rw [t.natAbs_value]
  constructor
  · rintro ⟨hsafe, -⟩
    by_contra hle
    rw [heq, hnone (by omega)] at hsafe
    cases hsafe
  · intro hlt
    obtain ⟨v, hv, hval⟩ := hsome hlt
    rw [hv, Option.map_some] at heq
    refine ⟨by rw [heq]; rfl, hread _ ?_⟩
    rw [strtol_of_checked heq]
    exact hval

theorem toNat_of_toInt_nonneg {v : Word} {x : Int} (hx : 0 ≤ x) (h : v.toInt = x) :
    (v.toNat : Int) = x := by
  rw [BitVec.toInt_eq_toNat_cond] at h
  split at h <;> omega

/-- **The functions compute the number, without overflow, when its magnitude is below that of the
most negative one.** -/
theorem Reader.exact_iff (r : Reader) {str : List Char} (t : NumberText r.base str)
    (h : r.Represents t.value) :
    r.Safe str ∧ r.value str = t.value ↔ t.value.natAbs < r.limit := by
  have h32 : 2 * t.value.natAbs < 2 ^ 32 ↔ t.value.natAbs < 2 ^ 31 := by omega
  have h64 : 2 * t.value.natAbs < 2 ^ 64 ↔ t.value.natAbs < 2 ^ 63 := by omega
  cases r with
  | atoi => exact (decimal_exact_iff (by decide) t).trans h32
  | atol => exact (decimal_exact_iff (by decide) t).trans h64
  | atoll => exact (decimal_exact_iff (by decide) t).trans h64
  | strtol base => exact (strtol_exact_iff t fun _ hv => hv).trans h64
  | strtoll base => exact (strtol_exact_iff t fun _ hv => hv).trans h64
  | strtoul base => exact (strtol_exact_iff t fun _ hv => toNat_of_toInt_nonneg h.1 hv).trans h64
  | strtoull base => exact (strtol_exact_iff t fun _ hv => toNat_of_toInt_nonneg h.1 hv).trans h64

/-- `"-2147483648"`. -/
def exampleIntMin : NumberText 10 "-2147483648".toList where
  spaces := []
  sign := .minus
  pre := .none
  digits := "2147483648".toList
  rest := []
  resolved := 10
  values := [2, 1, 4, 7, 4, 8, 3, 6, 4, 8]
  str_eq := rfl
  isSpace := isSpace_nil
  resolves := .given (by decide) (by decide)
  nonempty := by decide
  lt_base := by decide
  spelled := .cons (Or.inl rfl) <| .cons (Or.inl rfl) <| .cons (Or.inl rfl) <|
    .cons (Or.inl rfl) <| .cons (Or.inl rfl) <| .cons (Or.inl rfl) <| .cons (Or.inl rfl) <|
    .cons (Or.inl rfl) <| .cons (Or.inl rfl) <| .cons (Or.inl rfl) .nil
  maximal := by simp [NoDigit]
  taken := fun _ hbase => absurd hbase (by decide)

theorem Reader.exact_iff_intMin : Reader.atoi.Represents exampleIntMin.value ∧
    (Reader.atoi.Safe "-2147483648".toList ∧
        Reader.atoi.value "-2147483648".toList = exampleIntMin.value ↔
      exampleIntMin.value.natAbs < Reader.atoi.limit) :=
  have h : Reader.atoi.Represents exampleIntMin.value := (by decide : Fits 32 (-2 ^ 31))
  ⟨h, Reader.exact_iff .atoi exampleIntMin h⟩

/-- The `int` has room for the number, but not for what is accumulated before the sign is
applied. -/
theorem Reader.intMin_overflows : ¬ ∀ (r : Reader) (str : List Char) (t : NumberText r.base str),
    r.Represents t.value → r.Safe str ∧ r.value str = t.value := by
  intro h
  have hsafe := (h .atoi _ exampleIntMin (by decide : Fits 32 (-2 ^ 31))).1
  have hnone : decimalChecked 32 "-2147483648".toList = none := by decide
  rw [Safe, hnone] at hsafe
  cases hsafe

end AncoreOS.Klibc
