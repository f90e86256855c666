import AncoreOS.Klibc.StringMemory

/-!
# `strcmp` and `strncmp`

Both functions return the difference of the first two bytes that differ, taken as unsigned numbers,
the null character being one of the bytes.  `stringDifference` is this difference on lists.  Its
sign is the lexicographic order (`stringDifference_lt_iff`, `stringDifference_eq_zero_iff`), and
`strncmp` is `strcmp` for strings that are cut off (`strcmp_lexicographic`).
-/

namespace AncoreOS.Klibc

open ByteMemory ByteStore

/-! ### The code -/

/-- The difference of two bytes as `unsigned char`. -/
def byteDifference (c d : BitVec 8) : Int := (c.toNat : Int) - d.toNat

def strcmpLoop (m : Mem) : Nat → Word → Word → Option Int
  | 0, _, _ => none
  | fuel + 1, str1, str2 =>
    if m str1 ≠ 0 ∧ m str1 = m str2 then strcmpLoop m fuel (str1 + 1) (str2 + 1)
    else some (byteDifference (m str1) (m str2))

def strcmp (m : Mem) (str1 str2 : Word) : Option Int := strcmpLoop m (2 ^ 64) str1 str2

def strncmpLoop (m : Mem) : Nat → Word → Word → Int
  | 0, _, _ => 0
  | n + 1, str1, str2 =>
    if m str1 ≠ m str2 then byteDifference (m str1) (m str2)
    else if m str1 = 0 then 0
    else strncmpLoop m n (str1 + 1) (str2 + 1)

def strncmp (m : Mem) (str1 str2 n : Word) : Int := strncmpLoop m n.toNat str1 str2

/-! ### Bytes -/

/-- The difference of the first two bytes that differ, where a list goes on with null characters. -/
def stringDifference : List (BitVec 8) → List (BitVec 8) → Int
  | [], [] => 0
  | [], d :: _ => byteDifference 0 d
  | c :: _, [] => byteDifference c 0
  | c :: a, d :: b => if c = d then stringDifference a b else byteDifference c d

theorem byteDifference_zero_right (c : BitVec 8) : byteDifference c 0 = c.toNat := by
  simp [byteDifference]

theorem byteDifference_zero_left (d : BitVec 8) : byteDifference 0 d = -(d.toNat : Int) := by
  simp [byteDifference]

theorem toNat_pos {c : BitVec 8} (h : c ≠ 0) : 0 < c.toNat := by
  rw [Nat.pos_iff_ne_zero]
  exact fun hzero => h (BitVec.eq_of_toNat_eq hzero)

theorem stringDifference_neg (a b : List (BitVec 8)) :
    stringDifference b a = -stringDifference a b := by
  induction a generalizing b with
  | nil =>
    cases b with
    | nil => rfl
    | cons d b =>
      rw [stringDifference, stringDifference, byteDifference_zero_right, byteDifference_zero_left,
        neg_neg]
  | cons c a ih =>
    cases b with
    | nil =>
      rw [stringDifference, stringDifference, byteDifference_zero_right, byteDifference_zero_left]
    | cons d b =>
      rw [stringDifference, stringDifference]
      by_cases hcd : c = d
      · rw [if_pos hcd, if_pos hcd.symm, ih]
      · rw [if_neg hcd, if_neg (Ne.symm hcd), byteDifference, byteDifference, neg_sub]

variable {a b : List (BitVec 8)}

theorem stringDifference_lt_iff (ha : ∀ c ∈ a, c ≠ 0) (hb : ∀ c ∈ b, c ≠ 0) :
    stringDifference a b < 0 ↔ a.map BitVec.toNat < b.map BitVec.toNat := by
  induction a generalizing b with
  | nil =>
    cases b with
    | nil => simp [stringDifference]
    | cons d b =>
      have hpos := toNat_pos (hb d List.mem_cons_self)
      rw [stringDifference, byteDifference_zero_left]
      exact iff_of_true (by omega) (List.nil_lt_cons _ _)
  | cons c a ih =>
    have hpos := toNat_pos (ha c List.mem_cons_self)
    cases b with
    | nil =>
      rw [stringDifference, byteDifference_zero_right]
      exact iff_of_false (by omega) (List.not_lt_nil _)
    | cons d b =>
      rw [stringDifference, List.map_cons, List.map_cons, List.cons_lt_cons_iff]
      by_cases hcd : c = d
      · subst hcd
        rw [if_pos rfl, ih (fun c hc => ha c (List.mem_cons_of_mem _ hc))
          fun c hc => hb c (List.mem_cons_of_mem _ hc)]
        simp
      · have hne : c.toNat ≠ d.toNat := fun h => hcd (BitVec.eq_of_toNat_eq h)
        rw [if_neg hcd, byteDifference]
        constructor
        · intro hlt
          exact Or.inl (by omega)
        · rintro (hlt | ⟨heq, -⟩)
          · omega
          · exact absurd heq hne

theorem stringDifference_eq_zero_iff (ha : ∀ c ∈ a, c ≠ 0) (hb : ∀ c ∈ b, c ≠ 0) :
    stringDifference a b = 0 ↔ a = b := by
  have hinj : Function.Injective (List.map (BitVec.toNat (w := 8))) :=
    List.map_injective_iff.mpr fun _ _ => BitVec.eq_of_toNat_eq
  constructor
  · intro hzero
    have h₁ := stringDifference_lt_iff ha hb
    have h₂ := stringDifference_lt_iff hb ha
    rw [stringDifference_neg a b] at h₂
    -- Neither of them comes first.
    apply hinj
    refine le_antisymm (not_lt.mp fun hlt => ?_) (not_lt.mp fun hlt => ?_)
    · have := h₂.mpr hlt
      omega
    · have := h₁.mpr hlt
      omega
  · rintro rfl
    have := stringDifference_neg a a
    omega

/-! ### The functions -/

variable {m : Mem} {p q : Word}

theorem strcmpLoop_eq (ha : StrAt m p a) (hb : StrAt m q b) {fuel : Nat} (hfuel : a.length < fuel) :
    strcmpLoop m fuel p q = some (stringDifference a b) := by
  induction a generalizing b p q fuel with
  | nil =>
    cases fuel with
    | zero => exact absurd hfuel (Nat.not_lt_zero _)
    | succ fuel =>
      rw [strcmpLoop, ha.head_nil, if_neg fun h => h.1 rfl]
      cases b with
      | nil => rw [hb.head_nil]; rfl
      | cons d b => rw [hb.head]; rfl
  | cons c a ih =>
    have hc := ha.ne_zero c List.mem_cons_self
    cases fuel with
    | zero => exact absurd hfuel (Nat.not_lt_zero _)
    | succ fuel =>
      rw [strcmpLoop, ha.head]
      cases b with
      | nil =>
        rw [hb.head_nil, if_neg fun h => h.1 h.2]
        rfl
      | cons d b =>
        rw [hb.head, stringDifference]
        by_cases hcd : c = d
        · rw [if_pos ⟨hc, hcd⟩, if_pos hcd]
          exact ih ha.tail hb.tail (Nat.lt_of_succ_lt_succ hfuel)
        · rw [if_neg fun h => hcd h.2, if_neg hcd]

theorem strcmp_eq (ha : StrAt m p a) (hb : StrAt m q b) :
    strcmp m p q = some (stringDifference a b) := strcmpLoop_eq ha hb ha.length_lt

theorem strncmpLoop_eq (ha : StrAt m p a) (hb : StrAt m q b) (n : Nat) :
    strncmpLoop m n p q = stringDifference (a.take n) (b.take n) := by
  induction n generalizing a b p q with
  | zero => rfl
  | succ n ih =>
    rw [strncmpLoop]
    cases a with
    | nil =>
      rw [ha.head_nil]
      cases b with
      | nil =>
        rw [hb.head_nil]
        rfl
      | cons d b =>
        rw [hb.head, if_pos (Ne.symm (hb.ne_zero d List.mem_cons_self))]
        rfl
    | cons c a =>
      have hc := ha.ne_zero c List.mem_cons_self
      rw [ha.head]
      cases b with
      | nil =>
        rw [hb.head_nil, if_pos hc]
        rfl
      | cons d b =>
        rw [hb.head, List.take_succ_cons, List.take_succ_cons, stringDifference]
        by_cases hcd : c = d
        · rw [if_neg (not_not_intro hcd), if_neg hc, if_pos hcd]
          exact ih ha.tail hb.tail
        · rw [if_pos hcd, if_neg hcd]

/-- The first string does not come behind the second one. -/
def StrcmpLe (m : Mem) (p q : Word) : Prop := ∃ r ≤ 0, strcmp m p q = some r

theorem strcmpLe_iff (ha : StrAt m p a) (hb : StrAt m q b) :
    StrcmpLe m p q ↔ a.map BitVec.toNat ≤ b.map BitVec.toNat := by
  rw [← not_lt, ← stringDifference_lt_iff hb.ne_zero ha.ne_zero, stringDifference_neg, StrcmpLe,
    strcmp_eq ha hb]
  constructor
  · rintro ⟨r, hr, heq⟩
    rw [Option.some.inj heq]
    omega
  · intro h
    exact ⟨_, by omega, rfl⟩

/-- The sign of `strcmp` is the lexicographic order of the bytes. -/
structure ComparesLexicographically (m : Mem) (p q : Word) (a b : List (BitVec 8)) : Prop where
  sign : ∃ r, strcmp m p q = some r ∧ (r < 0 ↔ a.map BitVec.toNat < b.map BitVec.toNat) ∧
    (r = 0 ↔ a = b) ∧ (0 < r ↔ b.map BitVec.toNat < a.map BitVec.toNat)
  total : StrcmpLe m p q ∨ StrcmpLe m q p
  antisymm : StrcmpLe m p q → StrcmpLe m q p → a = b
  trans : ∀ (z : Word) (c : List (BitVec 8)), StrAt m z c →
    StrcmpLe m p q → StrcmpLe m q z → StrcmpLe m p z

theorem comparesLexicographically (ha : StrAt m p a) (hb : StrAt m q b) :
    ComparesLexicographically m p q a b where
  sign := by
    refine ⟨_, strcmp_eq ha hb, stringDifference_lt_iff ha.ne_zero hb.ne_zero,
      stringDifference_eq_zero_iff ha.ne_zero hb.ne_zero, ?_⟩
    rw [← stringDifference_lt_iff hb.ne_zero ha.ne_zero, stringDifference_neg]
    omega
  total := by
    rw [strcmpLe_iff ha hb, strcmpLe_iff hb ha]
    exact le_total _ _
  antisymm := by
    rw [strcmpLe_iff ha hb, strcmpLe_iff hb ha]
    intro h₁ h₂
    exact List.map_injective_iff.mpr (fun _ _ => BitVec.eq_of_toNat_eq) (le_antisymm h₁ h₂)
  trans := by
    intro z c hc
    rw [strcmpLe_iff ha hb, strcmpLe_iff hb hc, strcmpLe_iff ha hc]
    exact le_trans

/-- **`strcmp` is the lexicographic order, and `strncmp` is `strcmp` for the first `n` bytes of the
strings**, wherever these are strings. -/
theorem strcmp_lexicographic (m : Mem) (p q : Word) (a b : List (BitVec 8)) (ha : StrAt m p a)
    (hb : StrAt m q b) : ComparesLexicographically m p q a b ∧
      (∀ (n : Word) (m' : Mem) (p' q' : Word), StrAt m' p' (a.take n.toNat) →
        StrAt m' q' (b.take n.toNat) → strcmp m' p' q' = some (strncmp m p q n)) ∧
      ∀ n : Word, a.length < n.toNat → b.length < n.toNat →
        strcmp m p q = some (strncmp m p q n) := by
  refine ⟨comparesLexicographically ha hb, ?_, ?_⟩
  · intro n m' p' q' ha' hb'
    rw [strcmp_eq ha' hb', strncmp, strncmpLoop_eq ha hb]
  · intro n hna hnb
    rw [strcmp_eq ha hb, strncmp, strncmpLoop_eq ha hb, List.take_of_length_le hna.le,
      List.take_of_length_le hnb.le]

/-- `"ab"` and `"c"`. -/
theorem strcmp_lexicographic_exampleAbC : (StrAt exampleAbC 0x1000 [0x61, 0x62] ∧
      StrAt exampleAbC 0x2000 [0x63]) ∧
    ComparesLexicographically exampleAbC 0x1000 0x2000 [0x61, 0x62] [0x63] ∧
      (∀ (n : Word) (m' : Mem) (p' q' : Word), StrAt m' p' ([0x61, 0x62].take n.toNat) →
        StrAt m' q' ([0x63].take n.toNat) →
          strcmp m' p' q' = some (strncmp exampleAbC 0x1000 0x2000 n)) ∧
      ∀ n : Word, [0x61#8, 0x62#8].length < n.toNat → [0x63#8].length < n.toNat →
        strcmp exampleAbC 0x1000 0x2000 = some (strncmp exampleAbC 0x1000 0x2000 n) :=
  ⟨⟨exampleAbC_ab, exampleAbC_c⟩,
    strcmp_lexicographic exampleAbC 0x1000 0x2000 [0x61, 0x62] [0x63] exampleAbC_ab exampleAbC_c⟩

end AncoreOS.Klibc
