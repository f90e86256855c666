import AncoreOS.Library.IntervalTable
import AncoreOS.Terminal.FbInsert

/-!
# Text (`src/kernel/terminal/src/flanterm.c`)

`flanterm_putchar` takes the bytes of a text one by one: it puts the code points of UTF-8 together, and
prints for each the character of code page 437, or a blot and blanks as wide as the code point is.

A text does what its characters do, one after the other (`write_text`): a control character moves the
cursor or the screen, another one is printed.  Only what comes behind an escape character is left out.  The
terminal stays in order, so that a flush shows the text (`text_shows`).
-/

namespace AncoreOS.Terminal

open IntervalTable

/-! ### Code points -/

/-- The intervals of the characters without a width. -/
def combining : List (Nat × Nat) :=
  [(0x0300, 0x036F), (0x0483, 0x0486), (0x0488, 0x0489), (0x0591, 0x05BD), (0x05BF, 0x05BF), (0x05C1, 0x05C2),
    (0x05C4, 0x05C5), (0x05C7, 0x05C7), (0x0600, 0x0603), (0x0610, 0x0615), (0x064B, 0x065E),
    (0x0670, 0x0670), (0x06D6, 0x06E4), (0x06E7, 0x06E8), (0x06EA, 0x06ED), (0x070F, 0x070F),
    (0x0711, 0x0711), (0x0730, 0x074A), (0x07A6, 0x07B0), (0x07EB, 0x07F3), (0x0901, 0x0902),
    (0x093C, 0x093C), (0x0941, 0x0948), (0x094D, 0x094D), (0x0951, 0x0954), (0x0962, 0x0963),
    (0x0981, 0x0981), (0x09BC, 0x09BC), (0x09C1, 0x09C4), (0x09CD, 0x09CD), (0x09E2, 0x09E3),
    (0x0A01, 0x0A02), (0x0A3C, 0x0A3C), (0x0A41, 0x0A42), (0x0A47, 0x0A48), (0x0A4B, 0x0A4D),
    (0x0A70, 0x0A71), (0x0A81, 0x0A82), (0x0ABC, 0x0ABC), (0x0AC1, 0x0AC5), (0x0AC7, 0x0AC8),
    (0x0ACD, 0x0ACD), (0x0AE2, 0x0AE3), (0x0B01, 0x0B01), (0x0B3C, 0x0B3C), (0x0B3F, 0x0B3F),
    (0x0B41, 0x0B43), (0x0B4D, 0x0B4D), (0x0B56, 0x0B56), (0x0B82, 0x0B82), (0x0BC0, 0x0BC0),
    (0x0BCD, 0x0BCD), (0x0C3E, 0x0C40), (0x0C46, 0x0C48), (0x0C4A, 0x0C4D), (0x0C55, 0x0C56),
    (0x0CBC, 0x0CBC), (0x0CBF, 0x0CBF), (0x0CC6, 0x0CC6), (0x0CCC, 0x0CCD), (0x0CE2, 0x0CE3),
    (0x0D41, 0x0D43), (0x0D4D, 0x0D4D), (0x0DCA, 0x0DCA), (0x0DD2, 0x0DD4), (0x0DD6, 0x0DD6),
    (0x0E31, 0x0E31), (0x0E34, 0x0E3A), (0x0E47, 0x0E4E), (0x0EB1, 0x0EB1), (0x0EB4, 0x0EB9),
    (0x0EBB, 0x0EBC), (0x0EC8, 0x0ECD), (0x0F18, 0x0F19), (0x0F35, 0x0F35), (0x0F37, 0x0F37),
    (0x0F39, 0x0F39), (0x0F71, 0x0F7E), (0x0F80, 0x0F84), (0x0F86, 0x0F87), (0x0F90, 0x0F97),
    (0x0F99, 0x0FBC), (0x0FC6, 0x0FC6), (0x102D, 0x1030), (0x1032, 0x1032), (0x1036, 0x1037),
    (0x1039, 0x1039), (0x1058, 0x1059), (0x1160, 0x11FF), (0x135F, 0x135F), (0x1712, 0x1714),
    (0x1732, 0x1734), (0x1752, 0x1753), (0x1772, 0x1773), (0x17B4, 0x17B5), (0x17B7, 0x17BD),
    (0x17C6, 0x17C6), (0x17C9, 0x17D3), (0x17DD, 0x17DD), (0x180B, 0x180D), (0x18A9, 0x18A9),
    (0x1920, 0x1922), (0x1927, 0x1928), (0x1932, 0x1932), (0x1939, 0x193B), (0x1A17, 0x1A18),
    (0x1B00, 0x1B03), (0x1B34, 0x1B34), (0x1B36, 0x1B3A), (0x1B3C, 0x1B3C), (0x1B42, 0x1B42),
    (0x1B6B, 0x1B73), (0x1DC0, 0x1DCA), (0x1DFE, 0x1DFF), (0x200B, 0x200F), (0x202A, 0x202E),
    (0x2060, 0x2063), (0x206A, 0x206F), (0x20D0, 0x20EF), (0x302A, 0x302F), (0x3099, 0x309A),
    (0xA806, 0xA806), (0xA80B, 0xA80B), (0xA825, 0xA826), (0xFB1E, 0xFB1E), (0xFE00, 0xFE0F),
    (0xFE20, 0xFE23), (0xFEFF, 0xFEFF), (0xFFF9, 0xFFFB), (0x10A01, 0x10A03), (0x10A05, 0x10A06),
    (0x10A0C, 0x10A0F), (0x10A38, 0x10A3A), (0x10A3F, 0x10A3F), (0x1D167, 0x1D169), (0x1D173, 0x1D182),
    (0x1D185, 0x1D18B), (0x1D1AA, 0x1D1AD), (0x1D242, 0x1D244), (0xE0001, 0xE0001), (0xE0020, 0xE007F),
    (0xE0100, 0xE01EF)]

def combiningAt (i : Nat) : Nat × Nat := combining.getD i (0, 0)

/-- `bisearch`, which first compares the value with the ends of the table. -/
def bisearch (ucs : Nat) (table : Nat → Nat × Nat) (max : Nat) : Bool :=
  if ucs < (table 0).1 ∨ ucs > (table max).2 then false else search table ucs 0 max

def mkWcwidth (ucs : Nat) : Nat :=
  if ucs = 0 then 0
  else if ucs < 32 ∨ (ucs ≥ 0x7f ∧ ucs < 0xa0) then 1
  else if bisearch ucs combiningAt (combining.length - 1) then 0
  else if ucs ≥ 0x1100 ∧
      (ucs ≤ 0x115f ∨ ucs = 0x2329 ∨ ucs = 0x232a ∨ (ucs ≥ 0x2e80 ∧ ucs ≤ 0xa4cf ∧ ucs ≠ 0x303f) ∨
        (ucs ≥ 0xac00 ∧ ucs ≤ 0xd7a3) ∨ (ucs ≥ 0xf900 ∧ ucs ≤ 0xfaff) ∨ (ucs ≥ 0xfe10 ∧ ucs ≤ 0xfe19) ∨
        (ucs ≥ 0xfe30 ∧ ucs ≤ 0xfe6f) ∨ (ucs ≥ 0xff00 ∧ ucs ≤ 0xff60) ∨ (ucs ≥ 0xffe0 ∧ ucs ≤ 0xffe6) ∨
        (ucs ≥ 0x20000 ∧ ucs ≤ 0x2fffd) ∨ (ucs ≥ 0x30000 ∧ ucs ≤ 0x3fffd)) then 2
  else 1

/-- The characters of code page 437 by their code points. -/
def cp437 : List (Nat × BitVec 8) :=
  [(0x263a, 1), (0x263b, 2), (0x2665, 3), (0x2666, 4), (0x2663, 5), (0x2660, 6), (0x2022, 7), (0x25d8, 8),
    (0x25cb, 9), (0x25d9, 10), (0x2642, 11), (0x2640, 12), (0x266a, 13), (0x266b, 14), (0x263c, 15),
    (0x25ba, 16), (0x25c4, 17), (0x2195, 18), (0x203c, 19), (0x00b6, 20), (0x00a7, 21), (0x25ac, 22),
    (0x21a8, 23), (0x2191, 24), (0x2193, 25), (0x2192, 26), (0x2190, 27), (0x221f, 28), (0x2194, 29),
    (0x25b2, 30), (0x25bc, 31), (0x2302, 127), (0x00c7, 128), (0x00fc, 129), (0x00e9, 130), (0x00e2, 131),
    (0x00e4, 132), (0x00e0, 133), (0x00e5, 134), (0x00e7, 135), (0x00ea, 136), (0x00eb, 137), (0x00e8, 138),
    (0x00ef, 139), (0x00ee, 140), (0x00ec, 141), (0x00c4, 142), (0x00c5, 143), (0x00c9, 144), (0x00e6, 145),
    (0x00c6, 146), (0x00f4, 147), (0x00f6, 148), (0x00f2, 149), (0x00fb, 150), (0x00f9, 151), (0x00ff, 152),
    (0x00d6, 153), (0x00dc, 154), (0x00a2, 155), (0x00a3, 156), (0x00a5, 157), (0x20a7, 158), (0x0192, 159),
    (0x00e1, 160), (0x00ed, 161), (0x00f3, 162), (0x00fa, 163), (0x00f1, 164), (0x00d1, 165), (0x00aa, 166),
    (0x00ba, 167), (0x00bf, 168), (0x2310, 169), (0x00ac, 170), (0x00bd, 171), (0x00bc, 172), (0x00a1, 173),
    (0x00ab, 174), (0x00bb, 175), (0x2591, 176), (0x2592, 177), (0x2593, 178), (0x2502, 179), (0x2524, 180),
    (0x2561, 181), (0x2562, 182), (0x2556, 183), (0x2555, 184), (0x2563, 185), (0x2551, 186), (0x2557, 187),
    (0x255d, 188), (0x255c, 189), (0x255b, 190), (0x2510, 191), (0x2514, 192), (0x2534, 193), (0x252c, 194),
    (0x251c, 195), (0x2500, 196), (0x253c, 197), (0x255e, 198), (0x255f, 199), (0x255a, 200), (0x2554, 201),
    (0x2569, 202), (0x2566, 203), (0x2560, 204), (0x2550, 205), (0x256c, 206), (0x2567, 207), (0x2568, 208),
    (0x2564, 209), (0x2565, 210), (0x2559, 211), (0x2558, 212), (0x2552, 213), (0x2553, 214), (0x256b, 215),
    (0x256a, 216), (0x2518, 217), (0x250c, 218), (0x2588, 219), (0x2584, 220), (0x258c, 221), (0x2590, 222),
    (0x2580, 223), (0x03b1, 224), (0x00df, 225), (0x0393, 226), (0x03c0, 227), (0x03a3, 228), (0x03c3, 229),
    (0x00b5, 230), (0x03c4, 231), (0x03a6, 232), (0x0398, 233), (0x03a9, 234), (0x03b4, 235), (0x221e, 236),
    (0x03c6, 237), (0x03b5, 238), (0x2229, 239), (0x2261, 240), (0x00b1, 241), (0x2265, 242), (0x2264, 243),
    (0x2320, 244), (0x2321, 245), (0x00f7, 246), (0x2248, 247), (0x00b0, 248), (0x2219, 249), (0x00b7, 250),
    (0x221a, 251), (0x207f, 252), (0x00b2, 253), (0x25a0, 254)]

def unicodeToCp437 (codePoint : Nat) : Option (BitVec 8) := cp437.lookup codePoint

/-- What is printed for a code point: a blot and blanks if the code page does not have it. -/
def glyphsOf (codePoint : Nat) : List (BitVec 8) :=
  match unicodeToCp437 codePoint with
  | some g => [g]
  | none =>
      match mkWcwidth codePoint with
      | 0 => []
      | width + 1 => 0xfe :: List.replicate width 0x20

/-! ### Bytes -/

/-- The terminal with what `flanterm_putchar` keeps.  `shifted` is the current character set, and `onlcr` that
a new line begins at the first column. -/
structure FbText where
  ctx : FbContext
  codePoint : Nat
  unicodeRemaining : Nat
  escape : Bool
  insertMode : Bool
  charsets : Charset × Charset
  shifted : Bool
  tabSize : Nat
  onlcr : Bool

def rawPutchars (ctx : FbContext) (l : List (BitVec 8)) : FbContext := l.foldl rawPutchar ctx

def FbText.charset (t : FbText) : Charset := if t.shifted then t.charsets.2 else t.charsets.1

/-- The switch of `flanterm_putchar`, and the printing behind it. -/
def groundPutchar (t : FbText) (c : BitVec 8) : FbText :=
  let x := (getCursorPos t.ctx).1
  let y := (getCursorPos t.ctx).2
  if c = 0x00 ∨ c = 0x7f then t
  else if c = 0x1b then { t with escape := true }
  else if c = 0x09 then
    if x / t.tabSize + 1 ≥ t.ctx.cols then { t with ctx := setCursorPos t.ctx (t.ctx.cols - 1) y }
    else { t with ctx := setCursorPos t.ctx ((x / t.tabSize + 1) * t.tabSize) y }
  else if c = 0x0b ∨ c = 0x0c ∨ c = 0x0a then
    let x := if t.onlcr then 0 else x
    if y = t.ctx.scrollBottomMargin - 1 then { t with ctx := setCursorPos (scroll t.ctx) x y }
    else { t with ctx := setCursorPos t.ctx x (y + 1) }
  else if c = 0x08 then { t with ctx := setCursorPos t.ctx ((x + (2 ^ 64 - 1)) % 2 ^ 64) y }
  else if c = 0x0d then { t with ctx := setCursorPos t.ctx 0 y }
  else if c = 0x07 then t
  else if c = 0x0e then { t with shifted := true }
  else if c = 0x0f then { t with shifted := false }
  else { t with ctx := printCharacter t.ctx t.insertMode t.charset c }

/-- `flanterm_putchar`.  What comes behind an escape character is left out. -/
def flantermPutchar (t : FbText) (c : BitVec 8) : Option FbText :=
  if c = 0x18 ∨ c = 0x1a then some { t with unicodeRemaining := 0, escape := false }
  else if t.unicodeRemaining ≠ 0 ∧ c &&& 0xc0 = 0x80 then
    let remaining := t.unicodeRemaining - 1
    let codePoint := t.codePoint ||| (c &&& 0x3f).toNat <<< (6 * remaining)
    if remaining ≠ 0 then some { t with codePoint := codePoint, unicodeRemaining := remaining }
    else
      some { t with ctx := rawPutchars t.ctx (glyphsOf codePoint), codePoint := codePoint, unicodeRemaining := 0 }
  else if 0xc0 ≤ c ∧ c ≤ 0xdf then
    some { t with codePoint := (c &&& 0x1f).toNat <<< 6, unicodeRemaining := 1 }
  else if 0xe0 ≤ c ∧ c ≤ 0xef then
    some { t with codePoint := (c &&& 0x0f).toNat <<< (6 * 2), unicodeRemaining := 2 }
  else if 0xf0 ≤ c ∧ c ≤ 0xf7 then
    some { t with codePoint := (c &&& 0x07).toNat <<< (6 * 3), unicodeRemaining := 3 }
  else if t.escape then none
  else some (groundPutchar { t with unicodeRemaining := 0 } c)

/-- `flanterm_write`, without its flush. -/
def flantermWrite (t : FbText) (buf : List (BitVec 8)) : Option FbText := buf.foldlM flantermPutchar t

/-- The bytes of a text. -/
def utf8 (text : List Char) : List (BitVec 8) :=
  text.flatMap fun ch => (String.utf8EncodeChar ch).map UInt8.toBitVec

/-! ### The width of a code point -/

theorem combining_sorted : Sorted combiningAt combining.length := by
  refine sorted_of_neighbours ?_ ?_
  · decide +kernel
  · have hall : ∀ j < combining.length - 1, (combiningAt j).2 < (combiningAt (j + 1)).1 := by decide +kernel
    exact fun j hj => hall j (by omega)

theorem combining_length : combining.length = 142 := by decide +kernel

theorem combiningAt_eq {i : Nat} (hi : i < combining.length) : combiningAt i = combining[i] := by
  rw [combiningAt, List.getD_eq_getElem?_getD, List.getElem?_eq_getElem hi, Option.getD_some]

/-- The search finds the characters without a width. -/
theorem bisearch_iff (ucs : Nat) :
    bisearch ucs combiningAt (combining.length - 1) = true ↔
      ∃ interval ∈ combining, interval.1 ≤ ucs ∧ ucs ≤ interval.2 := by
  have hmem : (∃ interval ∈ combining, interval.1 ≤ ucs ∧ ucs ≤ interval.2) ↔
      ∃ i ≤ combining.length - 1, Holds combiningAt ucs i := by
    constructor
    · rintro ⟨interval, hin, hholds⟩
      obtain ⟨i, hi, rfl⟩ := List.getElem_of_mem hin
      refine ⟨i, by omega, ?_⟩
      rwa [Holds, combiningAt_eq hi]
    · rintro ⟨i, hi, hholds⟩
      have hlt : i < combining.length := by
        rw [combining_length] at hi ⊢
        omega
      rw [Holds, combiningAt_eq hlt] at hholds
      exact ⟨_, List.getElem_mem hlt, hholds⟩
  have hsorted : Sorted combiningAt (combining.length - 1 + 1) := by
    rw [Nat.sub_add_cancel (by rw [combining_length]; decide)]
    exact combining_sorted
  rw [hmem]
  unfold bisearch
  by_cases hout : ucs < (combiningAt 0).1 ∨ ucs > (combiningAt (combining.length - 1)).2
  · rw [if_pos hout]
    exact ⟨fun h => absurd h Bool.false_ne_true, fun ⟨i, hi, h⟩ => absurd h (hsorted.not_holds hout hi)⟩
  · rw [if_neg hout, search_iff hsorted ucs 0 _ le_rfl (by omega)]
    exact ⟨fun ⟨i, _, hi, h⟩ => ⟨i, by omega, h⟩, fun ⟨i, hi, h⟩ => ⟨i, by omega, by omega, h⟩⟩

/-- **What has no width** is the null and the code points of the table. -/
theorem mkWcwidth_eq_zero_iff (ucs : Nat) :
    mkWcwidth ucs = 0 ↔ ucs = 0 ∨ ∃ interval ∈ combining, interval.1 ≤ ucs ∧ ucs ≤ interval.2 := by
  have hfirst : ∀ interval ∈ combining, 0x300 ≤ interval.1 := by decide +kernel
  rw [← bisearch_iff]
  unfold mkWcwidth
  by_cases hzero : ucs = 0
  · rw [if_pos hzero]
    exact ⟨fun _ => Or.inl hzero, fun _ => rfl⟩
  rw [if_neg hzero]
  by_cases hcontrol : ucs < 32 ∨ (ucs ≥ 0x7f ∧ ucs < 0xa0)
  · rw [if_pos hcontrol, bisearch_iff]
    refine ⟨fun h => absurd h Nat.one_ne_zero, ?_⟩
    rintro (h | ⟨interval, hin, hle, -⟩)
    · exact absurd h hzero
    · have hge := hfirst interval hin
      omega
  rw [if_neg hcontrol]
  by_cases hfound : bisearch ucs combiningAt (combining.length - 1) = true
  · rw [if_pos hfound]
    exact ⟨fun _ => Or.inr hfound, fun _ => rfl⟩
  · rw [if_neg hfound]
    refine ⟨fun h => ?_, fun h => absurd (h.resolve_left hzero) hfound⟩
    split at h <;> cases h

/-! ### Code points from bytes -/

/-- The bytes that continue a code point. -/
theorem tail_byte : ∀ k < 64,
    ¬(BitVec.ofNat 8 (k + 0x80) = 0x18 ∨ BitVec.ofNat 8 (k + 0x80) = 0x1a) ∧
      BitVec.ofNat 8 (k + 0x80) &&& 0xc0 = 0x80 ∧ (BitVec.ofNat 8 (k + 0x80) &&& 0x3f).toNat = k := by
  decide

/-- The first bytes of two, of three and of four. -/
theorem lead_two : ∀ k < 32,
    ¬(BitVec.ofNat 8 (k + 0xc0) = 0x18 ∨ BitVec.ofNat 8 (k + 0xc0) = 0x1a) ∧
      ¬BitVec.ofNat 8 (k + 0xc0) &&& 0xc0 = 0x80 ∧
      (0xc0 ≤ BitVec.ofNat 8 (k + 0xc0) ∧ BitVec.ofNat 8 (k + 0xc0) ≤ 0xdf) ∧
      (BitVec.ofNat 8 (k + 0xc0) &&& 0x1f).toNat = k := by
  decide

theorem lead_three : ∀ k < 16,
    ¬(BitVec.ofNat 8 (k + 0xe0) = 0x18 ∨ BitVec.ofNat 8 (k + 0xe0) = 0x1a) ∧
      ¬BitVec.ofNat 8 (k + 0xe0) &&& 0xc0 = 0x80 ∧
      ¬(0xc0 ≤ BitVec.ofNat 8 (k + 0xe0) ∧ BitVec.ofNat 8 (k + 0xe0) ≤ 0xdf) ∧
      (0xe0 ≤ BitVec.ofNat 8 (k + 0xe0) ∧ BitVec.ofNat 8 (k + 0xe0) ≤ 0xef) ∧
      (BitVec.ofNat 8 (k + 0xe0) &&& 0x0f).toNat = k := by
  decide

theorem lead_four : ∀ k < 8,
    ¬(BitVec.ofNat 8 (k + 0xf0) = 0x18 ∨ BitVec.ofNat 8 (k + 0xf0) = 0x1a) ∧
      ¬BitVec.ofNat 8 (k + 0xf0) &&& 0xc0 = 0x80 ∧
      ¬(0xc0 ≤ BitVec.ofNat 8 (k + 0xf0) ∧ BitVec.ofNat 8 (k + 0xf0) ≤ 0xdf) ∧
      ¬(0xe0 ≤ BitVec.ofNat 8 (k + 0xf0) ∧ BitVec.ofNat 8 (k + 0xf0) ≤ 0xef) ∧
      (0xf0 ≤ BitVec.ofNat 8 (k + 0xf0) ∧ BitVec.ofNat 8 (k + 0xf0) ≤ 0xf7) ∧
      (BitVec.ofNat 8 (k + 0xf0) &&& 0x07).toNat = k := by
  decide

theorem ascii_byte : ∀ k < 128, ¬BitVec.ofNat 8 k &&& 0xc0 = 0x80 := by
  decide

/-- Six more bits of a code point. -/
theorem shift_or {b : Nat} (a n : Nat) (hb : b < 64) : a <<< (6 + n) ||| b <<< n = (a * 64 + b) <<< n := by
  rw [Nat.shiftLeft_add, ← Nat.shiftLeft_or_distrib, Nat.shiftLeft_eq a 6, Nat.mul_comm a,
    ← Nat.two_pow_add_eq_or_of_lt (show b < 2 ^ 6 from hb), Nat.mul_comm (2 ^ 6)]

section Bytes

variable (t : FbText)

theorem putchar_more {k n : Nat} (hk : k < 64) (hn : t.unicodeRemaining = n + 2) :
    flantermPutchar t (BitVec.ofNat 8 (k + 0x80)) = some { t with
      codePoint := t.codePoint ||| k <<< (6 * (n + 1)), unicodeRemaining := n + 1 } := by
  obtain ⟨hcontrol, htail, hbits⟩ := tail_byte k hk
  unfold flantermPutchar
  rw [if_neg hcontrol, if_pos ⟨by omega, htail⟩, hbits, hn]
  exact if_pos (Nat.succ_ne_zero n)

theorem putchar_last {k : Nat} (hk : k < 64) (hn : t.unicodeRemaining = 1) :
    flantermPutchar t (BitVec.ofNat 8 (k + 0x80)) = some { t with
      ctx := rawPutchars t.ctx (glyphsOf (t.codePoint ||| k <<< 0))
      codePoint := t.codePoint ||| k <<< 0
      unicodeRemaining := 0 } := by
  obtain ⟨hcontrol, htail, hbits⟩ := tail_byte k hk
  unfold flantermPutchar
  rw [if_neg hcontrol, if_pos ⟨by omega, htail⟩, hbits, hn]
  exact if_neg (not_not.mpr rfl)

theorem putchar_lead_two {k : Nat} (hk : k < 32) :
    flantermPutchar t (BitVec.ofNat 8 (k + 0xc0)) =
      some { t with codePoint := k <<< 6, unicodeRemaining := 1 } := by
  obtain ⟨hcontrol, htail, hrange, hbits⟩ := lead_two k hk
  unfold flantermPutchar
  rw [if_neg hcontrol, if_neg fun h => htail h.2, if_pos hrange, hbits]

theorem putchar_lead_three {k : Nat} (hk : k < 16) :
    flantermPutchar t (BitVec.ofNat 8 (k + 0xe0)) =
      some { t with codePoint := k <<< 12, unicodeRemaining := 2 } := by
  obtain ⟨hcontrol, htail, htwo, hrange, hbits⟩ := lead_three k hk
  unfold flantermPutchar
  rw [if_neg hcontrol, if_neg fun h => htail h.2, if_neg htwo, if_pos hrange, hbits]

theorem putchar_lead_four {k : Nat} (hk : k < 8) :
    flantermPutchar t (BitVec.ofNat 8 (k + 0xf0)) =
      some { t with codePoint := k <<< 18, unicodeRemaining := 3 } := by
  obtain ⟨hcontrol, htail, htwo, hthree, hrange, hbits⟩ := lead_four k hk
  unfold flantermPutchar
  rw [if_neg hcontrol, if_neg fun h => htail h.2, if_neg htwo, if_neg hthree, if_pos hrange, hbits]

/-- A code point that is not ASCII: its bytes print it, whatever came before. -/
theorem write_codePoint (ch : Char) (hch : 0x80 ≤ ch.val.toNat) :
    flantermWrite t ((String.utf8EncodeChar ch).map UInt8.toBitVec) = some { t with
      ctx := rawPutchars t.ctx (glyphsOf ch.val.toNat)
      codePoint := ch.val.toNat
      unicodeRemaining := 0 } := by
  have hvalid : ch.val.toNat < 0x110000 := by
    rcases ch.valid with hlt | ⟨-, hlt⟩
    · exact hlt.trans (by decide)
    · exact hlt
  unfold String.utf8EncodeChar
  dsimp only
  generalize ch.val.toNat = v at hch hvalid ⊢
  rw [if_neg (show ¬v ≤ 0x7f by omega)]
  by_cases htwo : v ≤ 0x7ff
  · have hcode : (v / 64 % 32) <<< 6 ||| (v % 64) <<< 0 = v := by
      rw [shift_or (v / 64 % 32) 0 (Nat.mod_lt v (by decide)), Nat.shiftLeft_zero]
      omega
    rw [if_pos htwo]
    change (flantermPutchar t (BitVec.ofNat 8 (v / 64 % 32 + 0xc0)) >>= fun t =>
      flantermPutchar t (BitVec.ofNat 8 (v % 64 + 0x80)) >>= fun t => some t) = _
    rw [putchar_lead_two t (Nat.mod_lt _ (by decide)), Option.bind_eq_bind, Option.bind_some,
      putchar_last _ (Nat.mod_lt v (by decide)) rfl, hcode]
    rfl
  rw [if_neg htwo]
  by_cases hthree : v ≤ 0xffff
  · have hcode : (v / 4096 % 16) <<< 12 ||| (v / 64 % 64) <<< 6 ||| (v % 64) <<< 0 = v := by
      rw [shift_or (v / 4096 % 16) 6 (Nat.mod_lt _ (by decide)), shift_or _ 0 (Nat.mod_lt v (by decide)),
        Nat.shiftLeft_zero]
      omega
    rw [if_pos hthree]
    change (flantermPutchar t (BitVec.ofNat 8 (v / 4096 % 16 + 0xe0)) >>= fun t =>
      flantermPutchar t (BitVec.ofNat 8 (v / 64 % 64 + 0x80)) >>= fun t =>
      flantermPutchar t (BitVec.ofNat 8 (v % 64 + 0x80)) >>= fun t => some t) = _
    rw [putchar_lead_three t (Nat.mod_lt _ (by decide)), Option.bind_eq_bind, Option.bind_some,
      putchar_more _ (Nat.mod_lt _ (by decide)) rfl, Option.bind_some,
      putchar_last _ (Nat.mod_lt v (by decide)) rfl]
    dsimp only
    rw [hcode]
    rfl
  · have hcode : (v / 262144 % 8) <<< 18 ||| (v / 4096 % 64) <<< 12 ||| (v / 64 % 64) <<< 6 ||| (v % 64) <<< 0 =
        v := by
      rw [shift_or (v / 262144 % 8) 12 (Nat.mod_lt _ (by decide)), shift_or _ 6 (Nat.mod_lt _ (by decide)),
        shift_or _ 0 (Nat.mod_lt v (by decide)), Nat.shiftLeft_zero]
      omega
    rw [if_neg hthree]
    change (flantermPutchar t (BitVec.ofNat 8 (v / 262144 % 8 + 0xf0)) >>= fun t =>
      flantermPutchar t (BitVec.ofNat 8 (v / 4096 % 64 + 0x80)) >>= fun t =>
      flantermPutchar t (BitVec.ofNat 8 (v / 64 % 64 + 0x80)) >>= fun t =>
      flantermPutchar t (BitVec.ofNat 8 (v % 64 + 0x80)) >>= fun t => some t) = _
    rw [putchar_lead_four t (Nat.mod_lt _ (by decide)), Option.bind_eq_bind, Option.bind_some,
      putchar_more _ (Nat.mod_lt _ (by decide)) rfl, Option.bind_some,
      putchar_more _ (Nat.mod_lt _ (by decide)) rfl, Option.bind_some,
      putchar_last _ (Nat.mod_lt v (by decide)) rfl]
    dsimp only
    rw [hcode]
    rfl

/-- A character of ASCII, where no code point is half read. -/
theorem write_ascii (ch : Char) (hlt : ch.val.toNat < 0x80) (hremaining : t.unicodeRemaining = 0)
    (hescape : t.escape = false) :
    flantermWrite t ((String.utf8EncodeChar ch).map UInt8.toBitVec) =
      some (if ch.val.toNat = 0x18 ∨ ch.val.toNat = 0x1a then t
        else groundPutchar t (BitVec.ofNat 8 ch.val.toNat)) := by
  have hbyte : (BitVec.ofNat 8 ch.val.toNat).toNat = ch.val.toNat := Nat.mod_eq_of_lt (by omega)
  have hsame : { t with unicodeRemaining := 0, escape := false } = t := by rw [← hremaining, ← hescape]
  unfold String.utf8EncodeChar
  dsimp only
  rw [if_pos (show ch.val.toNat ≤ 0x7f by omega)]
  change (flantermPutchar t (BitVec.ofNat 8 ch.val.toNat) >>= fun t => some t) = _
  have htail := ascii_byte ch.val.toNat (by omega)
  generalize BitVec.ofNat 8 ch.val.toNat = c at hbyte htail ⊢
  unfold flantermPutchar
  by_cases hcan : c = 0x18 ∨ c = 0x1a
  · rw [if_pos hcan, if_pos (by bv_omega), hsame]
    rfl
  · rw [if_neg hcan, if_neg fun h => htail h.2, if_neg (by bv_omega), if_neg (by bv_omega), if_neg (by bv_omega),
      hescape, if_neg Bool.false_ne_true, if_neg (by bv_omega), hsame]
    rfl

end Bytes

/-! ### Texts -/

/-- What a character does: a control character its work, another one is printed. -/
def printChar (t : FbText) (ch : Char) : FbText :=
  if ch.val.toNat < 0x80 then
    if ch.val.toNat = 0x18 ∨ ch.val.toNat = 0x1a then t else groundPutchar t (BitVec.ofNat 8 ch.val.toNat)
  else { t with ctx := rawPutchars t.ctx (glyphsOf ch.val.toNat), codePoint := ch.val.toNat }

theorem of_ite {P : FbText → Prop} {p : Prop} [Decidable p] {t t' : FbText} (h : P t) (h' : P t') :
    P (if p then t else t') := by
  split
  · exact h
  · exact h'

/-- Only an escape character ends the text. -/
theorem groundPutchar_text (t : FbText) {c : BitVec 8} (hc : c ≠ 0x1b) :
    (groundPutchar t c).unicodeRemaining = t.unicodeRemaining ∧ (groundPutchar t c).escape = t.escape := by
  have hite {p : Prop} [Decidable p] {s s' : FbText} := @of_ite
    (fun s => s.unicodeRemaining = t.unicodeRemaining ∧ s.escape = t.escape) p _ s s'
  have hsame : t.unicodeRemaining = t.unicodeRemaining ∧ t.escape = t.escape := ⟨rfl, rfl⟩
  unfold groundPutchar
  dsimp only
  rw [if_neg hc]
  exact hite hsame (hite (hite hsame hsame) (hite (hite hsame hsame)
    (hite hsame (hite hsame (hite hsame (hite hsame (hite hsame hsame)))))))

theorem write_char {t : FbText} (hremaining : t.unicodeRemaining = 0) (hescape : t.escape = false) {ch : Char}
    (hch : ch.val.toNat ≠ 0x1b) :
    flantermWrite t ((String.utf8EncodeChar ch).map UInt8.toBitVec) = some (printChar t ch) ∧
      (printChar t ch).unicodeRemaining = 0 ∧ (printChar t ch).escape = false := by
  unfold printChar
  by_cases hascii : ch.val.toNat < 0x80
  · rw [if_pos hascii]
    refine ⟨write_ascii t ch hascii hremaining hescape, ?_⟩
    split
    · exact ⟨hremaining, hescape⟩
    · have hne : BitVec.ofNat 8 ch.val.toNat ≠ 0x1b := by
        intro heq
        have hnat := congrArg BitVec.toNat heq
        rw [BitVec.toNat_ofNat, Nat.mod_eq_of_lt (by omega)] at hnat
        exact hch hnat
      obtain ⟨hr, he⟩ := groundPutchar_text t hne
      exact ⟨hr.trans hremaining, he.trans hescape⟩
  · rw [if_neg hascii]
    refine ⟨(write_codePoint t ch (by omega)).trans ?_, hremaining, hescape⟩
    rw [← hremaining]

/-- The bytes of a text are put together to its characters. -/
theorem write_text (text : List Char) (htext : ∀ ch ∈ text, ch.val.toNat ≠ 0x1b) :
    ∀ t : FbText, t.unicodeRemaining = 0 → t.escape = false →
      flantermWrite t (utf8 text) = some (text.foldl printChar t) := by
  induction text with
  | nil => exact fun t _ _ => rfl
  | cons ch text ih =>
    intro t hremaining hescape
    obtain ⟨hchar, hremaining', hescape'⟩ := write_char hremaining hescape (htext ch (List.mem_cons_self ..))
    have hrest := ih (fun ch' hch' => htext ch' (List.mem_cons_of_mem _ hch')) _ hremaining' hescape'
    have hsplit : flantermWrite t (utf8 (ch :: text)) =
        (flantermWrite t ((String.utf8EncodeChar ch).map UInt8.toBitVec)).bind fun t =>
          flantermWrite t (utf8 text) := by
      unfold utf8 flantermWrite
      rw [List.flatMap_cons, List.foldlM_append]
      rfl
    rw [hsplit, hchar, Option.bind_some, hrest]
    rfl

/-! ### The screen under a text -/

/-- A terminal that is in order, of a certain size. -/
structure InOrder (cols rows : Nat) (ctx : FbContext) : Prop where
  ready : Ready ctx
  cols : ctx.cols = cols
  rows : ctx.rows = rows

section InOrder

variable {cols rows : Nat} {ctx : FbContext}

theorem fbInit_inOrder (hcols : 0 < cols) (hrows : 0 < rows) (textFg textBg : BitVec 32) (shown : Nat → FbChar) :
    InOrder cols rows (fbInit cols rows textFg textBg shown) := by
  obtain ⟨hready, -, hc, hr⟩ := fbInit_ready hcols hrows textFg textBg shown
  exact ⟨hready, hc, hr⟩

theorem InOrder.rawPutchar (h : InOrder cols rows ctx) (c : BitVec 8) : InOrder cols rows (rawPutchar ctx c) := by
  obtain ⟨hready, hplain⟩ := rawPutchar_plain h.ready c
  have hallowed : (FbOp.rawPutchar c).Allowed ctx.plain.cols ctx.plain.rows := trivial
  obtain ⟨hcols, hrows⟩ := onScreen_size hallowed
  exact ⟨hready, ((congrArg (fun t : Plain => t.cols) hplain).trans hcols).trans h.cols,
    ((congrArg (fun t : Plain => t.rows) hplain).trans hrows).trans h.rows⟩

theorem InOrder.rawPutchars (l : List (BitVec 8)) :
    ∀ {ctx}, InOrder cols rows ctx → InOrder cols rows (rawPutchars ctx l) := by
  induction l with
  | nil => exact fun h => h
  | cons c l ih => exact fun h => ih (h.rawPutchar c)

theorem InOrder.printCharacter (h : InOrder cols rows ctx) (hsize : cols < 2 ^ 64) (insertMode : Bool)
    (charset : Charset) (c : BitVec 8) : InOrder cols rows (printCharacter ctx insertMode charset c) := by
  cases insertMode with
  | false => exact h.rawPutchar (printed charset c)
  | true =>
    obtain ⟨hready, hplain⟩ := insertMode_plain h.ready (h.cols.symm ▸ hsize) charset c
    let gap := ctx.plain.openGap (min ctx.cursorX (ctx.cols - 1)) (min ctx.cursorY (ctx.rows - 1))
    have hallowed : (FbOp.rawPutchar (printed charset c)).Allowed gap.cols gap.rows := trivial
    obtain ⟨hcols, hrows⟩ := onScreen_size hallowed
    exact ⟨hready, ((congrArg (fun t : Plain => t.cols) hplain).trans hcols).trans h.cols,
      ((congrArg (fun t : Plain => t.rows) hplain).trans hrows).trans h.rows⟩

theorem InOrder.setCursorPos (h : InOrder cols rows ctx) (x y : Nat) : InOrder cols rows (setCursorPos ctx x y) :=
  ⟨(cursor_plain h.ready _ _).1, h.cols, h.rows⟩

theorem InOrder.scroll (h : InOrder cols rows ctx) : InOrder cols rows (scroll ctx) := by
  have hterm := (scroll_wrote h.ready.sound).toFbTerm
  exact ⟨(scroll_plain h.ready).1, (congrArg FbTerm.cols hterm).trans h.cols,
    (congrArg FbTerm.rows hterm).trans h.rows⟩

theorem InOrder.groundPutchar {t : FbText} (h : InOrder cols rows t.ctx) (hsize : cols < 2 ^ 64) (c : BitVec 8) :
    InOrder cols rows (groundPutchar t c).ctx := by
  have hite {p : Prop} [Decidable p] {s s' : FbText} := @of_ite (fun s => InOrder cols rows s.ctx) p _ s s'
  unfold Terminal.groundPutchar
  dsimp only
  refine hite h (hite h (hite (hite (h.setCursorPos _ _) (h.setCursorPos _ _)) ?_))
  refine hite (hite (h.scroll.setCursorPos _ _) (h.setCursorPos _ _)) (hite (h.setCursorPos _ _) ?_)
  exact hite (h.setCursorPos _ _) (hite h (hite h (hite h (h.printCharacter hsize _ _ _))))

theorem InOrder.printChar {t : FbText} (h : InOrder cols rows t.ctx) (hsize : cols < 2 ^ 64) (ch : Char) :
    InOrder cols rows (printChar t ch).ctx := by
  unfold Terminal.printChar
  split
  · split
    · exact h
    · exact h.groundPutchar hsize _
  · exact h.rawPutchars _

theorem InOrder.foldl_printChar (hsize : cols < 2 ^ 64) (text : List Char) :
    ∀ {t : FbText}, InOrder cols rows t.ctx → InOrder cols rows (text.foldl Terminal.printChar t).ctx := by
  induction text with
  | nil => exact fun h => h
  | cons ch text ih => exact fun h => ih (h.printChar hsize ch)

end InOrder

/-- The state of a new terminal. -/
def textStart (ctx : FbContext) : FbText where
  ctx := ctx
  codePoint := 0
  unicodeRemaining := 0
  escape := false
  insertMode := false
  charsets := (.default, .decSpecial)
  shifted := false
  tabSize := 8
  onlcr := true

/-- **A text does what its characters do**, one after the other: the bytes of UTF-8 are put together to the
characters that they stand for.  The terminal stays in order, and a flush then shows every cell of it. -/
theorem text_shows {cols rows : Nat} (hsize : cols < 2 ^ 64) {t : FbText} (h : InOrder cols rows t.ctx)
    (hremaining : t.unicodeRemaining = 0) (hescape : t.escape = false) (text : List Char)
    (htext : ∀ ch ∈ text, ch.val.toNat ≠ 0x1b) :
    flantermWrite t (utf8 text) = some (text.foldl printChar t) ∧
      InOrder cols rows (text.foldl printChar t).ctx ∧
      ∀ i < rows * cols, (doubleBufferFlush (text.foldl printChar t).ctx).shown i =
        (text.foldl printChar t).ctx.plain.display i := by
  have horder := InOrder.foldl_printChar hsize text h
  refine ⟨write_text text htext t hremaining hescape, horder, fun i hi => ?_⟩
  refine (flush_shows horder.ready).2.2 i ?_
  rw [horder.rows, horder.cols]
  exact hi

/-- Characters of one, two, three and four bytes, and a new line. -/
theorem text_shows_lines :
    let start := fbInit 80 25 7 0 fun _ => { c := 0x20, fg := 7, bg := 0 }
    let text := [Char.ofNat 0x41, Char.ofNat 0xb0, Char.ofNat 0x0a, Char.ofNat 0x20ac, Char.ofNat 0x20000]
    flantermWrite (textStart start) (utf8 text) = some (text.foldl printChar (textStart start)) ∧
      InOrder 80 25 (text.foldl printChar (textStart start)).ctx ∧
      ∀ i < 25 * 80, (doubleBufferFlush (text.foldl printChar (textStart start)).ctx).shown i =
        (text.foldl printChar (textStart start)).ctx.plain.display i := by
  intro start text
  have hstart : InOrder 80 25 start := fbInit_inOrder (by decide) (by decide) 7 0 _
  have htext : ∀ ch ∈ [Char.ofNat 0x41, Char.ofNat 0xb0, Char.ofNat 0x0a, Char.ofNat 0x20ac, Char.ofNat 0x20000],
      ch.val.toNat ≠ 0x1b := by
    simp
  clear_value start
  exact text_shows (show 80 < 2 ^ 64 by norm_num) hstart rfl rfl text htext

end AncoreOS.Terminal
