import Mathlib.Data.List.Basic
import AncoreOS.Terminal.FbRun

/-!
# Printing (`src/kernel/terminal/src/flanterm.c`)

The end of `flanterm_putchar`.  In insert mode it moves the rest of the row by one column before it prints,
from the last column down to that of the cursor.

So a character goes between those of its row, and the last one is lost (`print_inserts`).  Behind the last
column `get_cursor_pos` gives the last one, and nothing is moved: the character then overwrites one of the
next row.
-/

namespace AncoreOS.Terminal

def getCursorPos (ctx : FbContext) : Nat × Nat :=
  (if ctx.cursorX ≥ ctx.cols then ctx.cols - 1 else ctx.cursorX,
    if ctx.cursorY ≥ ctx.rows then ctx.rows - 1 else ctx.cursorY)

/-- The loop of `flanterm_putchar` in insert mode, from column `i` down. -/
def insertLoop (ctx : FbContext) (x : BitVec 64) (y : Nat) (i : BitVec 64) : FbContext :=
  let moved := moveCharacter ctx (i + 1).toNat y i.toNat y
  if i = x then moved else insertLoop moved x y (i - 1)
termination_by (i - x).toNat
decreasing_by bv_omega

inductive Charset
  | default
  | decSpecial
  deriving DecidableEq

/-- The characters of `dec_special_print`, and what is printed for them. -/
def decSpecial : List (BitVec 8 × BitVec 8) :=
  [(0x60, 0x04), (0x30, 0xdb), (0x2d, 0x18), (0x2c, 0x1b), (0x2e, 0x19), (0x61, 0xb1), (0x66, 0xf8),
    (0x67, 0xf1), (0x68, 0xb0), (0x6a, 0xd9), (0x6b, 0xbf), (0x6c, 0xda), (0x6d, 0xc0), (0x6e, 0xc5),
    (0x71, 0xc4), (0x73, 0x5f), (0x74, 0xc3), (0x75, 0xb4), (0x76, 0xc1), (0x77, 0xc2), (0x78, 0xb3),
    (0x79, 0xf3), (0x7a, 0xf2), (0x7e, 0xfa), (0x5f, 0xff), (0x2b, 0x1a), (0x7b, 0xe3), (0x7d, 0x9c)]

/-- What is printed for a character. -/
def printed (charset : Charset) (c : BitVec 8) : BitVec 8 :=
  let plain := if 0x20 ≤ c ∧ c ≤ 0x7e then c else 0xfe
  match charset with
  | .default => plain
  | .decSpecial => (decSpecial.lookup c).getD plain

/-- The end of `flanterm_putchar`, for a character that is no control character. -/
def printCharacter (ctx : FbContext) (insertMode : Bool) (charset : Charset) (c : BitVec 8) : FbContext :=
  let pos := getCursorPos ctx
  let ctx :=
    if insertMode then insertLoop ctx (BitVec.ofNat 64 pos.1) pos.2 (BitVec.ofNat 64 (ctx.cols - 1)) else ctx
  rawPutchar ctx (printed charset c)

/-! ### The row is moved -/

namespace Plain

/-- The characters of a row. -/
def row (t : Plain) (y : Nat) : List FbChar := (List.range t.cols).map fun x => t.cells (y * t.cols + x)

/-- The rest of row `y` from column `x` on is moved by one column. -/
def openGap (t : Plain) (x y : Nat) : Plain :=
  { t with cells := fun k => if y * t.cols + x < k ∧ k < (y + 1) * t.cols then t.cells (k - 1) else t.cells k }

theorem openGap_last (t : Plain) {x y : Nat} (hx : t.cols ≤ x + 1) : t.openGap x y = t := by
  have hcells : (fun k => if y * t.cols + x < k ∧ k < (y + 1) * t.cols then t.cells (k - 1) else t.cells k) =
      t.cells := by
    funext k
    rw [Nat.succ_mul]
    exact if_neg (by omega)
  unfold openGap
  rw [hcells]

/-- One more column of the gap. -/
theorem openGap_move (t : Plain) {i y : Nat} (hi : i < t.cols) (hy : y < t.rows) :
    (t.openGap (i + 1) y).moveCharacter (i + 1) y i y = t.openGap i y := by
  unfold moveCharacter
  rw [if_pos (show i < (t.openGap (i + 1) y).cols ∧ y < (t.openGap (i + 1) y).rows from ⟨hi, hy⟩)]
  unfold put
  by_cases hnext : i + 1 < t.cols
  · rw [if_pos (show i + 1 < (t.openGap (i + 1) y).cols ∧ y < (t.openGap (i + 1) y).rows from ⟨hnext, hy⟩)]
    have hcells : Function.update (t.openGap (i + 1) y).cells (y * t.cols + (i + 1))
        ((t.openGap (i + 1) y).cells (i + y * t.cols)) = (t.openGap i y).cells := by
      funext k
      have hrow : (y + 1) * t.cols = y * t.cols + t.cols := Nat.succ_mul ..
      have hmoved : (t.openGap (i + 1) y).cells (i + y * t.cols) = t.cells (i + y * t.cols) := if_neg (by omega)
      rw [hmoved]
      by_cases hk : k = y * t.cols + (i + 1)
      · rw [hk, Function.update_self]
        refine Eq.symm ((if_pos (by omega)).trans ?_)
        congr 1
        omega
      · rw [Function.update_of_ne hk]
        exact if_congr (by omega) rfl rfl
    exact congrArg (fun cells => ({ t with cells := cells } : Plain)) hcells
  · rw [if_neg (show ¬(i + 1 < (t.openGap (i + 1) y).cols ∧ y < (t.openGap (i + 1) y).rows) from
      fun h => hnext h.1), openGap_last t (by omega), openGap_last t (by omega)]

end Plain

/-- One round of the loop. -/
theorem insertLoop_move {t : Plain} {ctx : FbContext} (h : Ready ctx) {i y : Nat}
    (hplain : ctx.plain = t.openGap (i + 1) y) (hi : i < t.cols) (hy : y < t.rows) (hsize : t.cols < 2 ^ 64) :
    Ready (moveCharacter ctx (BitVec.ofNat 64 i + 1).toNat y (BitVec.ofNat 64 i).toNat y) ∧
      (moveCharacter ctx (BitVec.ofNat 64 i + 1).toNat y (BitVec.ofNat 64 i).toNat y).plain = t.openGap i y := by
  have hold : (BitVec.ofNat 64 i).toNat = i := Nat.mod_eq_of_lt (by omega)
  have hnew : (BitVec.ofNat 64 i + 1).toNat = i + 1 := by
    rw [BitVec.toNat_add, hold]
    exact Nat.mod_eq_of_lt (by change i + 1 < 2 ^ 64; omega)
  obtain ⟨hready, hmoved⟩ := moveCharacter_plain h (i + 1) y i y
  rw [hold, hnew]
  rw [hplain, Plain.openGap_move t hi hy] at hmoved
  exact ⟨hready, hmoved⟩

/-- The loop ends at column `x`, and leaves a gap there. -/
theorem insertLoop_plain {t : Plain} {x y : Nat} (hy : y < t.rows) (hsize : t.cols < 2 ^ 64) (n : Nat) :
    ∀ {ctx : FbContext}, Ready ctx → ctx.plain = t.openGap (x + n + 1) y → x + n < t.cols →
      Ready (insertLoop ctx (BitVec.ofNat 64 x) y (BitVec.ofNat 64 (x + n))) ∧
        (insertLoop ctx (BitVec.ofNat 64 x) y (BitVec.ofNat 64 (x + n))).plain = t.openGap x y := by
  induction n with
  | zero =>
    intro ctx h hplain hx
    rw [insertLoop, Nat.add_zero, if_pos rfl]
    exact insertLoop_move h hplain hx hy hsize
  | succ n ih =>
    intro ctx h hplain hx
    obtain ⟨hready, hmoved⟩ := insertLoop_move h hplain hx hy hsize
    have hne : BitVec.ofNat 64 (x + (n + 1)) ≠ BitVec.ofNat 64 x := by
      intro heq
      have hnat := congrArg BitVec.toNat heq
      rw [BitVec.toNat_ofNat, BitVec.toNat_ofNat, Nat.mod_eq_of_lt (by omega), Nat.mod_eq_of_lt (by omega)] at hnat
      omega
    have hpred : BitVec.ofNat 64 (x + (n + 1)) - 1 = BitVec.ofNat 64 (x + n) := by
      rw [← Nat.add_assoc, BitVec.ofNat_add]
      exact BitVec.add_sub_cancel ..
    rw [insertLoop, if_neg hne, hpred]
    exact ih hready hmoved (by omega)

/-- **Insert mode opens a gap** at the place that `get_cursor_pos` gives. -/
theorem insertMode_plain {ctx : FbContext} (h : Ready ctx) (hsize : ctx.cols < 2 ^ 64) (charset : Charset)
    (c : BitVec 8) :
    Ready (printCharacter ctx true charset c) ∧
      (printCharacter ctx true charset c).plain =
        (ctx.plain.openGap (min ctx.cursorX (ctx.cols - 1)) (min ctx.cursorY (ctx.rows - 1))).putchar
          (printed charset c) := by
  have hcols := h.sound.valid.cols_pos
  have hrows := Nat.zero_lt_of_lt h.sound.valid.top_lt
  have hpos : getCursorPos ctx = (min ctx.cursorX (ctx.cols - 1), min ctx.cursorY (ctx.rows - 1)) := by
    unfold getCursorPos
    ext <;> dsimp only <;> split <;> omega
  obtain ⟨hready, hgap⟩ := insertLoop_plain (t := ctx.plain) (x := min ctx.cursorX (ctx.cols - 1))
    (y := min ctx.cursorY (ctx.rows - 1)) (show _ < ctx.rows by omega) hsize
    (ctx.cols - 1 - min ctx.cursorX (ctx.cols - 1)) h
    (Plain.openGap_last ctx.plain (show ctx.cols ≤ _ by omega)).symm (show _ < ctx.cols by omega)
  have hfirst : min ctx.cursorX (ctx.cols - 1) + (ctx.cols - 1 - min ctx.cursorX (ctx.cols - 1)) = ctx.cols - 1 := by
    omega
  rw [hfirst] at hready hgap
  obtain ⟨hready', hprinted⟩ := rawPutchar_plain hready (printed charset c)
  rw [hgap] at hprinted
  unfold printCharacter
  dsimp only
  rw [hpos, if_pos rfl]
  exact ⟨hready', hprinted⟩

/-! ### What is printed -/

/-- The row of a gap in which a character stands. -/
theorem Plain.row_insert (t : Plain) {x y : Nat} (hx : x < t.cols) (hy : y < t.rows) (c : FbChar) :
    ((t.openGap x y).put c x y).row y = ((t.row y).insertIdx x c).take t.cols := by
  have hput : ((t.openGap x y).put c x y).cells =
      Function.update (t.openGap x y).cells (y * t.cols + x) c := by
    unfold put
    rw [if_pos (show x < (t.openGap x y).cols ∧ y < (t.openGap x y).rows from ⟨hx, hy⟩)]
    rfl
  have hcols : ((t.openGap x y).put c x y).cols = t.cols := by
    rw [put_toFbTerm]
    rfl
  have hlength : (t.row y).length = t.cols := by rw [row, List.length_map, List.length_range]
  unfold row at hlength ⊢
  rw [hcols, hput]
  refine List.ext_getElem ?_ fun j hj hj' => ?_
  · rw [List.length_take, List.length_insertIdx, hlength, List.length_map, List.length_range]
    split <;> omega
  rw [List.length_map, List.length_range] at hj
  rw [List.getElem_take, List.getElem_insertIdx, List.getElem_map, List.getElem_range]
  have hrow : (y + 1) * t.cols = y * t.cols + t.cols := Nat.succ_mul ..
  by_cases hjx : j < x
  · rw [dif_pos hjx, List.getElem_map, List.getElem_range, Function.update_of_ne (by omega)]
    exact if_neg (by omega)
  · rw [dif_neg hjx]
    by_cases heq : j = x
    · rw [dif_pos heq, heq, Function.update_self]
    · rw [dif_neg heq, List.getElem_map, List.getElem_range, Function.update_of_ne (by omega)]
      refine (if_pos (by omega)).trans ?_
      congr 1
      omega

/-- The other rows stay. -/
theorem Plain.row_insert_of_ne (t : Plain) {x y y' : Nat} (hx : x < t.cols) (hy : y < t.rows) (hne : y' ≠ y)
    (c : FbChar) : ((t.openGap x y).put c x y).row y' = t.row y' := by
  unfold row put
  rw [if_pos (show x < (t.openGap x y).cols ∧ y < (t.openGap x y).rows from ⟨hx, hy⟩)]
  refine List.map_congr_left fun j hj => ?_
  have hj' : j < t.cols := List.mem_range.mp hj
  have hrow : (y + 1) * t.cols = y * t.cols + t.cols := Nat.succ_mul ..
  have hapart : y' * t.cols + t.cols ≤ y * t.cols ∨ (y + 1) * t.cols ≤ y' * t.cols := by
    rcases Nat.lt_or_gt_of_ne hne with hlt | hgt
    · exact Or.inl (Nat.succ_mul y' t.cols ▸ Nat.mul_le_mul_right t.cols hlt)
    · exact Or.inr (Nat.mul_le_mul_right t.cols hgt)
  change Function.update (t.openGap x y).cells (y * t.cols + x) c (y' * t.cols + j) = t.cells (y' * t.cols + j)
  rw [Function.update_of_ne (by omega)]
  exact if_neg (by omega)

theorem Plain.putchar_row {t : Plain} (hx : t.cursorX < t.cols) (c : BitVec 8) (y : Nat) :
    (t.putchar c).row y =
      (t.put { c := c.setWidth 32, fg := t.textFg, bg := t.textBg } t.cursorX t.cursorY).row y := by
  have hwrap : t.wrapCursor = t := if_neg fun h => by omega
  unfold putchar
  rw [hwrap]
  rfl

/-- **In insert mode a character goes between those of its row**: the cell of the cursor gets it, the cells from
there on get those before them, the last one is lost and the other rows stay.  Behind the last column
insert mode does nothing. -/
theorem print_inserts {ctx : FbContext} (h : Ready ctx) (hsize : ctx.cols < 2 ^ 64) (charset : Charset)
    (c : BitVec 8) :
    (ctx.cursorX < ctx.cols → ctx.cursorY < ctx.rows →
      (printCharacter ctx true charset c).plain.row ctx.cursorY =
          ((ctx.plain.row ctx.cursorY).insertIdx ctx.cursorX
            { c := (printed charset c).setWidth 32, fg := ctx.textFg, bg := ctx.textBg }).take ctx.cols ∧
        ∀ y, y ≠ ctx.cursorY → (printCharacter ctx true charset c).plain.row y = ctx.plain.row y) ∧
      (ctx.cols ≤ ctx.cursorX →
        (printCharacter ctx true charset c).plain = (printCharacter ctx false charset c).plain) := by
  obtain ⟨-, hplain⟩ := insertMode_plain h hsize charset c
  rw [hplain]
  constructor
  · intro hx hy
    rw [Nat.min_eq_left (by omega), Nat.min_eq_left (by omega)]
    have hrows : ∀ y, ((ctx.plain.openGap ctx.cursorX ctx.cursorY).putchar (printed charset c)).row y = _ :=
      Plain.putchar_row (t := ctx.plain.openGap ctx.cursorX ctx.cursorY) hx (printed charset c)
    refine ⟨(hrows _).trans (ctx.plain.row_insert hx hy _), fun y hne => ?_⟩
    exact (hrows y).trans (ctx.plain.row_insert_of_ne hx hy hne _)
  · intro hx
    rw [Plain.openGap_last ctx.plain (show ctx.cols ≤ _ by omega)]
    exact (rawPutchar_plain h (printed charset c)).2.symm

/-- A character on a new screen of two rows. -/
theorem print_inserts_start :
    let ctx := fbInit 3 2 7 0 fun _ => { c := 0x20, fg := 7, bg := 0 }
    (ctx.cursorX < ctx.cols → ctx.cursorY < ctx.rows →
      (printCharacter ctx true .decSpecial 0x71).plain.row ctx.cursorY =
          ((ctx.plain.row ctx.cursorY).insertIdx ctx.cursorX
            { c := (printed .decSpecial 0x71).setWidth 32, fg := ctx.textFg, bg := ctx.textBg }).take ctx.cols ∧
        ∀ y, y ≠ ctx.cursorY → (printCharacter ctx true .decSpecial 0x71).plain.row y = ctx.plain.row y) ∧
      (ctx.cols ≤ ctx.cursorX →
        (printCharacter ctx true .decSpecial 0x71).plain = (printCharacter ctx false .decSpecial 0x71).plain) := by
  obtain ⟨hready, -, hcols, -⟩ := fbInit_ready (show 0 < 3 by decide) (show 0 < 2 by decide) 7 0
    fun _ => { c := 0x20, fg := 7, bg := 0 }
  exact print_inserts hready (by rw [hcols]; decide) .decSpecial 0x71

end AncoreOS.Terminal
