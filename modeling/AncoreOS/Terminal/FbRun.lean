import AncoreOS.Terminal.FbScreen

/-!
# Runs of the terminal

Between two flushes the terminal writes characters, moves them and scrolls, in any order, and changes its
own fields.  Whatever it did, the queue has room for every cell that waits, and the next flush shows what a
terminal without a queue would have shown (`fb_run_shows`).
-/

namespace AncoreOS.Terminal

open PendingCells

/-! ### The calls -/

/-- The calls of the terminal.  `control` is any change of its own fields: the colours, the cursor, the
margins and the flags. -/
inductive FbOp
  | rawPutchar (c : BitVec 8)
  | clear (move : Bool)
  | setCursorPos (x y : Nat)
  | moveCharacter (newX newY oldX oldY : Nat)
  | scroll
  | revscroll
  | control (term : FbTerm)
  | doubleBufferFlush

namespace FbOp

def exec (op : FbOp) (ctx : FbContext) : FbContext :=
  match op with
  | .rawPutchar c => Terminal.rawPutchar ctx c
  | .clear move => Terminal.clear ctx move
  | .setCursorPos x y => Terminal.setCursorPos ctx x y
  | .moveCharacter newX newY oldX oldY => Terminal.moveCharacter ctx newX newY oldX oldY
  | .scroll => Terminal.scroll ctx
  | .revscroll => Terminal.revscroll ctx
  | .control term => { ctx with toFbTerm := term }
  | .doubleBufferFlush => Terminal.doubleBufferFlush ctx

/-- What a call does to a screen that is drawn at once. -/
def onScreen (op : FbOp) (t : Plain) : Plain :=
  match op with
  | .rawPutchar c => t.putchar c
  | .clear move => t.clear move
  | .setCursorPos x y => t.setCursorPos x y
  | .moveCharacter newX newY oldX oldY => t.moveCharacter newX newY oldX oldY
  | .scroll => t.scroll
  | .revscroll => t.revscroll
  | .control term => { t with toFbTerm := term }
  | .doubleBufferFlush => t

/-- The screen keeps its size, and the margins stay on it. -/
def Allowed (cols rows : Nat) : FbOp → Prop
  | .control term => term.cols = cols ∧ term.rows = rows ∧ term.Valid
  | _ => True

end FbOp

/-! ### One call -/

theorem pushToQueue_plain {ctx : FbContext} (h : Ready ctx) (c : FbChar) (x y : Nat) :
    Ready (pushToQueue ctx c x y) ∧ (pushToQueue ctx c x y).plain = ctx.plain.put c x y := by
  by_cases hin : x < ctx.cols ∧ y < ctx.rows
  · have hwrote := pushToQueue_wrote h.sound c hin.1 hin.2
    exact ⟨hwrote.ready h.drawn, hwrote.plain.trans (if_pos hin).symm⟩
  · rw [pushToQueue_of_ge ctx c hin]
    exact ⟨h, (if_neg hin).symm⟩

theorem scroll_plain {ctx : FbContext} (h : Ready ctx) :
    Ready (scroll ctx) ∧ (scroll ctx).plain = ctx.plain.scroll :=
  ⟨(scroll_wrote h.sound).ready h.drawn, (scroll_wrote h.sound).plain⟩

theorem revscroll_plain {ctx : FbContext} (h : Ready ctx) :
    Ready (revscroll ctx) ∧ (revscroll ctx).plain = ctx.plain.revscroll :=
  ⟨(revscroll_wrote h.sound).ready h.drawn, (revscroll_wrote h.sound).plain⟩

/-- The cursor may be anywhere. -/
theorem cursor_plain {ctx : FbContext} (h : Ready ctx) (x y : Nat) :
    Ready { ctx with cursorX := x, cursorY := y } ∧
      FbContext.plain { ctx with cursorX := x, cursorY := y } = { ctx.plain with cursorX := x, cursorY := y } :=
  ⟨h.control rfl rfl ⟨h.sound.valid.cols_pos, h.sound.valid.top_lt, h.sound.valid.bottom_pos,
    h.sound.valid.bottom_le⟩, control_plain ctx rfl⟩

theorem clear_plain {ctx : FbContext} (h : Ready ctx) (move : Bool) :
    Ready (clear ctx move) ∧ (clear ctx move).plain = ctx.plain.clear move := by
  have hwrote := clear_wrote h.sound
  have hready := hwrote.ready h.drawn
  cases move with
  | false => exact ⟨hready, hwrote.plain⟩
  | true =>
    obtain ⟨hmoved, hplain⟩ := cursor_plain hready 0 0
    refine ⟨hmoved, hplain.trans ?_⟩
    rw [hwrote.plain]
    rfl

theorem moveCharacter_plain {ctx : FbContext} (h : Ready ctx) (newX newY oldX oldY : Nat) :
    Ready (moveCharacter ctx newX newY oldX oldY) ∧
      (moveCharacter ctx newX newY oldX oldY).plain = ctx.plain.moveCharacter newX newY oldX oldY := by
  obtain ⟨hready, hplain⟩ := pushToQueue_plain h (charAt ctx (oldX + oldY * ctx.cols)) newX newY
  rw [charAt_eq] at hplain
  unfold moveCharacter Plain.moveCharacter
  by_cases hold : oldX < ctx.cols ∧ oldY < ctx.rows
  · rw [if_pos (show oldX < ctx.plain.cols ∧ oldY < ctx.plain.rows from hold)]
    by_cases hnew : newX < ctx.cols ∧ newY < ctx.rows
    · rw [if_neg (by omega), charAt_eq]
      exact ⟨charAt_eq ctx _ ▸ hready, hplain⟩
    · rw [if_pos (by omega)]
      exact ⟨h, (if_neg hnew).symm⟩
  · rw [if_neg (show ¬(oldX < ctx.plain.cols ∧ oldY < ctx.plain.rows) from hold), if_pos (by omega)]
    exact ⟨h, rfl⟩

/-- A row beyond the number of columns is taken back to it. -/
theorem clampRow_eq (ctx : FbContext) (hcols : 0 < ctx.cols) :
    (if ctx.cursorY ≥ ctx.cols then { ctx with cursorY := ctx.cols - 1 } else ctx) =
      { ctx with cursorX := ctx.cursorX, cursorY := min ctx.cursorY (ctx.cols - 1) } := by
  by_cases h : ctx.cursorY ≥ ctx.cols
  · rw [if_pos h, Nat.min_eq_right (by omega)]
  · rw [if_neg h, Nat.min_eq_left (by omega)]

theorem wrapCursor_plain {ctx : FbContext} (h : Ready ctx) :
    Ready (wrapCursor ctx) ∧ (wrapCursor ctx).plain = ctx.plain.wrapCursor := by
  have hcols := h.sound.valid.cols_pos
  unfold wrapCursor Plain.wrapCursor
  by_cases hwrap : ctx.cursorX ≥ ctx.cols ∧ (ctx.cursorY < ctx.scrollBottomMargin - 1 ∨ ctx.scrollEnabled = true)
  · rw [if_pos hwrap, if_pos (show ctx.plain.cursorX ≥ ctx.plain.cols ∧
      (ctx.plain.cursorY < ctx.plain.scrollBottomMargin - 1 ∨ ctx.plain.scrollEnabled = true) from hwrap)]
    dsimp only
    rw [show ctx.plain.cursorY = ctx.cursorY from rfl]
    generalize (ctx.cursorY + 1) % 2 ^ 64 = y
    by_cases hbottom : y = ctx.scrollBottomMargin
    · rw [if_pos hbottom, if_pos (show y = ctx.plain.scrollBottomMargin from hbottom)]
      obtain ⟨hready, hplain⟩ := cursor_plain h 0 (y - 1)
      have hterm := (scroll_wrote hready.sound).toFbTerm
      obtain ⟨hready', hplain'⟩ := scroll_plain hready
      generalize scroll { ctx with cursorX := 0, cursorY := y - 1 } = ctx' at hready' hplain' hterm ⊢
      have hcols' : ctx'.cols = ctx.cols := by rw [hterm]
      have hx' : ctx'.cursorX = 0 := by rw [hterm]
      have hy' : ctx'.cursorY = y - 1 := by rw [hterm]
      rw [clampRow_eq ctx' (by omega), hx', hy']
      obtain ⟨hready'', hplain''⟩ := cursor_plain hready' 0 (min (y - 1) (ctx'.cols - 1))
      refine ⟨hready'', hplain''.trans ?_⟩
      rw [hplain', hplain, hcols']
      rfl
    · rw [if_neg hbottom, if_neg (show ¬y = ctx.plain.scrollBottomMargin from hbottom)]
      rw [clampRow_eq { ctx with cursorX := 0, cursorY := y } hcols]
      exact cursor_plain h 0 (min y (ctx.cols - 1))
  · rw [if_neg hwrap, if_neg (show ¬(ctx.plain.cursorX ≥ ctx.plain.cols ∧
      (ctx.plain.cursorY < ctx.plain.scrollBottomMargin - 1 ∨ ctx.plain.scrollEnabled = true)) from hwrap)]
    exact ⟨h, rfl⟩

theorem Plain.put_cursor (t : Plain) (c : FbChar) (x y cursor : Nat) :
    Plain.put { t with cursorX := cursor } c x y = { t.put c x y with cursorX := cursor } := by
  unfold Plain.put
  by_cases h : x < t.cols ∧ y < t.rows
  · rw [if_pos h, if_pos h]
  · rw [if_neg h, if_neg h]

theorem rawPutchar_plain {ctx : FbContext} (h : Ready ctx) (c : BitVec 8) :
    Ready (rawPutchar ctx c) ∧ (rawPutchar ctx c).plain = ctx.plain.putchar c := by
  obtain ⟨hready, hplain⟩ := wrapCursor_plain h
  unfold rawPutchar Plain.putchar
  rw [← hplain]
  generalize wrapCursor ctx = ctx' at hready ⊢
  obtain ⟨hready', hplain'⟩ := cursor_plain hready ((ctx'.cursorX + 1) % 2 ^ 64) ctx'.cursorY
  obtain ⟨hready'', hplain''⟩ := pushToQueue_plain hready'
    { c := c.setWidth 32, fg := ctx'.textFg, bg := ctx'.textBg } ctx'.cursorX ctx'.cursorY
  refine ⟨hready'', hplain''.trans ?_⟩
  rw [hplain']
  exact Plain.put_cursor ctx'.plain _ _ _ _

/-- **A call keeps the invariant**, and does to the characters what it does to a screen that is drawn at
once. -/
theorem exec_plain {ctx : FbContext} (h : Ready ctx) {op : FbOp} (hop : op.Allowed ctx.cols ctx.rows) :
    Ready (op.exec ctx) ∧ (op.exec ctx).plain = op.onScreen ctx.plain := by
  cases op with
  | rawPutchar c => exact rawPutchar_plain h c
  | clear move => exact clear_plain h move
  | setCursorPos x y => exact cursor_plain h (clampCoordinate x ctx.cols) (clampCoordinate y ctx.rows)
  | moveCharacter newX newY oldX oldY => exact moveCharacter_plain h newX newY oldX oldY
  | scroll => exact scroll_plain h
  | revscroll => exact revscroll_plain h
  | control term => exact ⟨h.control hop.1 hop.2.1 hop.2.2, control_plain ctx hop.1⟩
  | doubleBufferFlush => exact ⟨(flush_shows h).1, (flush_shows h).2.1⟩

/-! ### Runs -/

theorem Plain.put_toFbTerm (t : Plain) (c : FbChar) (x y : Nat) : (t.put c x y).toFbTerm = t.toFbTerm := by
  unfold Plain.put
  split <;> rfl

theorem Plain.wrapCursor_size (t : Plain) : t.wrapCursor.cols = t.cols ∧ t.wrapCursor.rows = t.rows := by
  unfold Plain.wrapCursor
  dsimp only
  split_ifs <;> exact ⟨rfl, rfl⟩

/-- The size of the screen stays. -/
theorem onScreen_size {t : Plain} {op : FbOp} (hop : op.Allowed t.cols t.rows) :
    (op.onScreen t).cols = t.cols ∧ (op.onScreen t).rows = t.rows := by
  cases op with
  | rawPutchar c =>
    obtain ⟨hcols, hrows⟩ := t.wrapCursor_size
    rw [← hcols, ← hrows]
    change (Plain.put _ _ _ _).cols = _ ∧ (Plain.put _ _ _ _).rows = _
    rw [Plain.put_toFbTerm]
    exact ⟨rfl, rfl⟩
  | clear move => cases move <;> exact ⟨rfl, rfl⟩
  | setCursorPos x y => exact ⟨rfl, rfl⟩
  | moveCharacter newX newY oldX oldY =>
    change (Plain.moveCharacter t _ _ _ _).cols = _ ∧ (Plain.moveCharacter t _ _ _ _).rows = _
    unfold Plain.moveCharacter
    split
    · rw [Plain.put_toFbTerm]
      exact ⟨rfl, rfl⟩
    · exact ⟨rfl, rfl⟩
  | scroll => exact ⟨rfl, rfl⟩
  | revscroll => exact ⟨rfl, rfl⟩
  | control term => exact ⟨hop.1, hop.2.1⟩
  | doubleBufferFlush => exact ⟨rfl, rfl⟩

def run (ops : List FbOp) (ctx : FbContext) : FbContext := ops.foldl (fun ctx op => op.exec ctx) ctx

def runOnScreen (ops : List FbOp) (t : Plain) : Plain := ops.foldl (fun t op => op.onScreen t) t

theorem run_plain (ops : List FbOp) : ∀ {ctx : FbContext}, Ready ctx →
    (∀ op ∈ ops, op.Allowed ctx.cols ctx.rows) →
    Ready (run ops ctx) ∧ (run ops ctx).plain = runOnScreen ops ctx.plain ∧
      (run ops ctx).cols = ctx.cols ∧ (run ops ctx).rows = ctx.rows := by
  induction ops with
  | nil => exact fun h _ => ⟨h, rfl, rfl, rfl⟩
  | cons op ops ih =>
    intro ctx h hops
    have hop := hops op (List.mem_cons_self ..)
    obtain ⟨hready, hplain⟩ := exec_plain h hop
    have hsize := onScreen_size (show op.Allowed ctx.plain.cols ctx.plain.rows from hop)
    have hcols : (op.exec ctx).cols = ctx.cols := by
      rw [← hplain] at hsize
      exact hsize.1
    have hrows : (op.exec ctx).rows = ctx.rows := by
      rw [← hplain] at hsize
      exact hsize.2
    obtain ⟨hrun, hruns, hc, hr⟩ := ih hready fun op' hop' => by
      rw [hcols, hrows]
      exact hops op' (List.mem_cons_of_mem _ hop')
    rw [hplain] at hruns
    exact ⟨hrun, hruns, hc.trans hcols, hr.trans hrows⟩

/-! ### The new terminal -/

/-- The blank screen of a new terminal. -/
def blankScreen (cols rows : Nat) (textFg textBg : BitVec 32) : Plain where
  cols := cols
  rows := rows
  scrollTopMargin := 0
  scrollBottomMargin := rows
  scrollEnabled := true
  cursorEnabled := true
  textFg := textFg
  textBg := textBg
  cursorX := 0
  cursorY := 0
  cells := fun _ => { c := 0x20, fg := textFg, bg := textBg }

/-- The loop of `full_refresh` draws every cell that it comes to. -/
theorem foldl_plot_shown (l : List Nat) {cols rows : Nat} (hcols : 0 < cols) (hl : ∀ i ∈ l, i < rows * cols) :
    ∀ ctx : FbContext, ctx.cols = cols → ctx.rows = rows →
      ∃ shown, l.foldl (fun ctx' i => plotChar ctx' (ctx'.grid i) (i % cols) (i / cols)) ctx =
          { ctx with shown := shown } ∧
        ∀ i, i ∈ l ∨ ctx.shown i = ctx.grid i → shown i = ctx.grid i := by
  induction l with
  | nil =>
    intro ctx _ _
    refine ⟨ctx.shown, rfl, fun i hi => ?_⟩
    exact hi.resolve_left (List.not_mem_nil)
  | cons k l ih =>
    intro ctx hc hr
    have hk := hl k (List.mem_cons_self ..)
    have hplot : plotChar ctx (ctx.grid k) (k % cols) (k / cols) =
        { ctx with shown := Function.update ctx.shown k (ctx.grid k) } := by
      have hx : k % cols < ctx.cols := hc.symm ▸ Nat.mod_lt k hcols
      have hy : k / cols < ctx.rows := hr.symm ▸ (Nat.div_lt_iff_lt_mul hcols).mpr hk
      rw [plotChar_of_lt ctx _ hx hy, hc, Nat.add_comm, div_mod_offset]
    rw [List.foldl_cons, hplot]
    obtain ⟨shown, heq, hshown⟩ := ih (fun i hi => hl i (List.mem_cons_of_mem _ hi))
      { ctx with shown := Function.update ctx.shown k (ctx.grid k) } hc hr
    refine ⟨shown, heq, fun i hi => hshown i ?_⟩
    by_cases hik : i = k
    · rw [hik]
      exact Or.inr (Function.update_self ..)
    · refine hi.imp (fun hmem => (List.mem_cons.mp hmem).resolve_left hik) fun hold => ?_
      exact (Function.update_of_ne hik ..).trans hold

/-- Where nothing waits, the cursor is all that is drawn. -/
theorem drawCursor_of_none {ctx : FbContext} (hx : ctx.cursorX < ctx.cols) (hy : ctx.cursorY < ctx.rows)
    (hmap : ctx.map (ctx.cursorX + ctx.cursorY * ctx.cols) = none) :
    drawCursor ctx = { ctx with
      shown := Function.update ctx.shown (ctx.cursorX + ctx.cursorY * ctx.cols)
        (invert (ctx.grid (ctx.cursorX + ctx.cursorY * ctx.cols))) } := by
  have hchar : charAt ctx (ctx.cursorX + ctx.cursorY * ctx.cols) =
      ctx.grid (ctx.cursorX + ctx.cursorY * ctx.cols) := by
    rw [charAt, hmap]
  unfold drawCursor
  rw [if_neg (by omega)]
  dsimp only
  rw [hmap, hchar, plotChar_of_lt ctx _ hx hy]

/-- A new terminal has drawn the cells of its grid, and then the cursor. -/
theorem fbInit_eq {cols : Nat} (hcols : 0 < cols) (rows : Nat) (textFg textBg : BitVec 32) (shown : Nat → FbChar) :
    ∃ drawn, (∀ i < rows * cols, drawn i = (fbStart cols rows textFg textBg shown).grid i) ∧
      fbInit cols rows textFg textBg shown =
        drawCursor { fbStart cols rows textFg textBg shown with shown := drawn } := by
  obtain ⟨drawn, hplots, hdrawn⟩ := foldl_plot_shown (List.range (rows * cols)) hcols
    (fun i hi => List.mem_range.mp hi) (fbStart cols rows textFg textBg shown) rfl rfl
  refine ⟨drawn, fun i hi => hdrawn i (Or.inl (List.mem_range.mpr hi)), ?_⟩
  rw [← hplots]
  exact if_pos (congrArg FbTerm.cursorEnabled (congrArg FbContext.toFbTerm hplots))

theorem fbInit_ready {cols rows : Nat} (hcols : 0 < cols) (hrows : 0 < rows) (textFg textBg : BitVec 32)
    (shown : Nat → FbChar) :
    Ready (fbInit cols rows textFg textBg shown) ∧
      (fbInit cols rows textFg textBg shown).plain = blankScreen cols rows textFg textBg ∧
      (fbInit cols rows textFg textBg shown).cols = cols ∧ (fbInit cols rows textFg textBg shown).rows = rows := by
  obtain ⟨drawn, hdrawn, hinit⟩ := fbInit_eq hcols rows textFg textBg shown
  rw [hinit, drawCursor_of_none hcols hrows rfl]
  refine ⟨⟨⟨⟨hcols, hrows, hrows, le_rfl⟩, Buffer.sound_empty _, fun _ hi => by cases hi⟩, ?_⟩, rfl, rfl, rfl⟩
  intro i hi _
  by_cases hzero : i = 0 + 0 * cols
  · exact Or.inr ⟨hcols, hrows, hzero⟩
  · left
    exact (Function.update_of_ne hzero ..).trans (hdrawn i hi)

/-- **Whatever the terminal did, its queue has room for every cell that waits, and a flush shows the
screen**: every cell its character, and the cursor its cell with the colours exchanged. -/
theorem fb_run_shows {cols rows : Nat} (hcols : 0 < cols) (hrows : 0 < rows) (textFg textBg : BitVec 32)
    (shown : Nat → FbChar) (ops : List FbOp) (hops : ∀ op ∈ ops, op.Allowed cols rows) :
    (run ops (fbInit cols rows textFg textBg shown)).queue.length ≤ rows * cols ∧
      ∀ i < rows * cols, (doubleBufferFlush (run ops (fbInit cols rows textFg textBg shown))).shown i =
        (runOnScreen ops (blankScreen cols rows textFg textBg)).display i := by
  obtain ⟨hinit, hplain, hc, hr⟩ := fbInit_ready hcols hrows textFg textBg shown
  obtain ⟨hready, hrun, hcols', hrows'⟩ := run_plain ops hinit (by rw [hc, hr]; exact hops)
  rw [hplain] at hrun
  rw [hc] at hcols'
  rw [hr] at hrows'
  obtain ⟨-, -, hshows⟩ := flush_shows hready
  rw [hrun, hcols', hrows'] at hshows
  refine ⟨?_, hshows⟩
  have hlength := hready.sound.buffer.length_le
  rw [hcols', hrows'] at hlength
  exact (List.length_map ..).symm.le.trans hlength

/-- Two characters on a screen of one row, with a flush between them. -/
theorem fb_run_shows_row :
    let ops : List FbOp := [.rawPutchar 0x41, .doubleBufferFlush, .scroll, .rawPutchar 0x42]
    let blank : FbChar := { c := 0x20, fg := 7, bg := 0 }
    (run ops (fbInit 3 1 7 0 fun _ => blank)).queue.length ≤ 1 * 3 ∧
      ∀ i < 1 * 3, (doubleBufferFlush (run ops (fbInit 3 1 7 0 fun _ => blank))).shown i =
        (runOnScreen ops (blankScreen 3 1 7 0)).display i := by
  intro ops blank
  refine fb_run_shows (by decide) (by decide) 7 0 (fun _ => blank) ops ?_
  simp [ops, FbOp.Allowed]

/-! ### The row behind the last -/

theorem Plain.wrapCursor_cursorY (t : Plain) :
    t.wrapCursor.cursorY =
      if t.cursorX ≥ t.cols ∧ (t.cursorY < t.scrollBottomMargin - 1 ∨ t.scrollEnabled = true) then
        if (t.cursorY + 1) % 2 ^ 64 = t.scrollBottomMargin then
          min ((t.cursorY + 1) % 2 ^ 64 - 1) (t.cols - 1)
        else min ((t.cursorY + 1) % 2 ^ 64) (t.cols - 1)
      else t.cursorY := by
  unfold Plain.wrapCursor
  dsimp only
  split_ifs <;> rfl

theorem rawPutchar_cursorY {ctx : FbContext} (h : Ready ctx) (c : BitVec 8) :
    (rawPutchar ctx c).cursorY =
      if ctx.cursorX ≥ ctx.cols ∧ (ctx.cursorY < ctx.scrollBottomMargin - 1 ∨ ctx.scrollEnabled = true) then
        if (ctx.cursorY + 1) % 2 ^ 64 = ctx.scrollBottomMargin then
          min ((ctx.cursorY + 1) % 2 ^ 64 - 1) (ctx.cols - 1)
        else min ((ctx.cursorY + 1) % 2 ^ 64) (ctx.cols - 1)
      else ctx.cursorY := by
  have hplain := congrArg (fun t : Plain => t.cursorY) (rawPutchar_plain h c).2
  refine Eq.trans hplain (Eq.trans ?_ ctx.plain.wrapCursor_cursorY)
  change (Plain.put _ _ _ _).cursorY = _
  rw [Plain.put_toFbTerm]

/-- **A character leaves the cursor on the screen**, from wherever it is there, exactly if the screen has no
more columns than rows, or only one row. -/
theorem putchar_on_screen_iff {cols rows : Nat} (hcols : 0 < cols) (hrows : 0 < rows) (hsize : rows < 2 ^ 64) :
    (∀ ctx c, Ready ctx → ctx.cols = cols → ctx.rows = rows → ctx.cursorY < rows →
      (rawPutchar ctx c).cursorY < rows) ↔ cols ≤ rows ∨ rows = 1 := by
  constructor
  · intro hall
    by_contra hnot
    -- The cursor is below a region of one row, and behind the last column of the last row.
    obtain ⟨ctx, hready, hc, hr, hx, hy, hbottom, henabled⟩ : ∃ ctx, Ready ctx ∧ ctx.cols = cols ∧
        ctx.rows = rows ∧ ctx.cursorX = cols ∧ ctx.cursorY = rows - 1 ∧ ctx.scrollBottomMargin = 1 ∧
        ctx.scrollEnabled = true := by
      let term : FbTerm :=
        { (blankScreen cols rows 7 0).toFbTerm with scrollBottomMargin := 1, cursorX := cols, cursorY := rows - 1 }
      let blank : FbChar := { c := 0x20, fg := 7, bg := 0 }
      obtain ⟨hinit, -, hc, hr⟩ := fbInit_ready hcols hrows 7 0 fun _ => blank
      exact ⟨_, hinit.control (show term.cols = _ from hc.symm) (show term.rows = _ from hr.symm)
        ⟨hcols, hrows, Nat.one_pos, hrows⟩, rfl, rfl, rfl, rfl, rfl, rfl⟩
    have hlt := hall ctx 0x41 hready hc hr (by omega)
    rw [rawPutchar_cursorY hready, if_pos ⟨by omega, Or.inr henabled⟩, if_neg (by omega)] at hlt
    omega
  · rintro hor ctx c h rfl rfl hy
    have hbottom := h.sound.valid.bottom_pos
    have hle := h.sound.valid.bottom_le
    rw [rawPutchar_cursorY h]
    split_ifs <;> omega

theorem putchar_leaves_screen :
    ¬∀ ctx c, Ready ctx → ctx.cols = 80 → ctx.rows = 25 → ctx.cursorY < 25 → (rawPutchar ctx c).cursorY < 25 := by
  intro hall
  have hsize := (putchar_on_screen_iff (by decide) (by decide) (by decide)).mp hall
  omega

end AncoreOS.Terminal
