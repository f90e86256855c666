import AncoreOS.Library.PendingCells

/-!
# The cells of the terminal

`kernel/terminal/src/flanterm_backends/fb.c` keeps a grid of characters, and draws a cell only when the
terminal is flushed: `push_to_queue` puts the new character of a cell into a queue, `map` points to the
entry of a cell, and `double_buffer_flush` draws the entries.

`shown` is what `plot_char` drew last in a cell; `FbPixels` has the pixels.  The entries of the
queue from `queue_i` on are not in the list.
-/

namespace AncoreOS.Terminal

structure FbChar where
  c : BitVec 32
  fg : BitVec 32
  bg : BitVec 32
  deriving DecidableEq

structure FbQueueItem where
  x : Nat
  y : Nat
  c : FbChar

/-- The fields of the terminal and of the text. -/
structure FbTerm where
  cols : Nat
  rows : Nat
  scrollTopMargin : Nat
  scrollBottomMargin : Nat
  scrollEnabled : Bool
  cursorEnabled : Bool
  textFg : BitVec 32
  textBg : BitVec 32
  cursorX : Nat
  cursorY : Nat

/-- What the functions below read and write of the context. -/
structure FbContext extends FbTerm where
  grid : Nat → FbChar
  queue : List FbQueueItem
  map : Nat → Option Nat
  oldCursorX : Nat
  oldCursorY : Nat
  shown : Nat → FbChar

/-- The entry of a cell, if it has one, or its character in the grid. -/
def charAt (ctx : FbContext) (i : Nat) : FbChar :=
  match ctx.map i with
  | some q =>
      match ctx.queue[q]? with
      | some item => item.c
      | none => ctx.grid i
  | none => ctx.grid i

/-- `plot_char`. -/
def plotChar (ctx : FbContext) (c : FbChar) (x y : Nat) : FbContext :=
  if x ≥ ctx.cols ∨ y ≥ ctx.rows then ctx
  else { ctx with shown := Function.update ctx.shown (x + y * ctx.cols) c }

def pushToQueue (ctx : FbContext) (c : FbChar) (x y : Nat) : FbContext :=
  if x ≥ ctx.cols ∨ y ≥ ctx.rows then ctx
  else
    let i := y * ctx.cols + x
    match ctx.map i with
    | some q => { ctx with queue := ctx.queue.modify q fun item => { item with c := c } }
    | none =>
        if ctx.grid i = c then ctx
        else
          { ctx with
            queue := ctx.queue ++ [{ x := x, y := y, c := c }]
            map := Function.update ctx.map i (some ctx.queue.length) }

/-- A blank in the colours of the text. -/
def emptyChar (term : FbTerm) : FbChar := { c := 0x20, fg := term.textFg, bg := term.textBg }

/-- The loop of `revscroll`, for the cells below `n`. -/
def revscrollCells (ctx : FbContext) : Nat → FbContext
  | 0 => ctx
  | i + 1 =>
      if i ≥ ctx.scrollTopMargin * ctx.cols then
        revscrollCells (pushToQueue ctx (charAt ctx i) ((i + ctx.cols) % ctx.cols) ((i + ctx.cols) / ctx.cols)) i
      else ctx

def blankRow (ctx : FbContext) (y : Nat) : FbContext :=
  (List.range ctx.cols).foldl (fun ctx' i => pushToQueue ctx' (emptyChar ctx.toFbTerm) i y) ctx

def revscroll (ctx : FbContext) : FbContext :=
  let moved := revscrollCells ctx ((ctx.scrollBottomMargin - 1) * ctx.cols)
  blankRow moved moved.scrollTopMargin

/-- The loop of `scroll`, for `n` cells from `i` on. -/
def scrollCells (ctx : FbContext) (i : Nat) : Nat → FbContext
  | 0 => ctx
  | n + 1 =>
      scrollCells (pushToQueue ctx (charAt ctx i) ((i - ctx.cols) % ctx.cols) ((i - ctx.cols) / ctx.cols)) (i + 1) n

def scroll (ctx : FbContext) : FbContext :=
  let first := (ctx.scrollTopMargin + 1) * ctx.cols
  let moved := scrollCells ctx first (ctx.scrollBottomMargin * ctx.cols - first)
  blankRow moved (moved.scrollBottomMargin - 1)

def clear (ctx : FbContext) (move : Bool) : FbContext :=
  let blank := (List.range (ctx.rows * ctx.cols)).foldl
    (fun ctx' i => pushToQueue ctx' (emptyChar ctx.toFbTerm) (i % ctx.cols) (i / ctx.cols)) ctx
  if move then { blank with cursorX := 0, cursorY := 0 } else blank

/-- A coordinate beyond the screen is taken to its end, or to its beginning if it is negative as an
`int`. -/
def clampCoordinate (x limit : Nat) : Nat :=
  if x ≥ limit then if (BitVec.ofNat 32 x).toInt < 0 then 0 else limit - 1 else x

def setCursorPos (ctx : FbContext) (x y : Nat) : FbContext :=
  { ctx with cursorX := clampCoordinate x ctx.cols, cursorY := clampCoordinate y ctx.rows }

def moveCharacter (ctx : FbContext) (newX newY oldX oldY : Nat) : FbContext :=
  if oldX ≥ ctx.cols ∨ oldY ≥ ctx.rows ∨ newX ≥ ctx.cols ∨ newY ≥ ctx.rows then ctx
  else pushToQueue ctx (charAt ctx (oldX + oldY * ctx.cols)) newX newY

/-- The cursor behind the last column goes to the next row.  The row is compared with the number of
columns. -/
def wrapCursor (ctx : FbContext) : FbContext :=
  if ctx.cursorX ≥ ctx.cols ∧ (ctx.cursorY < ctx.scrollBottomMargin - 1 ∨ ctx.scrollEnabled = true) then
    let next := { ctx with cursorX := 0, cursorY := (ctx.cursorY + 1) % 2 ^ 64 }
    let next :=
      if next.cursorY = next.scrollBottomMargin then scroll { next with cursorY := next.cursorY - 1 } else next
    if next.cursorY ≥ next.cols then { next with cursorY := next.cols - 1 } else next
  else ctx

def rawPutchar (ctx : FbContext) (c : BitVec 8) : FbContext :=
  let ctx := wrapCursor ctx
  pushToQueue { ctx with cursorX := (ctx.cursorX + 1) % 2 ^ 64 }
    { c := c.setWidth 32, fg := ctx.textFg, bg := ctx.textBg } ctx.cursorX ctx.cursorY

/-- The character of a cell with its colours exchanged. -/
def invert (c : FbChar) : FbChar := { c with fg := c.bg, bg := c.fg }

def drawCursor (ctx : FbContext) : FbContext :=
  if ctx.cursorX ≥ ctx.cols ∨ ctx.cursorY ≥ ctx.rows then ctx
  else
    let i := ctx.cursorX + ctx.cursorY * ctx.cols
    let c := charAt ctx i
    let drawn := plotChar ctx (invert c) ctx.cursorX ctx.cursorY
    match ctx.map i with
    | some _ => { drawn with grid := Function.update ctx.grid i c, map := Function.update ctx.map i none }
    | none => drawn

/-- One round of the loop of `double_buffer_flush`. -/
def flushItem (ctx : FbContext) (q : FbQueueItem) : FbContext :=
  let offset := q.y * ctx.cols + q.x
  match ctx.map offset with
  | none => ctx
  | some _ =>
      let drawn := plotChar ctx q.c q.x q.y
      { drawn with grid := Function.update ctx.grid offset q.c, map := Function.update ctx.map offset none }

/-- Draw the cell where the cursor was, unless it is there still. -/
def restoreOldCursor (ctx : FbContext) : FbContext :=
  if (ctx.oldCursorX ≠ ctx.cursorX ∨ ctx.oldCursorY ≠ ctx.cursorY) ∨ ctx.cursorEnabled = false then
    if ctx.oldCursorX < ctx.cols ∧ ctx.oldCursorY < ctx.rows then
      plotChar ctx (ctx.grid (ctx.oldCursorX + ctx.oldCursorY * ctx.cols)) ctx.oldCursorX ctx.oldCursorY
    else ctx
  else ctx

def doubleBufferFlush (ctx : FbContext) : FbContext :=
  let ctx := if ctx.cursorEnabled then drawCursor ctx else ctx
  let ctx := restoreOldCursor (ctx.queue.foldl flushItem ctx)
  { ctx with oldCursorX := ctx.cursorX, oldCursorY := ctx.cursorY, queue := [] }

/-- The characters of `full_refresh`. -/
def fullRefresh (ctx : FbContext) : FbContext :=
  let ctx := (List.range (ctx.rows * ctx.cols)).foldl
    (fun ctx' i => plotChar ctx' (ctx'.grid i) (i % ctx.cols) (i / ctx.cols)) ctx
  if ctx.cursorEnabled then drawCursor ctx else ctx

/-- A blank grid, and what `flanterm_context_reinit` sets. -/
def fbStart (cols rows : Nat) (textFg textBg : BitVec 32) (shown : Nat → FbChar) : FbContext where
  cols := cols
  rows := rows
  scrollTopMargin := 0
  scrollBottomMargin := rows
  scrollEnabled := true
  cursorEnabled := true
  textFg := textFg
  textBg := textBg
  cursorX := 0
  cursorY := 0
  grid := fun _ => { c := 0x20, fg := textFg, bg := textBg }
  queue := []
  map := fun _ => none
  oldCursorX := 0
  oldCursorY := 0
  shown := shown

/-- The end of `flanterm_fb_init`. -/
def fbInit (cols rows : Nat) (textFg textBg : BitVec 32) (shown : Nat → FbChar) : FbContext :=
  fullRefresh (fbStart cols rows textFg textBg shown)

end AncoreOS.Terminal
