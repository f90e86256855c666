import AncoreOS.Terminal.FbRun
import AncoreOS.Terminal.FbPixels

/-!
# The framebuffer of a run (`src/kernel/terminal/src/flanterm_backends/fb.c`)

Only `draw_cursor`, `double_buffer_flush` and `full_refresh` draw.  What they store in the framebuffer
keeps it a picture of `shown` (`Displays`): each of their calls of `plot_char` draws the character that
`shown` gets.

So after any run and a flush every pixel of the framebuffer is that of the screen (`fb_run_draws`).
-/

namespace AncoreOS.Terminal

namespace FbSurface

variable (g : FbSurface)

/-! ### What is stored -/

def drawCursorPixels (ctx : FbContext) (fb : Framebuffer) : Framebuffer :=
  if ctx.cursorX ≥ ctx.cols ∨ ctx.cursorY ≥ ctx.rows then fb
  else g.plot (invert (charAt ctx (ctx.cursorX + ctx.cursorY * ctx.cols))) ctx.cursorX ctx.cursorY fb

def flushItemPixels (ctx : FbContext) (q : FbQueueItem) (fb : Framebuffer) : Framebuffer :=
  match ctx.map (q.y * ctx.cols + q.x) with
  | none => fb
  | some _ => g.plot q.c q.x q.y fb

def restoreOldCursorPixels (ctx : FbContext) (fb : Framebuffer) : Framebuffer :=
  if (ctx.oldCursorX ≠ ctx.cursorX ∨ ctx.oldCursorY ≠ ctx.cursorY) ∨ ctx.cursorEnabled = false then
    if ctx.oldCursorX < ctx.cols ∧ ctx.oldCursorY < ctx.rows then
      g.plot (ctx.grid (ctx.oldCursorX + ctx.oldCursorY * ctx.cols)) ctx.oldCursorX ctx.oldCursorY fb
    else fb
  else fb

/-- The context and the framebuffer go through the loop together. -/
def doubleBufferFlushPixels (ctx : FbContext) (fb : Framebuffer) : Framebuffer :=
  let fb := if ctx.cursorEnabled then g.drawCursorPixels ctx fb else fb
  let ctx := if ctx.cursorEnabled then drawCursor ctx else ctx
  let drained := ctx.queue.foldl (fun s q => (flushItem s.1 q, g.flushItemPixels s.1 q s.2)) (ctx, fb)
  g.restoreOldCursorPixels drained.1 drained.2

def fullRefreshPixels (ctx : FbContext) (fb : Framebuffer) : Framebuffer :=
  let fb := (List.range (ctx.rows * ctx.cols)).foldl
    (fun fb i => g.plot (ctx.grid i) (i % ctx.cols) (i / ctx.cols) fb) (g.fill fb)
  if ctx.cursorEnabled then g.drawCursorPixels ctx fb else fb

def execPixels (op : FbOp) (ctx : FbContext) (fb : Framebuffer) : Framebuffer :=
  match op with
  | .doubleBufferFlush => g.doubleBufferFlushPixels ctx fb
  | _ => fb

/-- A run of the terminal with its framebuffer. -/
def runPixels (ops : List FbOp) (ctx : FbContext) (fb : Framebuffer) : FbContext × Framebuffer :=
  ops.foldl (fun s op => (op.exec s.1, g.execPixels op s.1 s.2)) (ctx, fb)

end FbSurface

open FbSurface

/-! ### Calls that draw nothing -/

/-- A call that draws nothing. -/
structure Undrawn (ctx ctx' : FbContext) : Prop where
  cols : ctx'.cols = ctx.cols
  rows : ctx'.rows = ctx.rows
  shown : ctx'.shown = ctx.shown

theorem Undrawn.refl (ctx : FbContext) : Undrawn ctx ctx := ⟨rfl, rfl, rfl⟩

theorem Undrawn.trans {ctx ctx' ctx'' : FbContext} (h : Undrawn ctx ctx') (h' : Undrawn ctx' ctx'') :
    Undrawn ctx ctx'' :=
  ⟨h'.cols.trans h.cols, h'.rows.trans h.rows, h'.shown.trans h.shown⟩

theorem pushToQueue_undrawn (ctx : FbContext) (c : FbChar) (x y : Nat) : Undrawn ctx (pushToQueue ctx c x y) := by
  unfold pushToQueue
  dsimp only
  split
  · exact .refl ctx
  · split
    · exact ⟨rfl, rfl, rfl⟩
    · split <;> exact ⟨rfl, rfl, rfl⟩

theorem foldl_undrawn {β : Type} {f : FbContext → β → FbContext} (h : ∀ ctx b, Undrawn ctx (f ctx b))
    (l : List β) : ∀ ctx, Undrawn ctx (l.foldl f ctx) := by
  induction l with
  | nil => exact Undrawn.refl
  | cons b l ih =>
    intro ctx
    rw [List.foldl_cons]
    exact (h ctx b).trans (ih (f ctx b))

theorem blankRow_undrawn (ctx : FbContext) (y : Nat) : Undrawn ctx (blankRow ctx y) :=
  foldl_undrawn (fun ctx' i => pushToQueue_undrawn ctx' _ i y) _ ctx

theorem scrollCells_undrawn (n : Nat) : ∀ ctx i, Undrawn ctx (scrollCells ctx i n) := by
  induction n with
  | zero => exact fun ctx _ => .refl ctx
  | succ n ih => exact fun ctx i => (pushToQueue_undrawn ..).trans (ih _ (i + 1))

theorem revscrollCells_undrawn (n : Nat) : ∀ ctx, Undrawn ctx (revscrollCells ctx n) := by
  induction n with
  | zero => exact fun ctx => .refl ctx
  | succ n ih =>
    intro ctx
    rw [revscrollCells]
    split
    · exact (pushToQueue_undrawn ..).trans (ih _)
    · exact .refl ctx

theorem scroll_undrawn (ctx : FbContext) : Undrawn ctx (scroll ctx) :=
  (scrollCells_undrawn _ ctx _).trans (blankRow_undrawn ..)

theorem clampRow_undrawn (ctx : FbContext) :
    Undrawn ctx (if ctx.cursorY ≥ ctx.cols then { ctx with cursorY := ctx.cols - 1 } else ctx) := by
  split
  · exact ⟨rfl, rfl, rfl⟩
  · exact .refl ctx

theorem wrapCursor_undrawn (ctx : FbContext) : Undrawn ctx (wrapCursor ctx) := by
  have hnext : Undrawn ctx (if (ctx.cursorY + 1) % 2 ^ 64 = ctx.scrollBottomMargin then
      scroll { ctx with cursorX := 0, cursorY := (ctx.cursorY + 1) % 2 ^ 64 - 1 }
    else { ctx with cursorX := 0, cursorY := (ctx.cursorY + 1) % 2 ^ 64 }) := by
    split
    · have hmoved : Undrawn ctx { ctx with cursorX := 0, cursorY := (ctx.cursorY + 1) % 2 ^ 64 - 1 } :=
        ⟨rfl, rfl, rfl⟩
      exact hmoved.trans (scroll_undrawn _)
    · exact ⟨rfl, rfl, rfl⟩
  unfold wrapCursor
  by_cases hwrap : ctx.cursorX ≥ ctx.cols ∧ (ctx.cursorY < ctx.scrollBottomMargin - 1 ∨ ctx.scrollEnabled = true)
  · rw [if_pos hwrap]
    exact hnext.trans (clampRow_undrawn _)
  · rw [if_neg hwrap]
    exact .refl ctx

theorem exec_undrawn {ctx : FbContext} {op : FbOp} (hop : op.Allowed ctx.cols ctx.rows)
    (hflush : op ≠ .doubleBufferFlush) : Undrawn ctx (op.exec ctx) := by
  cases op with
  | rawPutchar c =>
    have hmoved : Undrawn (wrapCursor ctx)
        { wrapCursor ctx with cursorX := ((wrapCursor ctx).cursorX + 1) % 2 ^ 64 } := ⟨rfl, rfl, rfl⟩
    exact (wrapCursor_undrawn ctx).trans (hmoved.trans (pushToQueue_undrawn ..))
  | clear move =>
    have hblank : Undrawn ctx (clear ctx false) := foldl_undrawn
      (fun ctx' i => pushToQueue_undrawn ctx' (emptyChar ctx.toFbTerm) (i % ctx.cols) (i / ctx.cols)) _ ctx
    cases move with
    | false => exact hblank
    | true => exact hblank.trans ⟨rfl, rfl, rfl⟩
  | setCursorPos x y => exact ⟨rfl, rfl, rfl⟩
  | moveCharacter newX newY oldX oldY =>
    change Undrawn ctx (moveCharacter ctx newX newY oldX oldY)
    unfold moveCharacter
    split
    · exact .refl ctx
    · exact pushToQueue_undrawn ..
  | scroll => exact scroll_undrawn ctx
  | revscroll => exact (revscrollCells_undrawn _ ctx).trans (blankRow_undrawn ..)
  | control term => exact ⟨hop.1, hop.2.1, rfl⟩
  | doubleBufferFlush => exact absurd rfl hflush

/-! ### Pictures of `shown` -/

/-- The framebuffer is the picture of the cells, and the words that are no pixels are those of `fb₀`. -/
structure Displays (g : FbSurface) (fb₀ : Framebuffer) (ctx : FbContext) (fb : Framebuffer) : Prop where
  cols : ctx.cols = g.cols
  rows : ctx.rows = g.rows
  shows : g.Shows (fun i => some (ctx.shown i)) fb
  frame : ∀ a ∉ g.screen, fb a = fb₀ a

section Drawing

variable {g : FbSurface} {fb₀ fb : Framebuffer} {ctx ctx' : FbContext}

theorem Displays.undrawn (h : Displays g fb₀ ctx fb) (h' : Undrawn ctx ctx') : Displays g fb₀ ctx' fb :=
  ⟨h'.cols.trans h.cols, h'.rows.trans h.rows, h'.shown ▸ h.shows, h.frame⟩

/-- `plot_char` draws what `shown` gets. -/
theorem Displays.plot (h : Displays g fb₀ ctx fb) (hg : g.Fits) (c : FbChar) (x y : Nat) :
    Displays g fb₀ (plotChar ctx c x y) (g.plot c x y fb) := by
  have hframe : ∀ a ∉ g.screen, g.plot c x y fb a = fb₀ a := fun a ha =>
    (hg.plot_frame fb c x y a ha).trans (h.frame a ha)
  by_cases hxy : x < g.cols ∧ y < g.rows
  · have hx : x < ctx.cols := h.cols.symm ▸ hxy.1
    have hy : y < ctx.rows := h.rows.symm ▸ hxy.2
    rw [plotChar_of_lt ctx c hx hy]
    refine ⟨h.cols, h.rows, (hg.plot_shows c hxy.1 hxy.2 h.shows).congr fun i _ => ?_, hframe⟩
    rw [h.cols]
    by_cases hi : i = x + y * g.cols
    · rw [hi, Function.update_self]
      exact congrArg some (Function.update_self (x + y * g.cols) c ctx.shown).symm
    · rw [Function.update_of_ne hi]
      exact congrArg some (Function.update_of_ne hi c ctx.shown).symm
  · have hsame : plotChar ctx c x y = ctx := if_pos (by rw [h.cols, h.rows]; omega)
    rw [hsame, plot_of_outside hxy]
    exact h

theorem Displays.drawCursor (h : Displays g fb₀ ctx fb) (hg : g.Fits) :
    Displays g fb₀ (drawCursor ctx) (g.drawCursorPixels ctx fb) := by
  unfold Terminal.drawCursor drawCursorPixels
  dsimp only
  split
  · exact h
  · have hplot := h.plot hg (invert (charAt ctx (ctx.cursorX + ctx.cursorY * ctx.cols))) ctx.cursorX ctx.cursorY
    split
    · exact hplot.undrawn ⟨rfl, rfl, rfl⟩
    · exact hplot

theorem Displays.flushItem (h : Displays g fb₀ ctx fb) (hg : g.Fits) (q : FbQueueItem) :
    Displays g fb₀ (flushItem ctx q) (g.flushItemPixels ctx q fb) := by
  unfold Terminal.flushItem flushItemPixels
  dsimp only
  cases ctx.map (q.y * ctx.cols + q.x) with
  | none => exact h
  | some _ => exact (h.plot hg q.c q.x q.y).undrawn ⟨rfl, rfl, rfl⟩

theorem Displays.foldl_flushItem (hg : g.Fits) (l : List FbQueueItem) : ∀ {ctx fb}, Displays g fb₀ ctx fb →
    Displays g fb₀ (l.foldl Terminal.flushItem ctx)
      (l.foldl (fun s q => (Terminal.flushItem s.1 q, g.flushItemPixels s.1 q s.2)) (ctx, fb)).2 := by
  induction l with
  | nil => exact fun h => h
  | cons q l ih => exact fun h => ih (h.flushItem hg q)

theorem foldl_pair_fst {σ τ β : Type} (f : σ → β → σ) (k : σ → β → τ → τ) (l : List β) :
    ∀ s : σ × τ, (l.foldl (fun s b => (f s.1 b, k s.1 b s.2)) s).1 = l.foldl f s.1 := by
  induction l with
  | nil => exact fun _ => rfl
  | cons b l ih => exact fun s => ih (f s.1 b, k s.1 b s.2)

theorem Displays.restoreOldCursor (h : Displays g fb₀ ctx fb) (hg : g.Fits) :
    Displays g fb₀ (restoreOldCursor ctx) (g.restoreOldCursorPixels ctx fb) := by
  unfold Terminal.restoreOldCursor restoreOldCursorPixels
  split
  · split
    · exact h.plot hg _ _ _
    · exact h
  · exact h

theorem Displays.doubleBufferFlush (h : Displays g fb₀ ctx fb) (hg : g.Fits) :
    Displays g fb₀ (doubleBufferFlush ctx) (g.doubleBufferFlushPixels ctx fb) := by
  have hstart : Displays g fb₀ (if ctx.cursorEnabled then Terminal.drawCursor ctx else ctx)
      (if ctx.cursorEnabled then g.drawCursorPixels ctx fb else fb) := by
    split
    · exact h.drawCursor hg
    · exact h
  unfold Terminal.doubleBufferFlush doubleBufferFlushPixels
  dsimp only
  generalize (if ctx.cursorEnabled then Terminal.drawCursor ctx else ctx) = start at hstart ⊢
  have hdrained := Displays.foldl_flushItem hg start.queue hstart
  rw [foldl_pair_fst Terminal.flushItem g.flushItemPixels]
  exact (hdrained.restoreOldCursor hg).undrawn ⟨rfl, rfl, rfl⟩

theorem Displays.exec (h : Displays g fb₀ ctx fb) (hg : g.Fits) {op : FbOp}
    (hop : op.Allowed ctx.cols ctx.rows) : Displays g fb₀ (op.exec ctx) (g.execPixels op ctx fb) := by
  by_cases hflush : op = .doubleBufferFlush
  · subst hflush
    exact h.doubleBufferFlush hg
  · have hnone : g.execPixels op ctx fb = fb := by
      cases op <;> first | rfl | exact absurd rfl hflush
    rw [hnone]
    exact h.undrawn (exec_undrawn hop hflush)

theorem Displays.run (hg : g.Fits) (ops : List FbOp) (hops : ∀ op ∈ ops, op.Allowed g.cols g.rows) :
    ∀ {ctx fb}, Displays g fb₀ ctx fb → Displays g fb₀ (run ops ctx) (g.runPixels ops ctx fb).2 := by
  induction ops with
  | nil => exact fun h => h
  | cons op ops ih =>
    intro ctx fb h
    have hop : op.Allowed ctx.cols ctx.rows := by
      rw [h.cols, h.rows]
      exact hops op (List.mem_cons_self ..)
    exact ih (fun op' hop' => hops op' (List.mem_cons_of_mem _ hop')) (h.exec hg hop)

end Drawing

/-! ### The new terminal -/

section Start

variable {g : FbSurface}

/-- The loop of `full_refresh` over the cells. -/
theorem foldl_plot_shows (hg : g.Fits) (hcols : 0 < g.cols) (grid : Nat → FbChar) (fb : Framebuffer) (n : Nat) :
    n ≤ g.rows * g.cols →
      g.Shows (fun i => if i < n then some (grid i) else none)
          ((List.range n).foldl (fun fb i => g.plot (grid i) (i % g.cols) (i / g.cols) fb) (g.fill fb)) ∧
        ∀ a ∉ g.screen,
          (List.range n).foldl (fun fb i => g.plot (grid i) (i % g.cols) (i / g.cols) fb) (g.fill fb) a = fb a := by
  induction n with
  | zero => exact fun _ => hg.fill_shows fb
  | succ n ih =>
    intro hn
    obtain ⟨hshows, hframe⟩ := ih (by omega)
    have hx : n % g.cols < g.cols := Nat.mod_lt n hcols
    have hy : n / g.cols < g.rows := (Nat.div_lt_iff_lt_mul hcols).mpr hn
    rw [List.range_succ, List.foldl_append, List.foldl_cons, List.foldl_nil]
    refine ⟨(hg.plot_shows (grid n) hx hy hshows).congr fun i _ => ?_, fun a ha => ?_⟩
    · rw [Nat.mod_add_div']
      by_cases hi : i = n
      · rw [hi, Function.update_self, if_pos (Nat.lt_succ_self n)]
      · rw [Function.update_of_ne hi]
        exact if_congr (by omega) rfl rfl
    · exact (hg.plot_frame _ _ _ _ a ha).trans (hframe a ha)

theorem fbInit_displays (hg : g.Fits) (hcols : 0 < g.cols) (textFg textBg : BitVec 32) (shown : Nat → FbChar)
    (fb : Framebuffer) :
    Displays g fb (fbInit g.cols g.rows textFg textBg shown)
      (g.fullRefreshPixels (fbStart g.cols g.rows textFg textBg shown) fb) := by
  obtain ⟨drawn, hdrawn, hinit⟩ := fbInit_eq hcols g.rows textFg textBg shown
  obtain ⟨hshows, hframe⟩ := foldl_plot_shows hg hcols (fbStart g.cols g.rows textFg textBg shown).grid fb
    (g.rows * g.cols) le_rfl
  have hcells : g.Shows (fun i => some (drawn i)) _ := hshows.congr fun i hi => by
    rw [if_pos hi, hdrawn i hi]
  have hstart : Displays g fb { fbStart g.cols g.rows textFg textBg shown with shown := drawn } _ :=
    ⟨rfl, rfl, hcells, hframe⟩
  rw [hinit]
  exact hstart.drawCursor hg

/-- **What the framebuffer shows after a run and a flush** is the screen: every pixel of a cell is that of its
character, the cursor with its colours exchanged, and the backdrop is around the cells.  The pixels lie in
the framebuffer, and no other word is stored to. -/
theorem fb_run_draws (hg : g.Fits) (hcols : 0 < g.cols) (hrows : 0 < g.rows) (textFg textBg : BitVec 32)
    (shown : Nat → FbChar) (fb : Framebuffer) (ops : List FbOp)
    (hops : ∀ op ∈ ops, op.Allowed g.cols g.rows) :
    let s := g.runPixels ops (fbInit g.cols g.rows textFg textBg shown)
      (g.fullRefreshPixels (fbStart g.cols g.rows textFg textBg shown) fb)
    let drawn := g.doubleBufferFlushPixels s.1 s.2
    g.Shows (fun i => some ((runOnScreen ops (blankScreen g.cols g.rows textFg textBg)).display i)) drawn ∧
      (∀ a ∉ g.screen, drawn a = fb a) ∧ ∀ a ∈ g.screen, 0 ≤ a ∧ a < g.line * g.deviceHeight := by
  obtain ⟨hinit, hplain, hc, hr⟩ := fbInit_ready hcols hrows textFg textBg shown
  have hrun := Displays.run hg ops hops (fbInit_displays hg hcols textFg textBg shown fb)
  have hstate : (g.runPixels ops (fbInit g.cols g.rows textFg textBg shown)
      (g.fullRefreshPixels (fbStart g.cols g.rows textFg textBg shown) fb)).1 =
      run ops (fbInit g.cols g.rows textFg textBg shown) := 
    foldl_pair_fst (fun ctx op => FbOp.exec op ctx) (fun ctx op fb => g.execPixels op ctx fb) ops _
  obtain ⟨hready, hplain', hc', hr'⟩ := run_plain ops hinit (by rw [hc, hr]; exact hops)
  obtain ⟨-, -, hdisplay⟩ := flush_shows hready
  rw [hplain', hplain, hc', hr', hc, hr] at hdisplay
  dsimp only
  rw [hstate]
  have hdrawn := hrun.doubleBufferFlush hg
  refine ⟨hdrawn.shows.congr fun i hi => ?_, hdrawn.frame, fun a ha => hg.screen_bounds ha⟩
  rw [hdisplay i hi]

end Start

/-- Two characters on the screen of the kernel. -/
theorem fb_run_draws_kernel :
    let g := kernelSurface 1024 768 4096 fun _ => false
    let ops : List FbOp := [.rawPutchar 0x41, .doubleBufferFlush, .setCursorPos 5 7, .rawPutchar 0x42]
    let s := g.runPixels ops (fbInit g.cols g.rows 7 0xffffffff fun _ => { c := 0x20, fg := 7, bg := 0 })
      (g.fullRefreshPixels (fbStart g.cols g.rows 7 0xffffffff fun _ => { c := 0x20, fg := 7, bg := 0 }) fun _ => 0)
    let drawn := g.doubleBufferFlushPixels s.1 s.2
    g.Shows (fun i => some ((runOnScreen ops (blankScreen g.cols g.rows 7 0xffffffff)).display i)) drawn ∧
      (∀ a ∉ g.screen, drawn a = 0) ∧ ∀ a ∈ g.screen, 0 ≤ a ∧ a < g.line * g.deviceHeight := by
  intro g ops
  refine fb_run_draws (kernelSurface_fits 768 _ (by decide) (by decide)) (by decide) (by decide) 7 0xffffffff
    (fun _ => { c := 0x20, fg := 7, bg := 0 }) (fun _ => 0) ops ?_
  simp [ops, FbOp.Allowed]

end AncoreOS.Terminal
