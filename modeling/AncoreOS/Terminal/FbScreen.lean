import AncoreOS.Terminal.FbGrid

/-!
# What the terminal shows

The grid, the queue and the map are a buffer of pending cells (`FbContext.buffer`).  Each call of the
backend does to its view what it says it does to the screen (`exec_plain`): the loops of `scroll` and
`revscroll`, which move the cells one by one, move them all at once.

After a flush every cell shows its character, and the cell of the cursor shows it with its colours
exchanged (`run_shows`).
-/

namespace AncoreOS.Terminal

open PendingCells

/-! ### A screen that is drawn at once -/

/-- The terminal without its queue. -/
structure Plain extends FbTerm where
  cells : Nat → FbChar

namespace Plain

def put (t : Plain) (c : FbChar) (x y : Nat) : Plain :=
  if x < t.cols ∧ y < t.rows then { t with cells := Function.update t.cells (y * t.cols + x) c } else t

/-- The rows of the region go up, and its last row is blank. -/
def scroll (t : Plain) : Plain :=
  { t with
    cells := fun i =>
      if (t.scrollBottomMargin - 1) * t.cols ≤ i ∧ i < t.scrollBottomMargin * t.cols then emptyChar t.toFbTerm
      else if t.scrollTopMargin * t.cols ≤ i ∧ i < (t.scrollBottomMargin - 1) * t.cols then t.cells (i + t.cols)
      else t.cells i }

/-- The rows of the region go down, and its first row is blank. -/
def revscroll (t : Plain) : Plain :=
  { t with
    cells := fun i =>
      if t.scrollTopMargin * t.cols ≤ i ∧ i < (t.scrollTopMargin + 1) * t.cols then emptyChar t.toFbTerm
      else if (t.scrollTopMargin + 1) * t.cols ≤ i ∧ i < t.scrollBottomMargin * t.cols then t.cells (i - t.cols)
      else t.cells i }

def clear (t : Plain) (move : Bool) : Plain :=
  let blank := { t with cells := fun i => if i < t.rows * t.cols then emptyChar t.toFbTerm else t.cells i }
  if move then { blank with cursorX := 0, cursorY := 0 } else blank

def setCursorPos (t : Plain) (x y : Nat) : Plain :=
  { t with cursorX := clampCoordinate x t.cols, cursorY := clampCoordinate y t.rows }

def moveCharacter (t : Plain) (newX newY oldX oldY : Nat) : Plain :=
  if oldX < t.cols ∧ oldY < t.rows then t.put (t.cells (oldX + oldY * t.cols)) newX newY else t

def wrapCursor (t : Plain) : Plain :=
  if t.cursorX ≥ t.cols ∧ (t.cursorY < t.scrollBottomMargin - 1 ∨ t.scrollEnabled = true) then
    let y := (t.cursorY + 1) % 2 ^ 64
    if y = t.scrollBottomMargin then { t.scroll with cursorX := 0, cursorY := min (y - 1) (t.cols - 1) }
    else { t with cursorX := 0, cursorY := min y (t.cols - 1) }
  else t

def putchar (t : Plain) (c : BitVec 8) : Plain :=
  let t := t.wrapCursor
  { t.put { c := c.setWidth 32, fg := t.textFg, bg := t.textBg } t.cursorX t.cursorY with
    cursorX := (t.cursorX + 1) % 2 ^ 64 }

/-- What a screen shows in a cell: the cursor exchanges the colours. -/
def display (t : Plain) (i : Nat) : FbChar :=
  if t.cursorEnabled = true ∧ t.cursorX < t.cols ∧ t.cursorY < t.rows ∧ i = t.cursorX + t.cursorY * t.cols then
    invert (t.cells i)
  else t.cells i

end Plain

/-! ### The buffer of a context -/

def FbContext.buffer (ctx : FbContext) : Buffer FbChar where
  grid := ctx.grid
  queue := ctx.queue.map fun item => (item.y * ctx.cols + item.x, item.c)
  map := ctx.map

def FbContext.cells (ctx : FbContext) : Nat → FbChar := ctx.buffer.view

def FbContext.plain (ctx : FbContext) : Plain := { ctx.toFbTerm with cells := ctx.cells }

/-- The fields of the terminal are in range. -/
structure FbTerm.Valid (t : FbTerm) : Prop where
  cols_pos : 0 < t.cols
  top_lt : t.scrollTopMargin < t.rows
  bottom_pos : 0 < t.scrollBottomMargin
  bottom_le : t.scrollBottomMargin ≤ t.rows

structure Sound (ctx : FbContext) : Prop where
  valid : ctx.toFbTerm.Valid
  buffer : ctx.buffer.Sound (ctx.rows * ctx.cols)
  items : ∀ item ∈ ctx.queue, item.x < ctx.cols ∧ item.y < ctx.rows

theorem charAt_eq (ctx : FbContext) (i : Nat) : charAt ctx i = ctx.cells i := by
  unfold charAt FbContext.cells Buffer.view FbContext.buffer
  dsimp only
  cases ctx.map i with
  | none => rfl
  | some q =>
    dsimp only
    rw [List.getElem?_map]
    cases ctx.queue[q]? with
    | none => rfl
    | some item => rfl

theorem offset_lt {x y cols rows : Nat} (hx : x < cols) (hy : y < rows) : y * cols + x < rows * cols := by
  have h : (y + 1) * cols ≤ rows * cols := Nat.mul_le_mul_right cols hy
  rw [Nat.succ_mul] at h
  omega

/-- A cell of the screen has one pair of coordinates. -/
theorem offset_inj {x y x' y' cols : Nat} (hx : x < cols) (hx' : x' < cols)
    (h : y * cols + x = y' * cols + x') : x = x' ∧ y = y' := by
  have hmod : ∀ {x y : Nat}, x < cols → (y * cols + x) % cols = x := by
    intro x y hx
    rw [Nat.add_comm, Nat.add_mul_mod_self_right, Nat.mod_eq_of_lt hx]
  have hxx : x = x' := by rw [← hmod hx, h, hmod hx']
  subst hxx
  exact ⟨rfl, Nat.eq_of_mul_eq_mul_right (by omega) (Nat.add_right_cancel h)⟩

theorem div_mod_offset (i cols : Nat) : i / cols * cols + i % cols = i := Nat.div_add_mod' i cols

/-! ### Writes -/

/-- A call wrote characters, and nothing else. -/
structure Wrote (ctx ctx' : FbContext) (cells : Nat → FbChar) : Prop where
  frame : ∃ queue map, ctx' = { ctx with queue := queue, map := map }
  waits : ∀ i, ctx'.map i = none → ctx.map i = none
  sound : Sound ctx'
  cells : ctx'.cells = cells

theorem Wrote.refl {ctx : FbContext} (h : Sound ctx) : Wrote ctx ctx ctx.cells :=
  ⟨⟨ctx.queue, ctx.map, rfl⟩, fun _ h => h, h, rfl⟩

theorem Wrote.trans {ctx ctx' ctx'' : FbContext} {cells cells' : Nat → FbChar} (h : Wrote ctx ctx' cells)
    (h' : Wrote ctx' ctx'' cells') : Wrote ctx ctx'' cells' := by
  obtain ⟨⟨queue, map, rfl⟩, hwaits, -, -⟩ := h
  obtain ⟨⟨queue', map', rfl⟩, hwaits', hsound', hcells'⟩ := h'
  exact ⟨⟨queue', map', rfl⟩, fun i hi => hwaits i (hwaits' i hi), hsound', hcells'⟩

theorem Wrote.toFbTerm {ctx ctx' : FbContext} {cells : Nat → FbChar} (h : Wrote ctx ctx' cells) :
    ctx'.toFbTerm = ctx.toFbTerm := by
  obtain ⟨⟨queue, map, rfl⟩, -, -, -⟩ := h
  rfl

/-- The queue as the library has it: an entry is written in its place, or put at the end. -/
theorem pushToQueue_buffer (ctx : FbContext) (c : FbChar) {x y : Nat} (hx : x < ctx.cols) (hy : y < ctx.rows) :
    (pushToQueue ctx c x y).buffer = ctx.buffer.push (y * ctx.cols + x) c := by
  have hin : ¬(x ≥ ctx.cols ∨ y ≥ ctx.rows) := by omega
  have hkey : ∀ (l : List FbQueueItem) (q : Nat),
      (l.modify q fun item => { item with c := c }).map (fun item => (item.y * ctx.cols + item.x, item.c)) =
      (l.map fun item => (item.y * ctx.cols + item.x, item.c)).modify q fun entry => (entry.1, c) := by
    intro l q
    refine List.ext_getElem? fun p => ?_
    by_cases hqp : q = p
    · subst hqp
      rw [List.getElem?_map, List.getElem?_modify_eq, List.getElem?_modify_eq, List.getElem?_map]
      cases l[q]? <;> rfl
    · rw [List.getElem?_map, List.getElem?_modify_ne _ _ hqp, List.getElem?_modify_ne _ _ hqp, List.getElem?_map]
  unfold pushToQueue Buffer.push
  rw [if_neg hin]
  dsimp only [FbContext.buffer]
  cases ctx.map (y * ctx.cols + x) with
  | some q =>
    dsimp only
    rw [hkey]
  | none =>
    dsimp only
    by_cases hsame : ctx.grid (y * ctx.cols + x) = c
    · rw [if_pos hsame]
      exact (if_pos hsame).symm
    · rw [if_neg hsame]
      refine Eq.trans ?_ (if_neg hsame).symm
      rw [List.length_map]
      dsimp only
      rw [List.map_append]
      rfl

theorem pushToQueue_wrote {ctx : FbContext} (h : Sound ctx) (c : FbChar) {x y : Nat} (hx : x < ctx.cols)
    (hy : y < ctx.rows) :
    Wrote ctx (pushToQueue ctx c x y) (Function.update ctx.cells (y * ctx.cols + x) c) := by
  have hin : ¬(x ≥ ctx.cols ∨ y ≥ ctx.rows) := by omega
  have hbuffer := pushToQueue_buffer ctx c hx hy
  have hframe : ∃ queue map, pushToQueue ctx c x y = { ctx with queue := queue, map := map } ∧
      (∀ i, map i = none → ctx.map i = none) ∧ ∀ item ∈ queue, item.x < ctx.cols ∧ item.y < ctx.rows := by
    unfold pushToQueue
    rw [if_neg hin]
    dsimp only
    cases hmap : ctx.map (y * ctx.cols + x) with
    | some q =>
      refine ⟨_, ctx.map, rfl, fun i hi => hi, fun item hitem => ?_⟩
      obtain ⟨p, hp⟩ := List.mem_iff_getElem?.mp hitem
      rw [List.getElem?_modify] at hp
      obtain ⟨item', hitem', rfl⟩ := Option.map_eq_some_iff.mp hp
      have hrange := h.items item' (List.mem_iff_getElem?.mpr ⟨p, hitem'⟩)
      split <;> exact hrange
    | none =>
      dsimp only
      split
      · exact ⟨ctx.queue, ctx.map, rfl, fun i hi => hi, h.items⟩
      · refine ⟨_, _, rfl, fun i hi => ?_, fun item hitem => ?_⟩
        · by_cases hi' : i = y * ctx.cols + x
          · rw [hi', Function.update_self] at hi
            cases hi
          · rwa [Function.update_of_ne hi'] at hi
        · rcases List.mem_append.mp hitem with hold | hnew
          · exact h.items item hold
          · rw [List.mem_singleton.mp hnew]
            exact ⟨hx, hy⟩
  obtain ⟨queue, map, heq, hwaits, hitems⟩ := hframe
  have hsound : (pushToQueue ctx c x y).buffer.Sound (ctx.rows * ctx.cols) := by
    rw [hbuffer]
    exact h.buffer.push (offset_lt hx hy) c
  refine ⟨⟨queue, map, heq⟩, ?_, ?_, ?_⟩
  · rw [heq]
    exact hwaits
  · rw [heq] at hsound ⊢
    exact ⟨h.valid, hsound, hitems⟩
  · rw [FbContext.cells, hbuffer, h.buffer.view_push]
    rfl

/-- Beyond the screen nothing is written. -/
theorem pushToQueue_of_ge (ctx : FbContext) (c : FbChar) {x y : Nat} (h : ¬(x < ctx.cols ∧ y < ctx.rows)) :
    pushToQueue ctx c x y = ctx := by
  unfold pushToQueue
  exact if_pos (by omega)

/-! ### The loops -/

/-- A loop that writes one character to a row of cells, and then goes on. -/
theorem foldl_push_wrote {ctx₀ : FbContext} (c : FbChar) (f g : Nat → Nat) (l : List Nat)
    (hl : ∀ i ∈ l, f i < ctx₀.cols ∧ g i < ctx₀.rows) :
    ∀ ctx : FbContext, Sound ctx → ctx.toFbTerm = ctx₀.toFbTerm →
      Wrote ctx (l.foldl (fun ctx' i => pushToQueue ctx' c (f i) (g i)) ctx)
        (fun j => if ∃ i ∈ l, g i * ctx₀.cols + f i = j then c else ctx.cells j) := by
  classical
  induction l with
  | nil =>
    intro ctx h _
    simpa using Wrote.refl h
  | cons i l ih =>
    intro ctx h hterm
    have hcols : ctx.cols = ctx₀.cols := congrArg FbTerm.cols hterm
    have hrows : ctx.rows = ctx₀.rows := congrArg FbTerm.rows hterm
    obtain ⟨hf, hg⟩ := hl i (List.mem_cons_self ..)
    have hpush := pushToQueue_wrote h c (hcols ▸ hf) (hrows ▸ hg)
    have hrest := ih (fun j hj => hl j (List.mem_cons_of_mem _ hj)) (pushToQueue ctx c (f i) (g i)) hpush.sound
      (hpush.toFbTerm.trans hterm)
    rw [List.foldl_cons]
    have htotal := hpush.trans hrest
    rw [hpush.cells, hcols] at htotal
    convert htotal using 1
    funext j
    by_cases hj : ∃ k ∈ l, g k * ctx₀.cols + f k = j
    · rw [if_pos hj, if_pos]
      obtain ⟨k, hk, heq⟩ := hj
      exact ⟨k, List.mem_cons_of_mem _ hk, heq⟩
    · rw [if_neg hj]
      by_cases hij : j = g i * ctx₀.cols + f i
      · rw [hij, Function.update_self]
        exact if_pos ⟨i, List.mem_cons_self .., rfl⟩
      · rw [Function.update_of_ne hij]
        refine if_neg ?_
        rintro ⟨k, hk, heq⟩
        rcases List.mem_cons.mp hk with rfl | hk
        · exact hij heq.symm
        · exact hj ⟨k, hk, heq⟩

/-- A cell is written by its offset. -/
theorem pushOffset_wrote {ctx : FbContext} (h : Sound ctx) (c : FbChar) {j : Nat} (hj : j < ctx.rows * ctx.cols) :
    Wrote ctx (pushToQueue ctx c (j % ctx.cols) (j / ctx.cols)) (Function.update ctx.cells j c) := by
  have hpush := pushToQueue_wrote h c (Nat.mod_lt j h.valid.cols_pos)
    ((Nat.div_lt_iff_lt_mul h.valid.cols_pos).mpr hj)
  rwa [div_mod_offset] at hpush

/-- **The cells of `scroll` move all at once**: what a round reads, no round before has written. -/
theorem scrollCells_wrote (n : Nat) : ∀ {ctx : FbContext} {i : Nat}, Sound ctx → ctx.cols ≤ i →
    i + n ≤ ctx.rows * ctx.cols →
    Wrote ctx (scrollCells ctx i n)
      (fun j => if i ≤ j + ctx.cols ∧ j + ctx.cols < i + n then ctx.cells (j + ctx.cols) else ctx.cells j) := by
  induction n with
  | zero =>
    intro ctx i h _ _
    have hcells : (fun j => if i ≤ j + ctx.cols ∧ j + ctx.cols < i + 0 then ctx.cells (j + ctx.cols)
        else ctx.cells j) = ctx.cells := by
      funext j
      exact if_neg (by omega)
    rw [hcells]
    exact Wrote.refl h
  | succ n ih =>
    intro ctx i h hi hn
    have hpush := pushOffset_wrote h (charAt ctx i) (show i - ctx.cols < ctx.rows * ctx.cols by omega)
    rw [scrollCells]
    generalize pushToQueue ctx (charAt ctx i) ((i - ctx.cols) % ctx.cols) ((i - ctx.cols) / ctx.cols) = ctx'
      at hpush ⊢
    have hcols : ctx'.cols = ctx.cols := congrArg FbTerm.cols hpush.toFbTerm
    have hrows : ctx'.rows = ctx.rows := congrArg FbTerm.rows hpush.toFbTerm
    have hrest := ih hpush.sound (show ctx'.cols ≤ i + 1 by omega) (by rw [hcols, hrows]; omega)
    have htotal := hpush.trans hrest
    rw [hpush.cells, charAt_eq, hcols] at htotal
    convert htotal using 1
    funext j
    by_cases hj : j = i - ctx.cols
    · have hji : j + ctx.cols = i := by omega
      rw [if_pos (by omega), if_neg (by omega), hj, Function.update_self, ← hj, hji]
    · rw [Function.update_of_ne hj]
      by_cases hrange : i + 1 ≤ j + ctx.cols ∧ j + ctx.cols < i + 1 + n
      · rw [if_pos (by omega), if_pos hrange, Function.update_of_ne (by omega)]
      · rw [if_neg (by omega), if_neg hrange]

/-- **The cells of `revscroll` move all at once**: the loop goes down. -/
theorem revscrollCells_wrote (n : Nat) : ∀ {ctx : FbContext}, Sound ctx → n + ctx.cols ≤ ctx.rows * ctx.cols →
    Wrote ctx (revscrollCells ctx n)
      (fun j => if (ctx.scrollTopMargin + 1) * ctx.cols ≤ j ∧ j < n + ctx.cols then ctx.cells (j - ctx.cols)
        else ctx.cells j) := by
  induction n with
  | zero =>
    intro ctx h _
    have hcells : (fun j => if (ctx.scrollTopMargin + 1) * ctx.cols ≤ j ∧ j < 0 + ctx.cols then
        ctx.cells (j - ctx.cols) else ctx.cells j) = ctx.cells := by
      funext j
      refine if_neg ?_
      rw [Nat.succ_mul]
      omega
    rw [hcells]
    exact Wrote.refl h
  | succ i ih =>
    intro ctx h hn
    rw [revscrollCells, Nat.succ_mul]
    by_cases hi : i ≥ ctx.scrollTopMargin * ctx.cols
    · rw [if_pos hi]
      have hpush := pushOffset_wrote h (charAt ctx i) (show i + ctx.cols < ctx.rows * ctx.cols by omega)
      generalize pushToQueue ctx (charAt ctx i) ((i + ctx.cols) % ctx.cols) ((i + ctx.cols) / ctx.cols) = ctx'
        at hpush ⊢
      have hcols : ctx'.cols = ctx.cols := congrArg FbTerm.cols hpush.toFbTerm
      have hrows : ctx'.rows = ctx.rows := congrArg FbTerm.rows hpush.toFbTerm
      have htop : ctx'.scrollTopMargin = ctx.scrollTopMargin := congrArg FbTerm.scrollTopMargin hpush.toFbTerm
      have hrest := ih hpush.sound (by rw [hcols, hrows]; omega)
      have htotal := hpush.trans hrest
      rw [hpush.cells, charAt_eq, hcols, htop, Nat.succ_mul] at htotal
      convert htotal using 1
      funext j
      by_cases hj : j = i + ctx.cols
      · rw [if_pos (by omega), if_neg (by omega), hj, Function.update_self, Nat.add_sub_cancel]
      · rw [Function.update_of_ne hj]
        by_cases hrange : ctx.scrollTopMargin * ctx.cols + ctx.cols ≤ j ∧ j < i + ctx.cols
        · rw [if_pos (by omega), if_pos hrange, Function.update_of_ne (by omega)]
        · rw [if_neg (by omega), if_neg hrange]
    · rw [if_neg hi]
      have hcells : (fun j => if ctx.scrollTopMargin * ctx.cols + ctx.cols ≤ j ∧ j < i + 1 + ctx.cols then
          ctx.cells (j - ctx.cols) else ctx.cells j) = ctx.cells := by
        funext j
        exact if_neg (by omega)
      rw [hcells]
      exact Wrote.refl h

theorem blankRow_wrote {ctx : FbContext} (h : Sound ctx) {y : Nat} (hy : y < ctx.rows) :
    Wrote ctx (blankRow ctx y)
      (fun j => if y * ctx.cols ≤ j ∧ j < (y + 1) * ctx.cols then emptyChar ctx.toFbTerm else ctx.cells j) := by
  have hfold := foldl_push_wrote (emptyChar ctx.toFbTerm) (fun i => i) (fun _ => y) (List.range ctx.cols)
    (fun i hi => ⟨List.mem_range.mp hi, hy⟩) ctx h rfl
  unfold blankRow
  convert hfold using 1
  funext j
  refine if_congr ?_ rfl rfl
  rw [Nat.succ_mul]
  constructor
  · intro hj
    exact ⟨j - y * ctx.cols, List.mem_range.mpr (by omega), by omega⟩
  · rintro ⟨i, hi, rfl⟩
    have := List.mem_range.mp hi
    omega

/-! ### The calls -/

theorem Wrote.plain {ctx ctx' : FbContext} {cells : Nat → FbChar} (h : Wrote ctx ctx' cells) :
    ctx'.plain = { ctx.plain with cells := cells } := by
  rw [FbContext.plain, h.toFbTerm, h.cells]
  rfl

theorem scroll_wrote {ctx : FbContext} (h : Sound ctx) : Wrote ctx (scroll ctx) ctx.plain.scroll.cells := by
  obtain ⟨b, hb⟩ : ∃ b, ctx.scrollBottomMargin = b + 1 := Nat.exists_eq_add_one.mpr h.valid.bottom_pos
  have hbottom : (b + 1) * ctx.cols ≤ ctx.rows * ctx.cols := Nat.mul_le_mul_right _ (hb ▸ h.valid.bottom_le)
  have htop : (ctx.scrollTopMargin + 1) * ctx.cols ≤ ctx.rows * ctx.cols := Nat.mul_le_mul_right _ h.valid.top_lt
  unfold scroll
  dsimp only
  rw [hb]
  have hmoved := scrollCells_wrote ((b + 1) * ctx.cols - (ctx.scrollTopMargin + 1) * ctx.cols) h
    (show ctx.cols ≤ (ctx.scrollTopMargin + 1) * ctx.cols by rw [Nat.succ_mul]; omega) (by omega)
  generalize scrollCells ctx ((ctx.scrollTopMargin + 1) * ctx.cols)
    ((b + 1) * ctx.cols - (ctx.scrollTopMargin + 1) * ctx.cols) = moved at hmoved ⊢
  have hcols : moved.cols = ctx.cols := congrArg FbTerm.cols hmoved.toFbTerm
  have hrows : moved.rows = ctx.rows := congrArg FbTerm.rows hmoved.toFbTerm
  have hmb : moved.scrollBottomMargin = b + 1 := (congrArg FbTerm.scrollBottomMargin hmoved.toFbTerm).trans hb
  have hb' := h.valid.bottom_le
  have hblank := blankRow_wrote hmoved.sound (show moved.scrollBottomMargin - 1 < moved.rows by omega)
  have htotal := hmoved.trans hblank
  rw [hmoved.cells, hmoved.toFbTerm, hb, Nat.add_sub_cancel] at htotal
  rw [hmb, Nat.add_sub_cancel]
  convert htotal using 1
  funext j
  change (if (ctx.scrollBottomMargin - 1) * ctx.cols ≤ j ∧ j < ctx.scrollBottomMargin * ctx.cols then _
    else if ctx.scrollTopMargin * ctx.cols ≤ j ∧ j < (ctx.scrollBottomMargin - 1) * ctx.cols then
      ctx.cells (j + ctx.cols) else ctx.cells j) = _
  rw [hb, Nat.add_sub_cancel]
  simp only [Nat.succ_mul]
  split_ifs <;> first | rfl | omega

theorem revscroll_wrote {ctx : FbContext} (h : Sound ctx) : Wrote ctx (revscroll ctx) ctx.plain.revscroll.cells := by
  obtain ⟨b, hb⟩ : ∃ b, ctx.scrollBottomMargin = b + 1 := Nat.exists_eq_add_one.mpr h.valid.bottom_pos
  have hbottom : (b + 1) * ctx.cols ≤ ctx.rows * ctx.cols := Nat.mul_le_mul_right _ (hb ▸ h.valid.bottom_le)
  unfold revscroll
  dsimp only
  rw [hb, Nat.add_sub_cancel]
  have hmoved := revscrollCells_wrote (b * ctx.cols) h (by rw [Nat.succ_mul] at hbottom; exact hbottom)
  generalize revscrollCells ctx (b * ctx.cols) = moved at hmoved ⊢
  have hcols : moved.cols = ctx.cols := congrArg FbTerm.cols hmoved.toFbTerm
  have hrows : moved.rows = ctx.rows := congrArg FbTerm.rows hmoved.toFbTerm
  have hmt : moved.scrollTopMargin = ctx.scrollTopMargin := congrArg FbTerm.scrollTopMargin hmoved.toFbTerm
  have htop := h.valid.top_lt
  have hblank := blankRow_wrote hmoved.sound (show moved.scrollTopMargin < moved.rows by omega)
  have htotal := hmoved.trans hblank
  rw [hmoved.cells, hmoved.toFbTerm] at htotal
  rw [hmt]
  convert htotal using 1
  funext j
  change (if ctx.scrollTopMargin * ctx.cols ≤ j ∧ j < (ctx.scrollTopMargin + 1) * ctx.cols then _
    else if (ctx.scrollTopMargin + 1) * ctx.cols ≤ j ∧ j < ctx.scrollBottomMargin * ctx.cols then
      ctx.cells (j - ctx.cols) else ctx.cells j) = _
  rw [hb, Nat.succ_mul b]
  rfl

theorem clear_wrote {ctx : FbContext} (h : Sound ctx) :
    Wrote ctx (clear ctx false) (ctx.plain.clear false).cells := by
  have hfold := foldl_push_wrote (emptyChar ctx.toFbTerm) (· % ctx.cols) (· / ctx.cols)
    (List.range (ctx.rows * ctx.cols)) (fun i hi => ⟨Nat.mod_lt i h.valid.cols_pos,
      (Nat.div_lt_iff_lt_mul h.valid.cols_pos).mpr (List.mem_range.mp hi)⟩) ctx h rfl
  change Wrote ctx (List.foldl (fun ctx' i => pushToQueue ctx' (emptyChar ctx.toFbTerm) (i % ctx.cols) (i / ctx.cols))
    ctx (List.range (ctx.rows * ctx.cols))) _
  convert hfold using 1
  funext j
  refine if_congr ?_ rfl rfl
  constructor
  · intro hj
    exact ⟨j, List.mem_range.mpr hj, div_mod_offset j ctx.cols⟩
  · rintro ⟨i, hi, rfl⟩
    rw [div_mod_offset]
    exact List.mem_range.mp hi

/-! ### What was drawn -/

/-- The cell where the cursor was drawn last. -/
def OldCursorAt (ctx : FbContext) (i : Nat) : Prop :=
  ctx.oldCursorX < ctx.cols ∧ ctx.oldCursorY < ctx.rows ∧ i = ctx.oldCursorX + ctx.oldCursorY * ctx.cols

/-- A cell that waits for nothing shows its character, but for that of the cursor. -/
def Drawn (ctx : FbContext) : Prop :=
  ∀ i < ctx.rows * ctx.cols, ctx.map i = none → ctx.shown i = ctx.grid i ∨ OldCursorAt ctx i

/-- The invariant of a run. -/
structure Ready (ctx : FbContext) : Prop where
  sound : Sound ctx
  drawn : Drawn ctx

theorem Wrote.ready {ctx ctx' : FbContext} {cells : Nat → FbChar} (h : Wrote ctx ctx' cells) (hdrawn : Drawn ctx) :
    Ready ctx' := by
  refine ⟨h.sound, ?_⟩
  obtain ⟨⟨queue, map, rfl⟩, hwaits, -, -⟩ := h
  intro i hi hmap
  exact hdrawn i hi (hwaits i hmap)

/-- The fields of the terminal may change as long as they stay in range. -/
theorem Ready.control {ctx : FbContext} (h : Ready ctx) {term : FbTerm} (hcols : term.cols = ctx.cols)
    (hrows : term.rows = ctx.rows) (hvalid : term.Valid) : Ready { ctx with toFbTerm := term } := by
  have hbuffer : FbContext.buffer { ctx with toFbTerm := term } = ctx.buffer := by
    unfold FbContext.buffer
    rw [hcols]
  refine ⟨⟨hvalid, ?_, ?_⟩, ?_⟩
  · rw [hbuffer, hcols, hrows]
    exact h.sound.buffer
  · rw [hcols, hrows]
    exact h.sound.items
  · intro i hi hmap
    unfold OldCursorAt
    rw [hcols, hrows] at hi ⊢
    exact h.drawn i hi hmap

theorem control_plain (ctx : FbContext) {term : FbTerm} (hcols : term.cols = ctx.cols) :
    FbContext.plain { ctx with toFbTerm := term } = { ctx.plain with toFbTerm := term } := by
  have hbuffer : FbContext.buffer { ctx with toFbTerm := term } = ctx.buffer := by
    unfold FbContext.buffer
    rw [hcols]
  unfold FbContext.plain FbContext.cells
  rw [hbuffer]

/-! ### The cursor and the flush -/

/-- The cell where the cursor is drawn. -/
def CursorAt (ctx : FbContext) (i : Nat) : Prop :=
  ctx.cursorEnabled = true ∧ ctx.cursorX < ctx.cols ∧ ctx.cursorY < ctx.rows ∧
    i = ctx.cursorX + ctx.cursorY * ctx.cols

instance (ctx : FbContext) (i : Nat) : Decidable (CursorAt ctx i) :=
  inferInstanceAs (Decidable (ctx.cursorEnabled = true ∧ ctx.cursorX < ctx.cols ∧ ctx.cursorY < ctx.rows ∧
    i = ctx.cursorX + ctx.cursorY * ctx.cols))

theorem display_eq (ctx : FbContext) (i : Nat) :
    ctx.plain.display i = if CursorAt ctx i then invert (ctx.cells i) else ctx.cells i := rfl

/-- A context in the middle of a flush of `ctx`, when the cursor is drawn. -/
structure Flushing (ctx ctx' : FbContext) : Prop where
  frame : ∃ grid map shown, ctx' = { ctx with grid := grid, map := map, shown := shown }
  linked : ctx'.buffer.Linked
  cells : ctx'.cells = ctx.cells
  cursor : ∀ i, CursorAt ctx i → ctx'.map i = none ∧ ctx'.shown i = invert (ctx.cells i)
  drawn : ∀ i < ctx.rows * ctx.cols, ¬CursorAt ctx i → ctx'.map i = none →
    ctx'.shown i = ctx'.grid i ∨ OldCursorAt ctx i

theorem plotChar_of_lt (ctx : FbContext) (c : FbChar) {x y : Nat} (hx : x < ctx.cols) (hy : y < ctx.rows) :
    plotChar ctx c x y = { ctx with shown := Function.update ctx.shown (x + y * ctx.cols) c } := by
  unfold plotChar
  exact if_neg (by omega)

/-- The cursor takes what waits for its cell with it. -/
theorem drawCursor_flushing {ctx : FbContext} (h : Ready ctx) (hcursor : ctx.cursorEnabled = true) :
    Flushing ctx (drawCursor ctx) := by
  unfold drawCursor
  by_cases hin : ctx.cursorX ≥ ctx.cols ∨ ctx.cursorY ≥ ctx.rows
  · rw [if_pos hin]
    refine ⟨⟨_, _, _, rfl⟩, h.sound.buffer.linked, rfl, ?_, fun i hi _ hmap => h.drawn i hi hmap⟩
    rintro i ⟨-, hx, hy, -⟩
    omega
  · rw [if_neg hin]
    have hx : ctx.cursorX < ctx.cols := by omega
    have hy : ctx.cursorY < ctx.rows := by omega
    dsimp only
    rw [plotChar_of_lt _ _ hx hy, charAt_eq]
    have hat : ∀ i, CursorAt ctx i ↔ i = ctx.cursorX + ctx.cursorY * ctx.cols :=
      fun i => ⟨fun h => h.2.2.2, fun h => ⟨hcursor, hx, hy, h⟩⟩
    generalize ctx.cursorX + ctx.cursorY * ctx.cols = k at hat ⊢
    cases hmap : ctx.map k with
    | none =>
      refine ⟨⟨_, _, _, rfl⟩, h.sound.buffer.linked, rfl, ?_, ?_⟩
      · intro i hi
        rw [(hat i).mp hi]
        exact ⟨hmap, Function.update_self ..⟩
      · intro i hi hne hnone
        have hik : i ≠ k := fun heq => hne ((hat i).mpr heq)
        refine (h.drawn i hi hnone).imp_left fun heq => ?_
        exact (Function.update_of_ne hik ..).trans heq
    | some q =>
      dsimp only
      obtain ⟨v, hv⟩ := h.sound.buffer.linked k q hmap
      have hsettle : (FbContext.buffer { ctx with
          grid := Function.update ctx.grid k (ctx.cells k)
          map := Function.update ctx.map k none
          shown := Function.update ctx.shown k (invert (ctx.cells k)) }) = ctx.buffer.settle (k, v) := by
        have hview : ctx.cells k = v := Buffer.view_of_some hmap hv
        have hne : ctx.buffer.map k ≠ none := by
          rw [show ctx.buffer.map k = some q from hmap]
          exact Option.some_ne_none q
        unfold Buffer.settle
        rw [if_neg hne, hview]
        rfl
      have hmem : (k, v) ∈ ctx.buffer.queue := List.mem_iff_getElem?.mpr ⟨q, hv⟩
      refine ⟨⟨_, _, _, rfl⟩, ?_, ?_, ?_, ?_⟩
      · rw [hsettle]
        exact h.sound.buffer.linked.settle _
      · rw [FbContext.cells, hsettle]
        exact h.sound.buffer.linked.view_settle h.sound.buffer.nodup hmem
      · intro i hi
        rw [(hat i).mp hi]
        exact ⟨Function.update_self .., Function.update_self ..⟩
      · intro i hi hne hnone
        have hik : i ≠ k := fun heq => hne ((hat i).mpr heq)
        have hmapi : ctx.map i = none := (Function.update_of_ne hik ..).symm.trans hnone
        refine (h.drawn i hi hmapi).imp_left fun heq => ?_
        exact (Function.update_of_ne hik ..).trans (heq.trans (Function.update_of_ne hik ..).symm)

/-- A round of the flush draws a cell and leaves nothing that waits for it. -/
theorem flushItem_flushing {ctx ctx' : FbContext} (h : Sound ctx) (hf : Flushing ctx ctx') {item : FbQueueItem}
    (hitem : item ∈ ctx.queue) :
    Flushing ctx (flushItem ctx' item) ∧
      (flushItem ctx' item).buffer = ctx'.buffer.settle (item.y * ctx.cols + item.x, item.c) := by
  obtain ⟨⟨grid, map, shown, rfl⟩, hlinked, hcells, hcursor, hdrawn⟩ := hf
  obtain ⟨hx, hy⟩ := h.items item hitem
  have hmem : (item.y * ctx.cols + item.x, item.c) ∈ ctx.buffer.queue := List.mem_map.mpr ⟨item, hitem, rfl⟩
  unfold flushItem
  dsimp only
  rw [plotChar_of_lt { ctx with grid := grid, map := map, shown := shown } item.c hx hy, Nat.add_comm item.x]
  dsimp only
  generalize item.y * ctx.cols + item.x = k at hmem ⊢
  cases hmap : map k with
  | none =>
    refine ⟨⟨⟨_, _, _, rfl⟩, hlinked, hcells, hcursor, hdrawn⟩, ?_⟩
    exact (if_pos hmap).symm
  | some q =>
    dsimp only
    have hsettle : (FbContext.buffer { ctx with
        grid := Function.update grid k item.c
        map := Function.update map k none
        shown := Function.update shown k item.c }) =
        (FbContext.buffer { ctx with grid := grid, map := map, shown := shown }).settle (k, item.c) := by
      have hne : map k ≠ none := by
        rw [hmap]
        exact Option.some_ne_none q
      exact (if_neg hne).symm
    refine ⟨⟨⟨_, _, _, rfl⟩, ?_, ?_, ?_, ?_⟩, hsettle⟩
    · rw [hsettle]
      exact hlinked.settle _
    · rw [FbContext.cells, hsettle, ← hcells]
      exact hlinked.view_settle h.buffer.nodup hmem
    · intro i hi
      have hik : i ≠ k := by
        rintro rfl
        rw [show map i = none from (hcursor i hi).1] at hmap
        cases hmap
      exact ⟨(Function.update_of_ne hik ..).trans (hcursor i hi).1,
        (Function.update_of_ne hik ..).trans (hcursor i hi).2⟩
    · intro i hi hne hnone
      by_cases hik : i = k
      · left
        rw [hik]
        exact (Function.update_self k item.c shown).trans (Function.update_self k item.c grid).symm
      · have hmapi : map i = none := (Function.update_of_ne hik ..).symm.trans hnone
        refine (hdrawn i hi hne hmapi).imp_left fun heq => ?_
        exact (Function.update_of_ne hik ..).trans (heq.trans (Function.update_of_ne hik ..).symm)

theorem foldl_flushItem {ctx : FbContext} (h : Sound ctx) (l : List FbQueueItem) :
    ∀ ctx' : FbContext, Flushing ctx ctx' → (∀ item ∈ l, item ∈ ctx.queue) →
      Flushing ctx (l.foldl flushItem ctx') ∧ (l.foldl flushItem ctx').buffer =
        (l.map fun item => (item.y * ctx.cols + item.x, item.c)).foldl Buffer.settle ctx'.buffer := by
  induction l with
  | nil => exact fun ctx' hf _ => ⟨hf, rfl⟩
  | cons item l ih =>
    intro ctx' hf hl
    obtain ⟨hf', hbuffer⟩ := flushItem_flushing h hf (hl item (List.mem_cons_self ..))
    obtain ⟨hrest, heq⟩ := ih (flushItem ctx' item) hf' fun i hi => hl i (List.mem_cons_of_mem _ hi)
    refine ⟨hrest, ?_⟩
    rw [List.foldl_cons, heq, hbuffer]
    rfl

/-- The cells of a finished flush. -/
theorem restoreOldCursor_shown {ctx ctx' : FbContext} (hf : Flushing ctx ctx') (hgrid : ctx'.grid = ctx.cells)
    (hmap : ∀ i, ctx'.map i = none) {i : Nat} (hi : i < ctx.rows * ctx.cols) :
    (restoreOldCursor ctx').shown i = ctx.plain.display i := by
  obtain ⟨⟨grid, map, shown, rfl⟩, -, -, hcursor, hdrawn⟩ := hf
  change grid = ctx.cells at hgrid
  rw [display_eq]
  unfold restoreOldCursor
  dsimp only
  by_cases hmoved : (ctx.oldCursorX ≠ ctx.cursorX ∨ ctx.oldCursorY ≠ ctx.cursorY) ∨ ctx.cursorEnabled = false
  · rw [if_pos hmoved]
    by_cases hin : ctx.oldCursorX < ctx.cols ∧ ctx.oldCursorY < ctx.rows
    · rw [if_pos hin, plotChar_of_lt { ctx with grid := grid, map := map, shown := shown } _ hin.1 hin.2]
      by_cases hold : i = ctx.oldCursorX + ctx.oldCursorY * ctx.cols
      · have hnot : ¬CursorAt ctx i := by
          rintro ⟨henabled, hx, hy, heq⟩
          have hoffset : ctx.oldCursorY * ctx.cols + ctx.oldCursorX = ctx.cursorY * ctx.cols + ctx.cursorX := by
            omega
          have hsame := offset_inj hin.1 hx hoffset
          rcases hmoved with hmoved | hmoved
          · omega
          · rw [henabled] at hmoved
            cases hmoved
        rw [if_neg hnot, hold, hgrid]
        exact Function.update_self ..
      · refine (Function.update_of_ne hold ..).trans ?_
        by_cases hat : CursorAt ctx i
        · rw [if_pos hat]
          exact (hcursor i hat).2
        · rw [if_neg hat, ← hgrid]
          rcases hdrawn i hi hat (hmap i) with heq | hat'
          · exact heq
          · exact absurd hat'.2.2 hold
    · rw [if_neg hin]
      by_cases hat : CursorAt ctx i
      · rw [if_pos hat]
        exact (hcursor i hat).2
      · rw [if_neg hat, ← hgrid]
        rcases hdrawn i hi hat (hmap i) with heq | hat'
        · exact heq
        · exact absurd ⟨hat'.1, hat'.2.1⟩ hin
  · rw [if_neg hmoved]
    by_cases hat : CursorAt ctx i
    · rw [if_pos hat]
      exact (hcursor i hat).2
    · rw [if_neg hat, ← hgrid]
      rcases hdrawn i hi hat (hmap i) with heq | ⟨hx, hy, hold⟩
      · exact heq
      · obtain ⟨hxy, henabled⟩ := not_or.mp hmoved
        have hx' : ctx.oldCursorX = ctx.cursorX := by omega
        have hy' : ctx.oldCursorY = ctx.cursorY := by omega
        rw [hx', hy'] at hold
        exact absurd ⟨by simpa using henabled, hx' ▸ hx, hy' ▸ hy, hold⟩ hat

theorem restoreOldCursor_frame (ctx : FbContext) : ∃ shown, restoreOldCursor ctx = { ctx with shown := shown } := by
  unfold restoreOldCursor plotChar
  split_ifs <;> exact ⟨_, rfl⟩

/-- The flush starts with the cursor, if there is one. -/
theorem flushing_start {ctx : FbContext} (h : Ready ctx) :
    Flushing ctx (if ctx.cursorEnabled then drawCursor ctx else ctx) := by
  by_cases hcursor : ctx.cursorEnabled = true
  · rw [if_pos hcursor]
    exact drawCursor_flushing h hcursor
  · rw [if_neg hcursor]
    refine ⟨⟨_, _, _, rfl⟩, h.sound.buffer.linked, rfl, fun i hi => absurd hi.1 hcursor, ?_⟩
    exact fun i hi _ hmap => h.drawn i hi hmap

/-- **A flush shows the screen**, and changes no character. -/
theorem flush_shows {ctx : FbContext} (h : Ready ctx) :
    Ready (doubleBufferFlush ctx) ∧ (doubleBufferFlush ctx).plain = ctx.plain ∧
      ∀ i < ctx.rows * ctx.cols, (doubleBufferFlush ctx).shown i = ctx.plain.display i := by
  have hstart := flushing_start h
  have hqueue : (if ctx.cursorEnabled then drawCursor ctx else ctx).queue = ctx.queue := by
    obtain ⟨grid, map, shown, heq⟩ := hstart.frame
    rw [heq]
  unfold doubleBufferFlush
  dsimp only
  rw [hqueue]
  obtain ⟨hf, hbuffer⟩ := foldl_flushItem h.sound ctx.queue _ hstart fun _ hi => hi
  have hdrain : (ctx.queue.foldl flushItem (if ctx.cursorEnabled then drawCursor ctx else ctx)).buffer =
      (if ctx.cursorEnabled then drawCursor ctx else ctx).buffer.drain := by
    rw [hbuffer, Buffer.drain]
    congr 1
    obtain ⟨grid, map, shown, heq⟩ := hstart.frame
    rw [heq]
    rfl
  have hnodup : ((if ctx.cursorEnabled then drawCursor ctx else ctx).buffer.queue.map Prod.fst).Nodup := by
    obtain ⟨grid, map, shown, heq⟩ := hstart.frame
    rw [heq]
    exact h.sound.buffer.nodup
  generalize ctx.queue.foldl flushItem (if ctx.cursorEnabled then drawCursor ctx else ctx) = ctx' at hf hdrain ⊢
  have hmap : ∀ i, ctx'.map i = none := by
    intro i
    have hi := hstart.linked.map_drain i
    rw [← hdrain] at hi
    exact hi
  have hgrid : ctx'.grid = ctx.cells := by
    have hi := hstart.linked.grid_drain hnodup
    rw [← hdrain] at hi
    exact hi.trans hstart.cells
  have hshown : ∀ i < ctx.rows * ctx.cols, (restoreOldCursor ctx').shown i = ctx.plain.display i :=
    fun i hi => restoreOldCursor_shown hf hgrid hmap hi
  obtain ⟨shown, hrestore⟩ := restoreOldCursor_frame ctx'
  rw [hrestore] at hshown ⊢
  obtain ⟨⟨grid, map, shown', rfl⟩, -, -, -, -⟩ := hf
  obtain rfl : map = fun _ => none := funext hmap
  obtain rfl : grid = ctx.cells := hgrid
  refine ⟨⟨⟨h.sound.valid, Buffer.sound_empty _, fun _ hi => by cases hi⟩, ?_⟩, rfl, hshown⟩
  intro i hi _
  by_cases hat : CursorAt ctx i
  · exact Or.inr ⟨hat.2.1, hat.2.2.1, hat.2.2.2⟩
  · left
    refine (hshown i hi).trans ?_
    rw [display_eq, if_neg hat]

end AncoreOS.Terminal
