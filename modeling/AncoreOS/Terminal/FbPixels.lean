import AncoreOS.Library.Strokes
import AncoreOS.Terminal.FbScreen

/-!
# The pixels of the terminal (`src/kernel/terminal/src/flanterm_backends/fb.c`)

`plot_char` stores the pixels of a glyph through two pointers, `dest` and `fb_line`, whose strides depend
on the rotation.  `full_refresh` stores the backdrop at computed addresses first.

Every pixel of the screen then shows the dot of the character that was plotted last in its cell, or the
backdrop around the cells (`plots_show`); the words of the framebuffer that are no pixels of the screen
are never stored to.
-/

namespace AncoreOS.Terminal

open Strokes

/-! ### The layout -/

inductive Rotation
  | rotate0
  | rotate90
  | rotate180
  | rotate270
  deriving DecidableEq

/-- What `flanterm_fb_init` keeps of its arguments.  `width` and `height` are exchanged already when the
screen stands on its side. -/
structure FbSurface where
  width : Nat
  height : Nat
  pitch : Nat
  rotation : Rotation
  fontWidth : Nat
  fontHeight : Nat
  fontScaleX : Nat
  fontScaleY : Nat
  margin : Nat
  fontBool : Nat → Bool
  canvas : Option (Nat → BitVec 32)
  defaultBg : BitVec 32

/-- The framebuffer, by the number of the word. -/
abbrev Framebuffer := Int → BitVec 32

namespace FbSurface

variable (g : FbSurface)

def glyphWidth : Nat := g.fontWidth * g.fontScaleX

def glyphHeight : Nat := g.fontHeight * g.fontScaleY

def cols : Nat := (g.width - g.margin * 2) / g.glyphWidth

def rows : Nat := (g.height - g.margin * 2) / g.glyphHeight

def offsetX : Nat := g.margin + (g.width - g.margin * 2) % g.glyphWidth / 2

def offsetY : Nat := g.margin + (g.height - g.margin * 2) % g.glyphHeight / 2

/-- The words of a line. -/
def line : Int := (g.pitch / 4 : Nat)

def dest (x y : Nat) : Int :=
  match g.rotation with
  | .rotate0 => x + y * g.line
  | .rotate90 => (g.height - 1 - y) + x * g.line
  | .rotate180 => (g.width - 1 - x) + (g.height - 1 - y) * g.line
  | .rotate270 => y + (g.width - 1 - x) * g.line

/-- The value that an `int` takes. -/
def toCInt (i : Int) : Int := i.bmod (2 ^ 32)

def outerStride : Int :=
  match g.rotation with
  | .rotate0 => toCInt g.line
  | .rotate90 => -1
  | .rotate180 => toCInt (-g.line)
  | .rotate270 => 1

def innerStride : Int :=
  match g.rotation with
  | .rotate0 => 1
  | .rotate90 => toCInt g.line
  | .rotate180 => -1
  | .rotate270 => toCInt (-g.line)

/-! ### `plot_char` -/

/-- The colour of a dot before the pixel that is behind it. -/
def ink (c : FbChar) (behind : BitVec 32) (dot : Bool) : BitVec 32 :=
  let bg := if c.bg = 0xffffffff#32 then behind else c.bg
  let fg := if c.fg = 0xffffffff#32 then behind else c.fg
  if dot then fg else bg

/-- The start of a glyph in `font_bool`. -/
def glyph (c : FbChar) : Nat := c.c.toNat * g.fontHeight * g.fontWidth

/-- The two outer loops of the functions `plot_char_*`: `scanLine` draws line `gy` of the glyph. -/
def plotLines (scanLine : Nat → Int × Framebuffer → Int × Framebuffer) (x y : Nat)
    (fb : Framebuffer) : Framebuffer :=
  (rounds (fun gy s => (s.1 + g.outerStride, (scanLine gy s).2)) (g.dest x y, fb) g.glyphHeight).2

/-- The functions `plot_char_scaled_*`, before what is behind the glyph.  `fy` is of eight bits. -/
def plotScaled (behind : Nat → BitVec 32) (c : FbChar) (x y : Nat) (fb : Framebuffer) : Framebuffer :=
  if x ≥ g.cols ∨ y ≥ g.rows then fb
  else
    let x := g.offsetX + x * g.glyphWidth
    let y := g.offsetY + y * g.glyphHeight
    g.plotLines (fun gy s =>
      let fy := gy / g.fontScaleY % 256
      let glyphPointer := g.glyph c + fy * g.fontWidth
      rounds (fun fx s =>
        rounds (fun i s =>
          let gx := g.fontScaleX * fx + i
          put g.innerStride
            (ink c (behind (x + (y + gy) * g.width + gx)) (g.fontBool (glyphPointer + fx))) s)
          s g.fontScaleX)
        s g.fontWidth) x y fb

/-- The functions `plot_char_unscaled_*`, before what is behind the glyph. -/
def plotUnscaled (behind : Nat → BitVec 32) (c : FbChar) (x y : Nat) (fb : Framebuffer) : Framebuffer :=
  if x ≥ g.cols ∨ y ≥ g.rows then fb
  else
    let x := g.offsetX + x * g.glyphWidth
    let y := g.offsetY + y * g.glyphHeight
    g.plotLines (fun gy s =>
      let glyphPointer := g.glyph c + gy * g.fontWidth
      rounds (fun fx s =>
        put g.innerStride
          (ink c (behind (x + (y + gy) * g.width + fx)) (g.fontBool (glyphPointer + fx))) s)
        s g.fontWidth) x y fb

def plotCharScaledCanvas (canvas : Nat → BitVec 32) := g.plotScaled canvas

def plotCharScaledUncanvas := g.plotScaled fun _ => g.defaultBg

def plotCharUnscaledCanvas (canvas : Nat → BitVec 32) := g.plotUnscaled canvas

def plotCharUnscaledUncanvas := g.plotUnscaled fun _ => g.defaultBg

/-- The function that `flanterm_fb_init` chooses. -/
def plot : FbChar → Nat → Nat → Framebuffer → Framebuffer :=
  if g.fontScaleX = 1 ∧ g.fontScaleY = 1 then
    match g.canvas with
    | none => g.plotCharUnscaledUncanvas
    | some canvas => g.plotCharUnscaledCanvas canvas
  else
    match g.canvas with
    | none => g.plotCharScaledUncanvas
    | some canvas => g.plotCharScaledCanvas canvas

/-! ### `full_refresh` -/

/-- The word of a pixel, as `full_refresh` computes it. -/
def pixelAt (x y : Nat) : Int :=
  match g.rotation with
  | .rotate0 => y * g.line + x
  | .rotate90 => x * g.line + (g.height - 1 - y)
  | .rotate180 => (g.height - 1 - y) * g.line + (g.width - 1 - x)
  | .rotate270 => (g.width - 1 - x) * g.line + y

/-- The canvas, or the default background. -/
def behind (i : Nat) : BitVec 32 :=
  match g.canvas with
  | some canvas => canvas i
  | none => g.defaultBg

/-- The loops of `full_refresh` over the pixels. -/
def fill (fb : Framebuffer) : Framebuffer :=
  rounds (fun y fb =>
    rounds (fun x fb => Function.update fb (g.pixelAt x y) (g.behind (y * g.width + x))) fb g.width)
    fb g.height

/-! ### What the screen shows -/

/-- The dot of a character at a place of its cell. -/
def dot (c : FbChar) (gx gy : Nat) : Bool :=
  g.fontBool (g.glyph c + gy / g.fontScaleY * g.fontWidth + gx / g.fontScaleX)

/-- A pixel that belongs to a cell. -/
def InGrid (x y : Nat) : Prop :=
  (g.offsetX ≤ x ∧ x < g.offsetX + g.cols * g.glyphWidth) ∧
    g.offsetY ≤ y ∧ y < g.offsetY + g.rows * g.glyphHeight

instance (x y : Nat) : Decidable (g.InGrid x y) := inferInstanceAs (Decidable (_ ∧ _))

/-- The cell of a pixel. -/
def cellOf (x y : Nat) : Nat :=
  (x - g.offsetX) / g.glyphWidth + (y - g.offsetY) / g.glyphHeight * g.cols

/-- The pixel of a screen whose cells show the characters of `shown`. -/
def picture (shown : Nat → Option FbChar) (x y : Nat) : BitVec 32 :=
  let behind := g.behind (x + y * g.width)
  if g.InGrid x y then
    match shown (g.cellOf x y) with
    | some c => ink c behind (g.dot c ((x - g.offsetX) % g.glyphWidth) ((y - g.offsetY) % g.glyphHeight))
    | none => behind
  else behind

def Shows (shown : Nat → Option FbChar) (fb : Framebuffer) : Prop :=
  ∀ x < g.width, ∀ y < g.height, fb (g.pixelAt x y) = g.picture shown x y

/-- The words of the pixels. -/
def screen : Set Int := {a | ∃ x < g.width, ∃ y < g.height, a = g.pixelAt x y}

/-- The pixels of a line of the device. -/
def deviceWidth : Nat :=
  match g.rotation with
  | .rotate0 | .rotate180 => g.width
  | .rotate90 | .rotate270 => g.height

def deviceHeight : Nat :=
  match g.rotation with
  | .rotate0 | .rotate180 => g.height
  | .rotate90 | .rotate270 => g.width

/-- A screen that its framebuffer holds, with strides that are an `int` and a glyph whose lines eight bits
count. -/
structure Fits : Prop where
  fontWidth_pos : 0 < g.fontWidth
  fontHeight_pos : 0 < g.fontHeight
  fontScaleX_pos : 0 < g.fontScaleX
  fontScaleY_pos : 0 < g.fontScaleY
  fontHeight_le : g.fontHeight ≤ 256
  margin_width : g.margin * 2 ≤ g.width
  margin_height : g.margin * 2 ≤ g.height
  pitch : g.deviceWidth ≤ g.pitch / 4
  pitch_lt : g.pitch / 4 < 2 ^ 31

variable {g}

/-! ### Addresses -/

theorem dest_eq (x y : Nat) : g.dest x y = g.pixelAt x y := by
  unfold dest pixelAt
  split <;> ring

theorem Fits.toCInt_line (hg : g.Fits) : toCInt g.line = g.line ∧ toCInt (-g.line) = -g.line := by
  have hline : g.line < 2 ^ 31 := Int.ofNat_lt.mpr hg.pitch_lt
  have hnonneg : 0 ≤ g.line := Int.natCast_nonneg _
  exact ⟨Int.bmod_eq_of_le (by omega) (by omega), Int.bmod_eq_of_le (by omega) (by omega)⟩

/-- The strides move from pixel to pixel. -/
theorem Fits.pixelAt_add (hg : g.Fits) (x y gx gy : Nat) :
    g.pixelAt (x + gx) (y + gy) = g.dest x y + gy * g.outerStride + gx * g.innerStride := by
  obtain ⟨hline, hneg⟩ := hg.toCInt_line
  unfold dest pixelAt outerStride innerStride
  rw [hline, hneg]
  cases g.rotation <;> push_cast <;> ring

theorem row_unique {a b a' b' L : Int} (h : a * L + b = a' * L + b') (hb : 0 ≤ b) (hL : b < L)
    (hb' : 0 ≤ b') (hL' : b' < L) : a = a' ∧ b = b' := by
  have ha : (a * L + b) / L = a := by
    rw [Int.add_comm, Int.add_mul_ediv_right _ _ (by omega), Int.ediv_eq_zero_of_lt hb hL, Int.zero_add]
  have ha' : (a' * L + b') / L = a' := by
    rw [Int.add_comm, Int.add_mul_ediv_right _ _ (by omega), Int.ediv_eq_zero_of_lt hb' hL', Int.zero_add]
  have haa : a = a' := by rw [← ha, h, ha']
  subst haa
  exact ⟨rfl, by omega⟩

/-- Two pixels have two words. -/
theorem Fits.pixelAt_inj (hg : g.Fits) {x y x' y' : Nat} (hx : x < g.width) (hy : y < g.height)
    (hx' : x' < g.width) (hy' : y' < g.height) (h : g.pixelAt x y = g.pixelAt x' y') :
    x = x' ∧ y = y' := by
  have hline : (g.deviceWidth : Int) ≤ g.line := Int.ofNat_le.mpr hg.pitch
  unfold pixelAt at h
  unfold deviceWidth at hline
  cases hr : g.rotation <;> simp only [hr] at h hline <;>
    have huniq := row_unique h (by omega) (by omega) (by omega) (by omega) <;> omega

theorem row_bounds {a b H L : Int} (ha : 0 ≤ a) (haH : a < H) (hb : 0 ≤ b) (hbL : b < L) :
    0 ≤ a * L + b ∧ a * L + b < L * H := by
  have hrow : (a + 1) * L ≤ H * L := Int.mul_le_mul_of_nonneg_right haH (by omega)
  have hstart : 0 ≤ a * L := Int.mul_nonneg ha (by omega)
  rw [Int.add_mul, Int.one_mul] at hrow
  rw [Int.mul_comm L H]
  omega

/-- The pixels lie in the framebuffer. -/
theorem Fits.screen_bounds (hg : g.Fits) {a : Int} (ha : a ∈ g.screen) :
    0 ≤ a ∧ a < g.line * g.deviceHeight := by
  obtain ⟨x, hx, y, hy, rfl⟩ := ha
  have hline : (g.deviceWidth : Int) ≤ g.line := Int.ofNat_le.mpr hg.pitch
  unfold pixelAt deviceHeight
  unfold deviceWidth at hline
  cases hr : g.rotation <;> simp only [hr] at hline ⊢ <;>
    exact row_bounds (by omega) (by omega) (by omega) (by omega)

/-- Any colours of the pixels are those of a framebuffer. -/
theorem Fits.exists_framebuffer (hg : g.Fits) (P : Nat → Nat → BitVec 32) :
    ∃ v : Framebuffer, ∀ x < g.width, ∀ y < g.height, v (g.pixelAt x y) = P x y := by
  have hinj : Function.Injective fun p : Fin g.width × Fin g.height => g.pixelAt p.1 p.2 := by
    rintro ⟨x, y⟩ ⟨x', y'⟩ h
    obtain ⟨hx, hy⟩ := hg.pixelAt_inj x.isLt y.isLt x'.isLt y'.isLt h
    exact Prod.ext (Fin.ext hx) (Fin.ext hy)
  refine ⟨Function.extend (fun p : Fin g.width × Fin g.height => g.pixelAt p.1 p.2)
    (fun p => P p.1 p.2) 0, fun x hx y hy => ?_⟩
  exact hinj.extend_apply (fun p => P p.1 p.2) 0 (⟨x, hx⟩, ⟨y, hy⟩)

/-! ### The loops -/

/-- The words of a line of a glyph at a pixel. -/
def lineAt (g : FbSurface) (x y : Nat) : Set Int := ⋃ gx < g.glyphWidth, {g.pixelAt (x + gx) y}

/-- The words of a glyph at a pixel. -/
def glyphAt (g : FbSurface) (x y : Nat) : Set Int := ⋃ gy < g.glyphHeight, g.lineAt x (y + gy)

theorem paints_plotLines {scanLine : Nat → Int × Framebuffer → Int × Framebuffer} {x y : Nat}
    {v fb : Framebuffer}
    (h : ∀ gy < g.glyphHeight, ∃ q,
      Stroke v (scanLine gy) (g.dest x y + gy * g.outerStride) q (g.lineAt x (y + gy))) :
    Paints (g.glyphAt x y) v fb (g.plotLines scanLine x y fb) := by
  refine (Stroke.rounds g.outerStride (fun gy hgy => ?_) fb).2
  obtain ⟨q, hstroke⟩ := h gy hgy
  have hline := hstroke.line g.outerStride
  have hend : g.dest x y + gy * g.outerStride + g.outerStride =
      g.dest x y + (gy + 1 : Nat) * g.outerStride := by push_cast; ring
  rwa [hend] at hline

/-- A loop that stores the dots of a line one by one. -/
theorem stroke_dots {v : Framebuffer} {colour : Nat → BitVec 32} {p stride : Int} {n : Nat}
    (h : ∀ k < n, colour k = v (p + k * stride)) :
    Stroke v (fun s => rounds (fun k s => put stride (colour k) s) s n) p (p + n * stride)
      (⋃ k < n, {p + (k : Int) * stride}) := by
  refine Stroke.rounds stride fun k hk => ?_
  have hput := stroke_put stride (h k hk)
  have hend : p + k * stride + stride = p + (k + 1 : Nat) * stride := by push_cast; ring
  rwa [hend] at hput

/-- A loop in which each dot is stored `scale` times. -/
theorem stroke_scaled {v : Framebuffer} {colour : Nat → Nat → BitVec 32} {p stride : Int} {n scale : Nat}
    (h : ∀ fx < n, ∀ i < scale, colour fx i = v (p + (scale * fx + i : Nat) * stride)) :
    Stroke v (fun s => rounds (fun fx s => rounds (fun i s => put stride (colour fx i) s) s scale) s n) p
      (p + n * (scale * stride)) (⋃ k < n * scale, {p + (k : Int) * stride}) := by
  have hset : (⋃ k < n * scale, {p + (k : Int) * stride}) =
      ⋃ fx < n, ⋃ i < scale, {p + fx * (scale * stride) + (i : Int) * stride} := by
    ext a
    simp only [Set.mem_iUnion, Set.mem_singleton_iff, exists_prop]
    constructor
    · rintro ⟨k, hk, rfl⟩
      have hscale : 0 < scale := Nat.pos_of_ne_zero fun h0 => by simp [h0] at hk
      refine ⟨k / scale, Nat.div_lt_of_lt_mul (by rwa [Nat.mul_comm]), k % scale, Nat.mod_lt _ hscale, ?_⟩
      have hk' : (k : Int) = scale * (k / scale : Nat) + (k % scale : Nat) := by
        exact_mod_cast (Nat.div_add_mod k scale).symm
      rw [hk']
      ring
    · rintro ⟨fx, hfx, i, hi, rfl⟩
      refine ⟨scale * fx + i, ?_, by push_cast; ring⟩
      calc scale * fx + i < scale * (fx + 1) := by rw [Nat.mul_succ]; omega
        _ ≤ n * scale := by rw [Nat.mul_comm n]; exact Nat.mul_le_mul_left _ hfx
  rw [hset]
  refine Stroke.rounds (scale * stride) fun fx hfx => ?_
  have hdots : Stroke v _ _ _ _ := stroke_dots fun i hi => show colour fx i =
      v (p + fx * (scale * stride) + i * stride) by
    rw [h fx hfx i hi]
    congr 1
    push_cast
    ring
  have hend : p + fx * (scale * stride) + scale * stride = p + (fx + 1 : Nat) * (scale * stride) := by
    push_cast
    ring
  rwa [hend] at hdots

theorem Fits.lineAt_eq (hg : g.Fits) (x y gy : Nat) :
    g.lineAt x (y + gy) =
      ⋃ gx < g.glyphWidth, {g.dest x y + gy * g.outerStride + (gx : Int) * g.innerStride} := by
  simp only [lineAt, hg.pixelAt_add]

section Glyph

variable {v fb : Framebuffer} {c : FbChar} {x y : Nat}

/-- The corner of a cell. -/
def cornerX (g : FbSurface) (x : Nat) : Nat := g.offsetX + x * g.glyphWidth

def cornerY (g : FbSurface) (y : Nat) : Nat := g.offsetY + y * g.glyphHeight

/-- A picture in which a cell shows a character. -/
def CellIs (g : FbSurface) (v : Framebuffer) (c : FbChar) (x y : Nat) : Prop :=
  ∀ gx < g.glyphWidth, ∀ gy < g.glyphHeight,
    ink c (g.behind (g.cornerX x + (g.cornerY y + gy) * g.width + gx)) (g.dot c gx gy) =
      v (g.pixelAt (g.cornerX x + gx) (g.cornerY y + gy))

theorem Fits.paints_plotUnscaled (hg : g.Fits) (hscale : g.fontScaleX = 1 ∧ g.fontScaleY = 1) (hx : x < g.cols)
    (hy : y < g.rows) (hv : g.CellIs v c x y) :
    Paints (g.glyphAt (g.cornerX x) (g.cornerY y)) v fb (g.plotUnscaled g.behind c x y fb) := by
  have hwidth : g.glyphWidth = g.fontWidth := by rw [glyphWidth, hscale.1, Nat.mul_one]
  rw [plotUnscaled, if_neg (by omega)]
  refine paints_plotLines fun gy hgy => ?_
  apply Exists.intro
  rw [hg.lineAt_eq, hwidth]
  refine stroke_dots fun fx hfx => ?_
  have hcell := hv fx (by omega) gy hgy
  rw [hg.pixelAt_add, dot, hscale.1, hscale.2, Nat.div_one, Nat.div_one] at hcell
  simpa only [cornerX, cornerY, hwidth] using hcell

theorem Fits.paints_plotScaled (hg : g.Fits) (hx : x < g.cols) (hy : y < g.rows)
    (hv : g.CellIs v c x y) :
    Paints (g.glyphAt (g.cornerX x) (g.cornerY y)) v fb (g.plotScaled g.behind c x y fb) := by
  rw [plotScaled, if_neg (by omega)]
  refine paints_plotLines fun gy hgy => ?_
  apply Exists.intro
  rw [hg.lineAt_eq, glyphWidth]
  -- a line of the glyph is a line of the font, which eight bits count
  have hline : gy / g.fontScaleY % 256 = gy / g.fontScaleY := by
    have hlt : gy / g.fontScaleY < g.fontHeight :=
      Nat.div_lt_of_lt_mul (by rwa [Nat.mul_comm, ← glyphHeight])
    exact Nat.mod_eq_of_lt (lt_of_lt_of_le hlt hg.fontHeight_le)
  refine stroke_scaled fun fx hfx i hi => ?_
  have hgx : g.fontScaleX * fx + i < g.glyphWidth := by
    calc g.fontScaleX * fx + i < g.fontScaleX * (fx + 1) := by rw [Nat.mul_succ]; omega
      _ ≤ g.fontWidth * g.fontScaleX := by
        rw [Nat.mul_comm g.fontWidth]
        exact Nat.mul_le_mul_left _ hfx
  have hcell := hv _ hgx gy hgy
  have hdot : (g.fontScaleX * fx + i) / g.fontScaleX = fx := by
    rw [Nat.mul_add_div hg.fontScaleX_pos, Nat.div_eq_of_lt hi, Nat.add_zero]
  rw [hg.pixelAt_add, dot, hdot] at hcell
  rw [hline]
  exact hcell

theorem plot_eq : g.plot =
    if g.fontScaleX = 1 ∧ g.fontScaleY = 1 then g.plotUnscaled g.behind else g.plotScaled g.behind := by
  have hbehind : g.behind = g.canvas.getD fun _ => g.defaultBg := by
    funext i
    unfold behind
    cases g.canvas <;> rfl
  rw [hbehind]
  unfold plot
  cases g.canvas <;> rfl

theorem Fits.paints_plot (hg : g.Fits) (hx : x < g.cols) (hy : y < g.rows) (hv : g.CellIs v c x y) :
    Paints (g.glyphAt (g.cornerX x) (g.cornerY y)) v fb (g.plot c x y fb) := by
  rw [plot_eq]
  split
  · exact hg.paints_plotUnscaled ‹_› hx hy hv
  · exact hg.paints_plotScaled hx hy hv

theorem plot_of_outside (h : ¬(x < g.cols ∧ y < g.rows)) : g.plot c x y fb = fb := by
  have hout : x ≥ g.cols ∨ y ≥ g.rows := by omega
  rw [plot_eq]
  split
  · rw [plotUnscaled, if_pos hout]
  · rw [plotScaled, if_pos hout]

end Glyph

/-! ### Cells -/

theorem Fits.glyphWidth_pos (hg : g.Fits) : 0 < g.glyphWidth :=
  Nat.mul_pos hg.fontWidth_pos hg.fontScaleX_pos

theorem Fits.glyphHeight_pos (hg : g.Fits) : 0 < g.glyphHeight :=
  Nat.mul_pos hg.fontHeight_pos hg.fontScaleY_pos

/-- The cells lie within the screen. -/
theorem cells_le {margin width glyphWidth : Nat} (h : margin * 2 ≤ width) :
    margin + (width - margin * 2) % glyphWidth / 2 + (width - margin * 2) / glyphWidth * glyphWidth ≤
      width := by
  have hdiv := Nat.div_add_mod' (width - margin * 2) glyphWidth
  omega

theorem corner_lt {offset n i w k : Nat} (hi : i < n) (hk : k < w) : offset + i * w + k < offset + n * w := by
  have hmul : (i + 1) * w ≤ n * w := Nat.mul_le_mul_right w hi
  rw [Nat.succ_mul] at hmul
  omega

section Cell

variable {x y gx gy : Nat}

theorem Fits.corner_width (hg : g.Fits) (hx : x < g.cols) (hgx : gx < g.glyphWidth) :
    g.cornerX x + gx < g.width :=
  lt_of_lt_of_le (corner_lt hx hgx) (cells_le hg.margin_width)

theorem Fits.corner_height (hg : g.Fits) (hy : y < g.rows) (hgy : gy < g.glyphHeight) :
    g.cornerY y + gy < g.height :=
  lt_of_lt_of_le (corner_lt hy hgy) (cells_le hg.margin_height)

/-- The pixel of a screen in a cell that shows a character. -/
theorem picture_corner {shown : Nat → Option FbChar} {c : FbChar} (hx : x < g.cols) (hy : y < g.rows)
    (hgx : gx < g.glyphWidth) (hgy : gy < g.glyphHeight) (hc : shown (x + y * g.cols) = some c) :
    g.picture shown (g.cornerX x + gx) (g.cornerY y + gy) =
      ink c (g.behind (g.cornerX x + (g.cornerY y + gy) * g.width + gx)) (g.dot c gx gy) := by
  have hin : g.InGrid (g.cornerX x + gx) (g.cornerY y + gy) :=
    ⟨⟨by unfold cornerX; omega, corner_lt hx hgx⟩, by unfold cornerY; omega, corner_lt hy hgy⟩
  have hsubX : g.cornerX x + gx - g.offsetX = x * g.glyphWidth + gx := by unfold cornerX; omega
  have hsubY : g.cornerY y + gy - g.offsetY = y * g.glyphHeight + gy := by unfold cornerY; omega
  have hcell : g.cellOf (g.cornerX x + gx) (g.cornerY y + gy) = x + y * g.cols := by
    rw [cellOf, hsubX, hsubY, Nat.mul_comm x, Nat.mul_comm y g.glyphHeight, Nat.mul_add_div (by omega),
      Nat.mul_add_div (by omega), Nat.div_eq_of_lt hgx, Nat.div_eq_of_lt hgy, Nat.add_zero, Nat.add_zero]
  have hbehind : g.cornerX x + gx + (g.cornerY y + gy) * g.width =
      g.cornerX x + (g.cornerY y + gy) * g.width + gx := Nat.add_right_comm ..
  rw [picture, if_pos hin, hcell, hc, hsubX, hsubY, Nat.mul_add_mod_of_lt hgx,
    Nat.mul_add_mod_of_lt hgy, hbehind]

theorem InGrid.column_lt {px py : Nat} (hin : g.InGrid px py) : (px - g.offsetX) / g.glyphWidth < g.cols := by
  obtain ⟨⟨hle, hlt⟩, -⟩ := hin
  exact Nat.div_lt_of_lt_mul (by rw [Nat.mul_comm]; omega)

theorem glyphAt_subset (hg : g.Fits) (hx : x < g.cols) (hy : y < g.rows) :
    g.glyphAt (g.cornerX x) (g.cornerY y) ⊆ g.screen := by
  intro a ha
  simp only [glyphAt, lineAt, Set.mem_iUnion, Set.mem_singleton_iff] at ha
  obtain ⟨gy, hgy, gx, hgx, rfl⟩ := ha
  exact ⟨_, hg.corner_width hx hgx, _, hg.corner_height hy hgy, rfl⟩

/-- A pixel of a cell is one of those that `plot_char` stores there. -/
theorem Fits.mem_glyphAt (hg : g.Fits) {px py : Nat} (hx : x < g.cols) (hin : g.InGrid px py)
    (hcell : g.cellOf px py = x + y * g.cols) :
    g.pixelAt px py ∈ g.glyphAt (g.cornerX x) (g.cornerY y) := by
  have hcol := hin.column_lt
  obtain ⟨⟨hleX, -⟩, hleY, -⟩ := hin
  have heqX : (px - g.offsetX) / g.glyphWidth = x := by
    have hmod := congrArg (· % g.cols) hcell
    simpa only [cellOf, Nat.add_mul_mod_self_right, Nat.mod_eq_of_lt hcol, Nat.mod_eq_of_lt hx] using hmod
  have heqY : (py - g.offsetY) / g.glyphHeight = y := by
    rw [cellOf, heqX] at hcell
    exact Nat.eq_of_mul_eq_mul_right (by omega) (Nat.add_left_cancel hcell)
  have hpx : px = g.cornerX x + (px - g.offsetX) % g.glyphWidth := by
    have hdiv := Nat.div_add_mod' (px - g.offsetX) g.glyphWidth
    rw [heqX] at hdiv
    unfold cornerX
    omega
  have hpy : py = g.cornerY y + (py - g.offsetY) % g.glyphHeight := by
    have hdiv := Nat.div_add_mod' (py - g.offsetY) g.glyphHeight
    rw [heqY] at hdiv
    unfold cornerY
    omega
  simp only [glyphAt, lineAt, Set.mem_iUnion, Set.mem_singleton_iff]
  exact ⟨_, Nat.mod_lt _ hg.glyphHeight_pos, _, Nat.mod_lt _ hg.glyphWidth_pos, by rw [← hpx, ← hpy]⟩

end Cell

/-- The number of the cell of a pixel. -/
theorem InGrid.cellOf_lt {px py : Nat} (hin : g.InGrid px py) : g.cellOf px py < g.rows * g.cols := by
  have hrow : (py - g.offsetY) / g.glyphHeight < g.rows := by
    obtain ⟨-, hle, hlt⟩ := hin
    exact Nat.div_lt_of_lt_mul (by rw [Nat.mul_comm]; omega)
  rw [cellOf, Nat.add_comm]
  exact offset_lt hin.column_lt hrow

/-- Only the cell of a pixel matters to it. -/
theorem picture_congr {shown shown' : Nat → Option FbChar} {px py : Nat}
    (h : g.InGrid px py → shown (g.cellOf px py) = shown' (g.cellOf px py)) :
    g.picture shown px py = g.picture shown' px py := by
  unfold picture
  by_cases hin : g.InGrid px py
  · rw [if_pos hin, if_pos hin, h hin]
  · rw [if_neg hin, if_neg hin]

theorem Shows.congr {shown shown' : Nat → Option FbChar} {fb : Framebuffer} (h : g.Shows shown fb)
    (heq : ∀ i < g.rows * g.cols, shown i = shown' i) : g.Shows shown' fb := fun px hpx py hpy =>
  (h px hpx py hpy).trans (picture_congr fun hin => heq _ hin.cellOf_lt)

/-! ### What is drawn -/

/-- `plot_char` draws its character in its cell, and nothing else. -/
theorem Fits.plot_shows (hg : g.Fits) {shown : Nat → Option FbChar} {fb : Framebuffer} (c : FbChar)
    {x y : Nat} (hx : x < g.cols) (hy : y < g.rows) (h : g.Shows shown fb) :
    g.Shows (Function.update shown (x + y * g.cols) (some c)) (g.plot c x y fb) := by
  obtain ⟨v, hv⟩ := hg.exists_framebuffer (g.picture (Function.update shown (x + y * g.cols) (some c)))
  have hcell : g.CellIs v c x y := by
    intro gx hgx gy hgy
    rw [hv _ (hg.corner_width hx hgx) _ (hg.corner_height hy hgy)]
    exact (picture_corner hx hy hgx hgy (Function.update_self ..)).symm
  have hpaints : Paints _ v fb (g.plot c x y fb) := hg.paints_plot hx hy hcell
  obtain ⟨hpainted, hkept⟩ := hpaints
  intro px hpx py hpy
  by_cases hmem : g.pixelAt px py ∈ g.glyphAt (g.cornerX x) (g.cornerY y)
  · rw [hpainted _ hmem, hv px hpx py hpy]
  · rw [hkept _ hmem, h px hpx py hpy]
    refine picture_congr fun hin => ?_
    have hne : g.cellOf px py ≠ x + y * g.cols := fun heq => hmem (hg.mem_glyphAt hx hin heq)
    exact (Function.update_of_ne hne ..).symm

theorem Fits.plot_frame (hg : g.Fits) (fb : Framebuffer) (c : FbChar) (x y : Nat) :
    ∀ a ∉ g.screen, g.plot c x y fb a = fb a := by
  intro a ha
  by_cases hxy : x < g.cols ∧ y < g.rows
  · obtain ⟨v, hv⟩ := hg.exists_framebuffer (g.picture fun _ => some c)
    have hcell : g.CellIs v c x y := by
      intro gx hgx gy hgy
      rw [hv _ (hg.corner_width hxy.1 hgx) _ (hg.corner_height hxy.2 hgy)]
      exact (picture_corner hxy.1 hxy.2 hgx hgy rfl).symm
    exact (hg.paints_plot hxy.1 hxy.2 hcell).2 a fun hmem => ha (glyphAt_subset hg hxy.1 hxy.2 hmem)
  · rw [plot_of_outside hxy]

theorem iUnion_pixelAt (g : FbSurface) : (⋃ y < g.height, ⋃ x < g.width, {g.pixelAt x y}) = g.screen := by
  ext a
  simp only [screen, Set.mem_iUnion, Set.mem_singleton_iff, Set.mem_ofPred_eq, exists_prop]
  exact ⟨fun ⟨y, hy, x, hx, ha⟩ => ⟨x, hx, y, hy, ha⟩, fun ⟨x, hx, y, hy, ha⟩ => ⟨y, hy, x, hx, ha⟩⟩

/-- The loops over the pixels leave an empty screen. -/
theorem Fits.fill_shows (hg : g.Fits) (fb : Framebuffer) :
    g.Shows (fun _ => none) (g.fill fb) ∧ ∀ a ∉ g.screen, g.fill fb a = fb a := by
  obtain ⟨v, hv⟩ := hg.exists_framebuffer fun x y => g.behind (y * g.width + x)
  have hfill : Paints g.screen v fb (g.fill fb) := by
    rw [← iUnion_pixelAt]
    refine paints_rounds fun y hy m => paints_rounds fun x hx m => ?_
    exact paints_update (hv x hx y hy).symm
  refine ⟨fun x hx y hy => ?_, hfill.2⟩
  rw [hfill.1 _ ⟨x, hx, y, hy, rfl⟩, hv x hx y hy, Nat.add_comm, picture]
  exact (ite_self _).symm

end FbSurface

/-! ### The screen of the kernel -/

/-- The cases of `rotation`; the first is the default. -/
def rotationOf (rotation : Nat) : Rotation :=
  match rotation with
  | 1 => .rotate90
  | 2 => .rotate180
  | 3 => .rotate270
  | _ => .rotate0

/-- The scale that `flanterm_fb_init` chooses when it is given none. -/
def fontScale (width height : Nat) : Nat :=
  if width ≥ 3840 + 3840 / 3 ∧ height ≥ 2160 + 2160 / 3 then 4
  else if width ≥ 1920 + 1920 / 3 ∧ height ≥ 1080 + 1080 / 3 then 2
  else 1

/-- The call of `flanterm_fb_init` in `kernel_main`: no allocator, so that the size is limited, and the
font of the terminal with a column between the glyphs.  Its last argument, a white, is the rotation. -/
def kernelSurface (width height pitch : Nat) (fontBool : Nat → Bool) : FbSurface where
  width := min width 1920
  height := min height 1200
  pitch := pitch
  rotation := rotationOf 0xFFFFFF
  fontWidth := 8 + 1
  fontHeight := 16
  fontScaleX := fontScale width height
  fontScaleY := fontScale width height
  margin := 0
  fontBool := fontBool
  canvas := none
  defaultBg := 0x00000000

theorem fontScale_pos (width height : Nat) : 0 < fontScale width height := by
  unfold fontScale
  split_ifs <;> omega

/-- A framebuffer whose lines hold their pixels is enough for the kernel. -/
theorem kernelSurface_fits {width pitch : Nat} (height : Nat) (fontBool : Nat → Bool) (h : width ≤ pitch / 4)
    (hlt : pitch / 4 < 2 ^ 31) :
    (kernelSurface width height pitch fontBool).Fits where
  fontWidth_pos := Nat.succ_pos 8
  fontHeight_pos := Nat.succ_pos 15
  fontScaleX_pos := fontScale_pos width height
  fontScaleY_pos := fontScale_pos width height
  fontHeight_le := show 16 ≤ 256 by decide
  margin_width := Nat.zero_le _
  margin_height := Nat.zero_le _
  pitch := (Nat.min_le_left width 1920).trans h
  pitch_lt := hlt

end AncoreOS.Terminal
