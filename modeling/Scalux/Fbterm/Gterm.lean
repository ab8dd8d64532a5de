import Mathlib.Data.Nat.Bits
import Mathlib.Data.Nat.Notation
import Mathlib.Data.List.Basic
import Scalux.Lib.Rows
import Scalux.Lib.WriteBehind
import Scalux.Lib.Uint64

/-! # The grid of the framebuffer terminal

`dev/fbterm/gterm.c`: the terminal keeps a grid of characters, and a queue of the cells that have been written
to since the framebuffer was drawn.  `gterm_double_buffer_flush` draws what is in the queue, and the cursor.

* What `gterm_init` sets up once is a `Setup`.  The glyphs and the canvas behind the text are given.
* A size is an unsigned number of 64 bits.  A memory access outside of the grid, the queue or the map returns
  `none`, and so does a loop that has not ended after as many rounds as there are cells.
* The scrolling region is the terminal's, so that the functions are given it. -/

namespace Scalux.Fbterm

/-- `struct gterm_char`. -/
structure GtermChar where
  c : ℕ
  fg : UInt32
  bg : UInt32
  deriving DecidableEq

/-- A character with its colours exchanged. -/
def GtermChar.inverted (c : GtermChar) : GtermChar := ⟨c.c, c.bg, c.fg⟩

/-- `struct framebuffer_t`, up to its address. -/
structure Framebuffer where
  width : ℕ
  height : ℕ
  pitch : ℕ

/-- `struct font_t` and the header of the font, up to the glyphs. -/
structure Font where
  width : ℕ
  height : ℕ
  spacing : ℕ
  scaleX : ℕ
  scaleY : ℕ

/-- `struct style_t`, up to the gradient. -/
structure Style where
  ansiColours : ℕ → UInt32
  ansiBrightColours : ℕ → UInt32
  foreground : UInt32
  margin : ℕ

/-- What `gterm_init` leaves in a `struct gterm_t` for good. -/
structure Setup where
  framebuffer : Framebuffer
  vgaFontWidth : ℕ
  vgaFontHeight : ℕ
  vgaFontScaleX : ℕ
  vgaFontScaleY : ℕ
  glyphWidth : ℕ
  glyphHeight : ℕ
  vgaFontBool : ℕ → Bool
  bgCanvas : ℕ → UInt32
  ansiColours : ℕ → UInt32
  ansiBrightColours : ℕ → UInt32
  defaultFg : UInt32
  rows : ℕ
  cols : ℕ
  offsetX : ℕ
  offsetY : ℕ

/-- The assignments of `gterm_init` to the fields of a `Setup`, without a background image. -/
def gtermSetup (frm : Framebuffer) (font : Font) (style : Style) (vgaFontBool : ℕ → Bool)
    (bgCanvas : ℕ → UInt32) : Setup :=
  let marginTop := 65
  let margin := if style.margin ≠ 2 ^ 16 - 1 then style.margin else 0
  let fontWidth := font.width + font.spacing
  let scaled := (font.scaleX ≠ 0 ∨ font.scaleY ≠ 0) ∧ ¬ (8 < font.scaleX ∨ 8 < font.scaleY)
  let scaleX := if scaled then font.scaleX else 1
  let scaleY := if scaled then font.scaleY else 1
  let glyphWidth := fontWidth * scaleX
  let glyphHeight := font.height * scaleY
  { framebuffer := frm
    vgaFontWidth := fontWidth
    vgaFontHeight := font.height
    vgaFontScaleX := scaleX
    vgaFontScaleY := scaleY
    glyphWidth := glyphWidth
    glyphHeight := glyphHeight
    vgaFontBool := vgaFontBool
    bgCanvas := bgCanvas
    ansiColours := style.ansiColours
    ansiBrightColours := style.ansiBrightColours
    defaultFg := style.foreground &&& 0xFFFFFF
    rows := sub64 (sub64 (sub64 frm.height 8) margin) marginTop / glyphHeight
    cols := sub64 (sub64 frm.width 8) (margin * 2) / glyphWidth
    offsetX := margin + sub64 frm.width (margin * 2) % glyphWidth / 2 + 4
    offsetY := marginTop + sub64 (sub64 frm.height margin) marginTop % glyphHeight / 2 + 4 }

/-- `struct gterm_context`. -/
structure GtermContext where
  textFg : UInt32 := 0
  textBg : UInt32 := 0
  cursorStatus : Bool := false
  cursorX : ℕ := 0
  cursorY : ℕ := 0
  scrollEnabled : Bool := false
  savedStateTextFg : UInt32 := 0
  savedStateTextBg : UInt32 := 0
  savedStateCursorX : ℕ := 0
  savedStateCursorY : ℕ := 0

/-- What changes in a `struct gterm_t`: `cells` are its `grid`, `queue`, `queue_i` and `map`, and `fb` is the
framebuffer, a memory of words. -/
structure Gterm where
  context : GtermContext
  cells : WriteBehind (ℕ × ℕ) GtermChar
  fb : ℕ → UInt32
  oldCursorX : ℕ
  oldCursorY : ℕ

namespace Setup

variable (S : Setup)

/-- `rows * cols`, the number of elements of the grid, the queue and the map. -/
def cells : ℕ := S.rows * S.cols

/-- The index of a cell. -/
def slot (p : ℕ × ℕ) : ℕ := p.2 * S.cols + p.1

/-! ## Drawing -/

/-- Whether a pixel is drawn in a glyph, at a position of the font. -/
def draw (c : GtermChar) (fx gy : ℕ) : Bool :=
  S.vgaFontBool (c.c * S.vgaFontHeight * S.vgaFontWidth + gy / S.vgaFontScaleY % 256 * S.vgaFontWidth + fx)

/-- The word of the framebuffer for a pixel. -/
def fbIndex (x y : ℕ) : ℕ := x + y * (S.framebuffer.pitch / 4)

/-- The colour of a pixel of a character, when it is drawn or not: the canvas is behind the text. -/
def colour (c : GtermChar) (drawn : Bool) (x y : ℕ) : UInt32 :=
  let canvas := S.bgCanvas (x + y * S.framebuffer.width)
  let bg := if c.bg = 0xFFFFFFFF then canvas else c.bg
  let fg := if c.fg = 0xFFFFFFFF then canvas else c.fg
  if drawn then fg else bg

/-- What the loops of `plot_char_abs` and `plot_char_fast` assign to the framebuffer for a character at a
pixel, leaving out the pixels of the font that `skip` holds of. -/
def glyphWrites (c : GtermChar) (skip : ℕ → ℕ → Bool) (x y : ℕ) : List (ℕ × UInt32) :=
  (List.range S.glyphHeight).flatMap fun gy =>
    (List.range S.vgaFontWidth).flatMap fun fx =>
      if skip fx gy then []
      else (List.range S.vgaFontScaleX).map fun i =>
        let gx := S.vgaFontScaleX * fx + i
        (S.fbIndex (x + gx) (y + gy), S.colour c (S.draw c fx gy) (x + gx) (y + gy))

/-- `plot_char_abs`. -/
def plotCharAbs (fb : ℕ → UInt32) (c : GtermChar) (x y : ℕ) : ℕ → UInt32 :=
  assignAll fb (S.glyphWrites c (fun _ _ => false) x y)

/-- `plot_char`. -/
def plotChar (fb : ℕ → UInt32) (c : GtermChar) (x y : ℕ) : ℕ → UInt32 :=
  if S.cols ≤ x ∨ S.rows ≤ y then fb
  else S.plotCharAbs fb c (S.offsetX + x * S.glyphWidth) (S.offsetY + y * S.glyphHeight)

/-- `plot_char_fast`: only the pixels that differ between the glyphs. -/
def plotCharFast (fb : ℕ → UInt32) (old c : GtermChar) (x y : ℕ) : ℕ → UInt32 :=
  if S.cols ≤ x ∨ S.rows ≤ y then fb
  else
    assignAll fb (S.glyphWrites c (fun fx gy => S.draw old fx gy == S.draw c fx gy)
      (S.offsetX + x * S.glyphWidth) (S.offsetY + y * S.glyphHeight))

end Setup

namespace GtermContext

/-! ## The cursor and the colours

The functions that change the context only. -/

variable (S : Setup)

/-- `gterm_save_state`. -/
def saveState (x : GtermContext) : GtermContext :=
  { x with
    savedStateTextFg := x.textFg
    savedStateTextBg := x.textBg
    savedStateCursorX := x.cursorX
    savedStateCursorY := x.cursorY }

/-- `gterm_restore_state`. -/
def restoreState (x : GtermContext) : GtermContext :=
  { x with
    textFg := x.savedStateTextFg
    textBg := x.savedStateTextBg
    cursorX := x.savedStateCursorX
    cursorY := x.savedStateCursorY }

/-- `gterm_swap_palette`. -/
def swapPalette (x : GtermContext) : GtermContext := { x with textFg := x.textBg, textBg := x.textFg }

/-- `gterm_scroll_disable`, up to what it returns, which is `scrollEnabled` before. -/
def scrollDisable (x : GtermContext) : GtermContext := { x with scrollEnabled := false }

/-- `gterm_scroll_enable`. -/
def scrollEnable (x : GtermContext) : GtermContext := { x with scrollEnabled := true }

/-- `gterm_enable_cursor`. -/
def enableCursor (x : GtermContext) : GtermContext := { x with cursorStatus := true }

/-- `gterm_disable_cursor`, up to what it returns, which is `cursorStatus` before. -/
def disableCursor (x : GtermContext) : GtermContext := { x with cursorStatus := false }

/-- `(int)n < 0`. -/
def intNeg (n : ℕ) : Bool := 2 ^ 31 ≤ n % 2 ^ 32

/-- A coordinate of `gterm_set_cursor_pos`. -/
def clamp (n limit : ℕ) : ℕ := if limit ≤ n then if intNeg n then 0 else decr64 limit else n

/-- `gterm_set_cursor_pos`. -/
def setCursorPos (newX newY : ℕ) (x : GtermContext) : GtermContext :=
  { x with cursorX := clamp newX S.cols, cursorY := clamp newY S.rows }

/-- `gterm_set_text_fg`. -/
def setTextFg (fg : ℕ) (x : GtermContext) : GtermContext := { x with textFg := S.ansiColours fg }

/-- `gterm_set_text_bg`. -/
def setTextBg (bg : ℕ) (x : GtermContext) : GtermContext := { x with textBg := S.ansiColours bg }

/-- `gterm_set_text_fg_bright`. -/
def setTextFgBright (fg : ℕ) (x : GtermContext) : GtermContext :=
  { x with textFg := S.ansiBrightColours fg }

/-- `gterm_set_text_bg_bright`. -/
def setTextBgBright (bg : ℕ) (x : GtermContext) : GtermContext :=
  { x with textBg := S.ansiBrightColours bg }

/-- `gterm_set_text_fg_default`. -/
def setTextFgDefault (x : GtermContext) : GtermContext := { x with textFg := S.defaultFg }

/-- `gterm_set_text_bg_default`. -/
def setTextBgDefault (x : GtermContext) : GtermContext := { x with textBg := 0xFFFFFFFF }

/-- An assignment to the cursor. -/
def moveCursor (newX newY : ℕ) (x : GtermContext) : GtermContext := { x with cursorX := newX, cursorY := newY }

/-- The cursor in `gterm_putchar`, after it has been moved on, and to the next line at the end of one. -/
def nextCursor (bottom : ℕ) (x : GtermContext) : ℕ × ℕ :=
  let newX := (x.cursorX + 1) % 2 ^ 64
  if newX = S.cols ∧ (x.cursorY < decr64 bottom ∨ x.scrollEnabled = true) then (0, (x.cursorY + 1) % 2 ^ 64)
  else (newX, x.cursorY)

/-- A blank in the colours of the text. -/
def empty (x : GtermContext) : GtermChar := ⟨32, x.textFg, x.textBg⟩

end GtermContext

namespace Gterm

variable (S : Setup)

/-- A function that changes the context only. -/
def onContext (f : GtermContext → GtermContext) (g : Gterm) : Gterm := { g with context := f g.context }

/-! ## Characters -/

/-- `push_to_queue`. -/
def pushToQueue (g : Gterm) (c : GtermChar) (x y : ℕ) : Option Gterm :=
  if S.cols ≤ x ∨ S.rows ≤ y then some g
  else (g.cells.push S.slot S.cells (x, y) c).map fun cells => { g with cells := cells }

/-- What is in the queue for a cell, or else in the grid. -/
def charAt (g : Gterm) (i : ℕ) : Option GtermChar := if i < S.cells then some (g.cells.view i) else none

/-- Blanks, from one index to another. -/
def clearRange (g : Gterm) (start stop : ℕ) : Option Gterm :=
  (List.range' start (stop - start)).foldlM (fun g' i => g'.pushToQueue S g.context.empty (i % S.cols) (i / S.cols)) g

/-- `gterm_scroll`. -/
def scroll (top bottom : ℕ) (g : Gterm) : Option Gterm := do
  let start := (top + 1) * S.cols
  let g ← (List.range' start (bottom * S.cols - start)).foldlM (fun g i => do
    let c ← g.charAt S i
    g.pushToQueue S c ((i - S.cols) % S.cols) ((i - S.cols) / S.cols)) g
  g.clearRange S (decr64 bottom * S.cols % 2 ^ 64) (bottom * S.cols)

/-- The loop of `gterm_revscroll` from an index down to another. -/
def revscrollFrom (stop : ℕ) : ℕ → ℕ → Gterm → Option Gterm
  | 0, _, _ => none
  | fuel + 1, i, g => do
      let c ← g.charAt S i
      let g ← g.pushToQueue S c ((i + S.cols) % S.cols) ((i + S.cols) / S.cols)
      if i = stop then some g else revscrollFrom stop fuel (decr64 i) g

/-- `gterm_revscroll`. -/
def revscroll (top bottom : ℕ) (g : Gterm) : Option Gterm := do
  let g ← g.revscrollFrom S (top * S.cols) S.cells (decr64 (decr64 bottom * S.cols % 2 ^ 64))
  g.clearRange S (top * S.cols) ((top + 1) * S.cols)

/-- `gterm_clear`. -/
def clear (move : Bool) (g : Gterm) : Option Gterm := do
  let g ← g.clearRange S 0 S.cells
  if move then some (g.onContext (.moveCursor 0 0)) else some g

/-- `gterm_move_character`. -/
def moveCharacter (newX newY oldX oldY : ℕ) (g : Gterm) : Option Gterm :=
  if S.cols ≤ oldX ∨ S.rows ≤ oldY ∨ S.cols ≤ newX ∨ S.rows ≤ newY then some g
  else do
    let c ← g.charAt S (oldX + oldY * S.cols)
    g.pushToQueue S c newX newY

/-- `gterm_putchar`. -/
def putchar (top bottom : ℕ) (c : ℕ) (g : Gterm) : Option Gterm :=
  (g.pushToQueue S ⟨c, g.context.textFg, g.context.textBg⟩ g.context.cursorX g.context.cursorY).bind fun g =>
    let p := g.context.nextCursor S bottom
    if p.2 = bottom then scroll S top bottom (g.onContext (.moveCursor p.1 (decr64 p.2)))
    else some (g.onContext (.moveCursor p.1 p.2))

/-! ## The framebuffer -/

/-- `draw_cursor`. -/
def drawCursor (g : Gterm) : Option Gterm := do
  let i := g.context.cursorX + g.context.cursorY * S.cols
  let c ← g.charAt S i
  some { g with
    fb := S.plotChar g.fb c.inverted g.context.cursorX g.context.cursorY
    cells := g.cells.settle i }

/-- What is drawn for an element of the queue. -/
def paint (p : ℕ × ℕ) (old c : GtermChar) (fb : ℕ → UInt32) : ℕ → UInt32 :=
  if c.bg = old.bg ∧ c.fg = old.fg then S.plotCharFast fb old c p.1 p.2 else S.plotChar fb c p.1 p.2

/-- `gterm_double_buffer_flush`. -/
def doubleBufferFlush (g : Gterm) : Option Gterm :=
  (if g.context.cursorStatus then g.drawCursor S else some g).bind fun g =>
    let p := g.cells.drain S.slot (paint S) g.fb
    let i := g.oldCursorX + g.oldCursorY * S.cols
    -- the cell that the cursor has left is drawn again as the grid has it
    (if (g.oldCursorX ≠ g.context.cursorX ∨ g.oldCursorY ≠ g.context.cursorY) ∨ g.context.cursorStatus = false then
        if i < S.cells then some (S.plotChar p.2 (p.1.grid i) g.oldCursorX g.oldCursorY) else none
      else some p.2).map fun fb =>
        { g with
          cells := p.1
          fb := fb
          oldCursorX := g.context.cursorX
          oldCursorY := g.context.cursorY }

/-- A `struct gterm_t` before the first call of `gterm_clear`: the memory of the grid and the queue has been
set to zero. -/
def blank (fb : ℕ → UInt32) : Gterm where
  context := { textFg := S.defaultFg, textBg := 0xFFFFFFFF, cursorStatus := true, scrollEnabled := true }
  cells := ⟨fun _ => ⟨0, 0, 0⟩, fun _ => ((0, 0), ⟨0, 0, 0⟩), 0, fun _ => none⟩
  fb := fb
  oldCursorX := 0
  oldCursorY := 0

/-- The end of `gterm_init`, when the canvas has been drawn. -/
def init (fb : ℕ → UInt32) : Option Gterm := do
  let g ← (blank S fb).clear S true
  g.doubleBufferFlush S

end Gterm

end Scalux.Fbterm
