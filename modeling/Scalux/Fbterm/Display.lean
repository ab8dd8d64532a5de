import Scalux.Fbterm.Grid

/-! # What the terminal draws

A cell of the screen is a rectangle of pixels, and distinct cells have no pixel in common.  `plot_char` draws
all of the pixels of a cell; `plot_char_fast` leaves out those that are alike in the old and the new glyph, so
that it is right if the old character is there in the same colours.

* **`Shows`**: a cell of the framebuffer shows a character.
* **`shows_plotChar`**, **`shows_plotCharFast`**, **`Shows.plotChar`**, **`Shows.plotCharFast`**: what is shown
  after a character has been drawn, in its cell and in the others.
* **`gtermSetup_wellFormed`**: the cells that `gterm_init` lays out are apart, and inside of the framebuffer. -/

namespace Scalux.Fbterm

namespace Setup

variable {S : Setup} {fb : ℕ → UInt32} {c old d : GtermChar} {x y x' y' a : ℕ} {skip : ℕ → ℕ → Bool}

/-- The cells lie in the lines of the framebuffer. -/
structure WellFormed (S : Setup) : Prop where
  sized : S.Sized
  glyphWidth_eq : S.glyphWidth = S.vgaFontWidth * S.vgaFontScaleX
  right : S.offsetX + S.cols * S.glyphWidth ≤ S.framebuffer.pitch / 4
  below : S.offsetY + S.rows * S.glyphHeight ≤ S.framebuffer.height

/-- The pixel of a cell, from its corner. -/
def pixel (S : Setup) (x y gx gy : ℕ) : ℕ × ℕ :=
  (S.offsetX + x * S.glyphWidth + gx, S.offsetY + y * S.glyphHeight + gy)

/-- The word of the framebuffer for a pixel. -/
def word (S : Setup) (p : ℕ × ℕ) : ℕ := S.fbIndex p.1 p.2

/-- The colour of a pixel of a cell that shows a character. -/
def shown (S : Setup) (c : GtermChar) (x y gx gy : ℕ) : UInt32 :=
  let p := S.pixel x y gx gy
  S.colour c (S.draw c (gx / S.vgaFontScaleX) gy) p.1 p.2

/-- **A cell of the framebuffer shows a character.** -/
def Shows (S : Setup) (fb : ℕ → UInt32) (c : GtermChar) (x y : ℕ) : Prop :=
  ∀ gx gy, gx < S.glyphWidth → gy < S.glyphHeight → fb (S.word (S.pixel x y gx gy)) = S.shown c x y gx gy

/-! ## Words and pixels -/

/-- A pixel of a cell is inside of the framebuffer. -/
theorem WellFormed.pixel_lt (hS : S.WellFormed) {gx gy : ℕ} (hx : x < S.cols) (hy : y < S.rows)
    (hgx : gx < S.glyphWidth) (hgy : gy < S.glyphHeight) :
    (S.pixel x y gx gy).1 < S.framebuffer.pitch / 4 ∧ (S.pixel x y gx gy).2 < S.framebuffer.height := by
  have hright := hS.right
  have hbelow := hS.below
  have hcol : (x + 1) * S.glyphWidth ≤ S.cols * S.glyphWidth := Nat.mul_le_mul_right _ hx
  have hrow : (y + 1) * S.glyphHeight ≤ S.rows * S.glyphHeight := Nat.mul_le_mul_right _ hy
  rw [Nat.succ_mul] at hcol hrow
  unfold pixel
  exact ⟨by dsimp only; omega, by dsimp only; omega⟩

/-- Distinct pixels have distinct words. -/
theorem word_inj {p q : ℕ × ℕ} (hp : p.1 < S.framebuffer.pitch / 4) (hq : q.1 < S.framebuffer.pitch / 4)
    (h : S.word p = S.word q) : p = q := by
  unfold word fbIndex at h
  rw [Nat.add_comm, Nat.add_comm q.1] at h
  obtain ⟨hsnd, hfst⟩ := row_inj hp hq h
  exact Prod.ext hfst hsnd

/-- **Distinct cells have no pixel in common**, and the pixels of a cell are distinct. -/
theorem WellFormed.cell_inj (hS : S.WellFormed) {gx gy gx' gy' : ℕ} (hx : x < S.cols) (hy : y < S.rows)
    (hx' : x' < S.cols) (hy' : y' < S.rows) (hgx : gx < S.glyphWidth) (hgy : gy < S.glyphHeight)
    (hgx' : gx' < S.glyphWidth) (hgy' : gy' < S.glyphHeight)
    (h : S.word (S.pixel x y gx gy) = S.word (S.pixel x' y' gx' gy')) :
    (x = x' ∧ y = y') ∧ gx = gx' ∧ gy = gy' := by
  have heq := word_inj (hS.pixel_lt hx hy hgx hgy).1 (hS.pixel_lt hx' hy' hgx' hgy').1 h
  obtain ⟨hfst, hsnd⟩ := Prod.ext_iff.mp heq
  unfold pixel at hfst hsnd
  dsimp only at hfst hsnd
  obtain ⟨hxx, hgxx⟩ := row_inj hgx hgx' (by omega : x * S.glyphWidth + gx = x' * S.glyphWidth + gx')
  obtain ⟨hyy, hgyy⟩ := row_inj hgy hgy' (by omega : y * S.glyphHeight + gy = y' * S.glyphHeight + gy')
  exact ⟨⟨hxx, hyy⟩, hgxx, hgyy⟩

/-! ## Characters that are drawn -/

/-- The pixels that are drawn in a cell, from its corner, leaving out those that `skip` holds of. -/
def drawn (S : Setup) (skip : ℕ → ℕ → Bool) : List (ℕ × ℕ) :=
  (List.range S.glyphHeight).flatMap fun gy =>
    (List.range S.vgaFontWidth).flatMap fun fx =>
      if skip fx gy then [] else (List.range S.vgaFontScaleX).map fun i => (S.vgaFontScaleX * fx + i, gy)

/-- The pixels of a glyph that are drawn. -/
theorem mem_drawn (hS : S.WellFormed) {gx gy : ℕ} :
    (gx, gy) ∈ S.drawn skip ↔
      gx < S.glyphWidth ∧ gy < S.glyphHeight ∧ skip (gx / S.vgaFontScaleX) gy = false := by
  unfold drawn
  simp only [List.mem_flatMap, List.mem_range]
  constructor
  -- a pixel of the glyph belongs to the column of the font it is scaled from
  · rintro ⟨gy', hgy', fx, hfx, hmem⟩
    cases hskip : skip fx gy' with
    | true =>
        rw [hskip, if_pos rfl] at hmem
        exact absurd hmem List.not_mem_nil
    | false =>
        rw [hskip, if_neg Bool.false_ne_true] at hmem
        obtain ⟨i, hi, heq⟩ := List.mem_map.mp hmem
        obtain ⟨hgx, rfl⟩ := Prod.ext_iff.mp heq
        have hi' := List.mem_range.mp hi
        have hle : (fx + 1) * S.vgaFontScaleX ≤ S.vgaFontWidth * S.vgaFontScaleX := Nat.mul_le_mul_right _ hfx
        rw [Nat.mul_comm] at hgx
        rw [Nat.succ_mul] at hle
        dsimp only at hgx
        rw [← hgx, row_div hi' fx, hS.glyphWidth_eq]
        exact ⟨by omega, hgy', hskip⟩
  · rintro ⟨hgx, hgy, hskip⟩
    rw [hS.glyphWidth_eq, Nat.mul_comm] at hgx
    refine ⟨gy, hgy, gx / S.vgaFontScaleX, Nat.div_lt_of_lt_mul hgx, ?_⟩
    rw [hskip, if_neg Bool.false_ne_true]
    have hscale : 0 < S.vgaFontScaleX := Nat.pos_of_ne_zero fun h0 => by
      rw [h0, Nat.zero_mul] at hgx
      exact Nat.not_lt_zero _ hgx
    exact List.mem_map.mpr ⟨gx % S.vgaFontScaleX, List.mem_range.mpr (Nat.mod_lt _ hscale),
      Prod.ext (Nat.div_add_mod gx _) rfl⟩

/-- The assignments for a character are one for each pixel, with the colour that is shown. -/
theorem glyphWrites_eq (S : Setup) (c : GtermChar) (skip : ℕ → ℕ → Bool) (x y : ℕ) :
    S.glyphWrites c skip (S.offsetX + x * S.glyphWidth) (S.offsetY + y * S.glyphHeight)
      = (S.drawn skip).map fun p => (S.word (S.pixel x y p.1 p.2), S.shown c x y p.1 p.2) := by
  unfold glyphWrites drawn
  rw [List.map_flatMap]
  congr 1
  funext gy
  rw [List.map_flatMap]
  congr 1
  funext fx
  cases skip fx gy with
  | true => rfl
  | false =>
      rw [if_neg Bool.false_ne_true, if_neg Bool.false_ne_true, List.map_map]
      refine List.map_congr_left fun i hi => ?_
      have hdiv : (S.vgaFontScaleX * fx + i) / S.vgaFontScaleX = fx := by
        rw [Nat.mul_comm]
        exact row_div (List.mem_range.mp hi) fx
      rw [Function.comp_apply, shown, hdiv]
      rfl

/-- A pixel that is drawn. -/
theorem assignAll_of_drawn (hS : S.WellFormed) (hx : x < S.cols) (hy : y < S.rows) {gx gy : ℕ}
    (hmem : (gx, gy) ∈ S.drawn skip) :
    assignAll fb (S.glyphWrites c skip (S.offsetX + x * S.glyphWidth) (S.offsetY + y * S.glyphHeight))
      (S.word (S.pixel x y gx gy)) = S.shown c x y gx gy := by
  rw [glyphWrites_eq]
  refine assignAll_map (p := (gx, gy)) hmem ?_
  rintro ⟨gx', gy'⟩ hmem' heq
  obtain ⟨hgx, hgy, -⟩ := (mem_drawn hS).mp hmem
  obtain ⟨hgx', hgy', -⟩ := (mem_drawn hS).mp hmem'
  obtain ⟨-, hgxx, hgyy⟩ := hS.cell_inj hx hy hx hy hgx' hgy' hgx hgy heq
  exact Prod.ext hgxx hgyy

/-- A word that is not one of the pixels that are drawn. -/
theorem assignAll_of_not_drawn (hS : S.WellFormed)
    (hne : ∀ gx gy, gx < S.glyphWidth → gy < S.glyphHeight → skip (gx / S.vgaFontScaleX) gy = false →
      S.word (S.pixel x y gx gy) ≠ a) :
    assignAll fb (S.glyphWrites c skip (S.offsetX + x * S.glyphWidth) (S.offsetY + y * S.glyphHeight)) a
      = fb a := by
  rw [glyphWrites_eq]
  refine assignAll_of_ne fun w hw => ?_
  obtain ⟨⟨gx, gy⟩, hmem, rfl⟩ := List.mem_map.mp hw
  obtain ⟨hgx, hgy, hskip⟩ := (mem_drawn hS).mp hmem
  exact hne gx gy hgx hgy hskip

/-- A word of the framebuffer is not one of the pixels of a cell. -/
def OutOf (S : Setup) (x y a : ℕ) : Prop :=
  ∀ gx gy, gx < S.glyphWidth → gy < S.glyphHeight → S.word (S.pixel x y gx gy) ≠ a

/-- The pixels of a cell are not those of another. -/
theorem WellFormed.outOf (hS : S.WellFormed) (hx : x < S.cols) (hy : y < S.rows) (hx' : x' < S.cols)
    (hy' : y' < S.rows) (hne : ¬ (x' = x ∧ y' = y)) {gx gy : ℕ} (hgx : gx < S.glyphWidth)
    (hgy : gy < S.glyphHeight) : S.OutOf x y (S.word (S.pixel x' y' gx gy)) :=
  fun _ _ hgx' hgy' heq => hne (hS.cell_inj hx' hy' hx hy hgx hgy hgx' hgy' heq.symm).1

section Plot

variable (hS : S.WellFormed) (hx : x < S.cols) (hy : y < S.rows)
include hS hx hy

/-- **`plot_char`** draws a character in its cell. -/
theorem shows_plotChar (fb : ℕ → UInt32) (c : GtermChar) : S.Shows (S.plotChar fb c x y) c x y := by
  intro gx gy hgx hgy
  rw [plotChar, if_neg (by omega)]
  exact assignAll_of_drawn hS hx hy ((mem_drawn hS).mpr ⟨hgx, hgy, rfl⟩)

/-- **`plot_char_fast`** does as well, where the old character is shown in the same colours. -/
theorem shows_plotCharFast (h : S.Shows fb old x y) (hfg : c.fg = old.fg) (hbg : c.bg = old.bg) :
    S.Shows (S.plotCharFast fb old c x y) c x y := by
  intro gx gy hgx hgy
  rw [plotCharFast, if_neg (by omega)]
  cases hskip : S.draw old (gx / S.vgaFontScaleX) gy == S.draw c (gx / S.vgaFontScaleX) gy with
  | false => exact assignAll_of_drawn hS hx hy ((mem_drawn hS).mpr ⟨hgx, hgy, hskip⟩)
  | true =>
      rw [assignAll_of_not_drawn hS, h gx gy hgx hgy]
      · unfold shown colour
        rw [beq_iff_eq.mp hskip, hfg, hbg]
      · intro gx' gy' hgx' hgy' hskip' heq
        obtain ⟨-, rfl, rfl⟩ := hS.cell_inj hx hy hx hy hgx' hgy' hgx hgy heq
        rw [hskip] at hskip'
        exact nomatch hskip'

/-- Plotting a character leaves the pixels outside its cell. -/
theorem plotChar_of_outOf (hout : S.OutOf x y a) : S.plotChar fb c x y a = fb a := by
  rw [plotChar, if_neg (by omega)]
  exact assignAll_of_not_drawn hS fun gx gy hgx hgy _ => hout gx gy hgx hgy

/-- Plotting the difference leaves the pixels outside its cell. -/
theorem plotCharFast_of_outOf (hout : S.OutOf x y a) : S.plotCharFast fb old c x y a = fb a := by
  rw [plotCharFast, if_neg (by omega)]
  exact assignAll_of_not_drawn hS fun gx gy hgx hgy _ => hout gx gy hgx hgy

end Plot

/-- A cell still shows what it showed when no pixel of it has changed. -/
theorem Shows.congr {fb' : ℕ → UInt32} (h : S.Shows fb d x' y')
    (hfb : ∀ gx gy, gx < S.glyphWidth → gy < S.glyphHeight →
      fb' (S.word (S.pixel x' y' gx gy)) = fb (S.word (S.pixel x' y' gx gy))) : S.Shows fb' d x' y' :=
  fun gx gy hgx hgy => (hfb gx gy hgx hgy).trans (h gx gy hgx hgy)

end Setup

/-! ## The layout -/

/-- The width of a glyph, and its height, as `gterm_init` computes them. -/
def Font.glyph (font : Font) : ℕ × ℕ :=
  let scaled := (font.scaleX ≠ 0 ∨ font.scaleY ≠ 0) ∧ ¬ (8 < font.scaleX ∨ 8 < font.scaleY)
  ((font.width + font.spacing) * if scaled then font.scaleX else 1,
    font.height * if scaled then font.scaleY else 1)

/-- The margin, as `gterm_init` computes it. -/
def Style.marginOf (style : Style) : ℕ := if style.margin ≠ 2 ^ 16 - 1 then style.margin else 0

/-- A framebuffer with room for a glyph between the margins, and lines as long as it is wide. -/
structure Fits (frm : Framebuffer) (font : Font) (style : Style) : Prop where
  line : frm.width ≤ frm.pitch / 4
  glyph_pos : 0 < font.glyph.1 ∧ 0 < font.glyph.2
  wide : 8 + style.marginOf * 2 + font.glyph.1 ≤ frm.width
  high : 8 + style.marginOf + 65 + font.glyph.2 ≤ frm.height
  size_lt : (frm.height + 1) * frm.width < 2 ^ 64

/-- A line of text, which is centred in what is left of the framebuffer, fits. -/
theorem centred_le {n w : ℕ} (hn : 8 ≤ n) : n % w / 2 + 4 + (n - 8) / w * w ≤ n := by
  have hle : (n - 8) / w * w ≤ n / w * w := Nat.mul_le_mul_right _ (Nat.div_le_div_right (Nat.sub_le n 8))
  have hdiv := Nat.div_add_mod n w
  have hle' := Nat.div_mul_le_self (n - 8) w
  rw [Nat.mul_comm] at hdiv
  omega

/-- **What `gterm_init` lays out** fits the framebuffer. -/
theorem gtermSetup_wellFormed {frm : Framebuffer} {font : Font} {style : Style} (h : Fits frm font style)
    (vgaFontBool : ℕ → Bool) (bgCanvas : ℕ → UInt32) :
    (gtermSetup frm font style vgaFontBool bgCanvas).WellFormed := by
  obtain ⟨hline, ⟨hgw, hgh⟩, hwide, hhigh, hsize⟩ := h
  have hheight : frm.height < 2 ^ 64 := by
    have hle : (frm.height + 1) * 1 ≤ (frm.height + 1) * frm.width := Nat.mul_le_mul_left _ (by omega)
    omega
  have hwidth : frm.width < 2 ^ 64 := by
    have hle : 1 * frm.width ≤ (frm.height + 1) * frm.width := Nat.mul_le_mul_right _ (by omega)
    omega
  -- the framebuffer is wide and high enough, so the differences do not wrap
  have hcols : (gtermSetup frm font style vgaFontBool bgCanvas).cols
      = (frm.width - style.marginOf * 2 - 8) / font.glyph.1 := by
    change sub64 (sub64 frm.width 8) (style.marginOf * 2) / font.glyph.1 = _
    rw [sub64_eq (a := frm.width) (by omega) (by omega), sub64_eq (by omega) (by omega), Nat.sub_right_comm]
  have hrows : (gtermSetup frm font style vgaFontBool bgCanvas).rows
      = (frm.height - style.marginOf - 65 - 8) / font.glyph.2 := by
    change sub64 (sub64 (sub64 frm.height 8) style.marginOf) 65 / font.glyph.2 = _
    rw [sub64_eq (a := frm.height) (by omega) (by omega), sub64_eq (b := style.marginOf) (by omega) (by omega),
      sub64_eq (by omega) (by omega)]
    congr 1
    omega
  refine ⟨⟨?_, ?_, ?_⟩, rfl, ?_, ?_⟩
  · rw [hcols]
    exact Nat.div_pos (by omega) hgw
  · rw [hrows]
    exact Nat.div_pos (by omega) hgh
  · rw [Setup.cells, hcols, hrows, ← Nat.succ_mul]
    refine Nat.lt_of_le_of_lt (Nat.mul_le_mul ?_ ?_) hsize
    · exact Nat.succ_le_succ (Nat.le_trans (Nat.div_le_self _ _) (by omega))
    · exact Nat.le_trans (Nat.div_le_self _ _) (by omega)
  · rw [hcols]
    change style.marginOf + sub64 frm.width (style.marginOf * 2) % font.glyph.1 / 2 + 4
      + _ * font.glyph.1 ≤ frm.pitch / 4
    rw [sub64_eq (by omega) (by omega)]
    have hle := centred_le (n := frm.width - style.marginOf * 2) (w := font.glyph.1) (by omega)
    omega
  · rw [hrows]
    change 65 + sub64 (sub64 frm.height style.marginOf) 65 % font.glyph.2 / 2 + 4 + _ * font.glyph.2 ≤ frm.height
    rw [sub64_eq (a := frm.height) (by omega) (by omega), sub64_eq (by omega) (by omega)]
    have hle := centred_le (n := frm.height - style.marginOf - 65) (w := font.glyph.2) (by omega)
    omega

end Scalux.Fbterm
