import Scalux.Fbterm.TermRefinement

/-! # What a stream of bytes can do to the terminal

Between the bytes the cursor is on the screen, the scrolling region is one, and what is used as an index is one:
`Term.Sane`.  A byte keeps this, whatever it is, unless

* it is printed in the last cell of a screen whose last row is below the scrolling region: the cursor is then put
  in the row after the last one, or
* it ends a sequence that sets the margins, with 0 for the last row: `term_control_sequence_parse` compares
  with 0 less one, and takes the margins. -/

namespace Scalux.Fbterm

variable {S : Setup} {e : Bool} {w w' n x y top bottom : ℕ} {c : Char}

/-! ## The cursor -/

/-- The cursor of the screen is left of a column, and the saved one on the screen; scrolling is as given. -/
structure GtermContext.Sane (S : Setup) (e : Bool) (w : ℕ) (k : GtermContext) : Prop where
  cursorX : k.cursorX < w
  cursorY : k.cursorY < S.rows
  saved : S.Inside (k.savedStateCursorX, k.savedStateCursorY)
  scrollEnabled : k.scrollEnabled = e

/-- The functions that change neither the cursors nor the scrolling. -/
def ContextOp.IsColour : ContextOp → Prop
  | saveState | restoreState | scrollDisable | scrollEnable | setCursorPos _ _ => False
  | _ => True

namespace GtermContext

variable {k : GtermContext}

/-- A cursor left of a column is left of every later one: `w ≤ w'`. -/
theorem Sane.mono (h : k.Sane S e w) (hw : w ≤ w') : k.Sane S e w' :=
  ⟨Nat.lt_of_lt_of_le h.cursorX hw, h.cursorY, h.saved, h.scrollEnabled⟩

/-- The functions for colours leave the cursors and the scrolling as they are. -/
theorem Sane.colour (h : k.Sane S e w) {o : ContextOp} (ho : o.IsColour) : (o.apply S k).Sane S e w := by
  cases o with
  | saveState | restoreState | scrollDisable | scrollEnable | setCursorPos => exact ho.elim
  | swapPalette | enableCursor | disableCursor | setTextFg | setTextBg | setTextFgBright | setTextBgBright
  | setTextFgDefault | setTextBgDefault => exact ⟨h.cursorX, h.cursorY, h.saved, h.scrollEnabled⟩

/-- **`gterm_set_cursor_pos`** never leaves the screen. -/
theorem clamp_lt {limit : ℕ} (hpos : 0 < limit) (hlt : limit < 2 ^ 64) (n : ℕ) : clamp n limit < limit := by
  unfold clamp
  rw [decr64_eq hpos hlt]
  split
  · split <;> omega
  · omega

/-- Wherever the cursor is set, it is on the screen after: left of the column `cols`. -/
theorem Sane.setCursorPos (hS : S.Sized) (h : k.Sane S e w) (x y : ℕ) :
    (k.setCursorPos S x y).Sane S e S.cols :=
  ⟨clamp_lt hS.cols_pos hS.cols_lt x, clamp_lt hS.rows_pos hS.rows_lt y, h.saved, h.scrollEnabled⟩

/-- And leaves the column as it is given, where that is on the screen. -/
theorem Sane.setColumn (hS : S.Sized) (h : k.Sane S e w) (hx : x < S.cols) (y : ℕ) :
    (k.setCursorPos S x y).Sane S e (x + 1) := by
  refine ⟨?_, clamp_lt hS.rows_pos hS.rows_lt y, h.saved, h.scrollEnabled⟩
  show clamp x S.cols < x + 1
  rw [clamp, if_neg (by omega)]
  exact Nat.lt_succ_self x

end GtermContext

namespace Screen

/-- The cursor after a character, when the region has been scrolled. -/
def next (S : Setup) (bottom : ℕ) (s : Screen) : ℕ × ℕ :=
  let p := s.advance S bottom
  if p.2 = bottom then (p.1, p.2 - 1) else p

/-- The context after a character is the one before with the cursor at `next`. -/
theorem putchar_context (S : Setup) (top bottom ch : ℕ) (s : Screen) :
    (s.putchar S top bottom ch).context = s.context.moveCursor (s.next S bottom).1 (s.next S bottom).2 := by
  unfold putchar next
  dsimp only
  split <;> rfl

/-- The cursor is in the last cell, below the region. -/
def AtCorner (S : Setup) (bottom : ℕ) (s : Screen) : Prop :=
  s.context.cursorX + 1 = S.cols ∧ s.context.cursorY + 1 = S.rows ∧ bottom < S.rows

variable {s : Screen}

/-- With scrolling disabled the cursor goes on in its row, or into one above. -/
theorem next_quiet (h : s.context.Sane S false w) (hbottom : bottom ≤ S.rows) :
    (s.next S bottom).1 < w + 1 ∧ (s.next S bottom).2 < S.rows := by
  have hx := h.cursorX
  have hy := h.cursorY
  have hoff := h.scrollEnabled
  unfold next advance
  dsimp only
  split_ifs with hend heq <;> simp_all <;> omega

/-- With scrolling enabled it stays on the screen, but for the last cell. -/
theorem next_inside (h : s.context.Sane S true S.cols) (hbottom : 0 < bottom ∧ bottom ≤ S.rows) :
    (s.next S bottom).1 < S.cols ∧ ((s.next S bottom).2 < S.rows ↔ ¬ s.AtCorner S bottom) := by
  have hx := h.cursorX
  have hy := h.cursorY
  have hon := h.scrollEnabled
  unfold next advance AtCorner
  dsimp only
  split_ifs with hend heq <;> simp_all <;> omega

end Screen

/-! ## What holds between the bytes -/

/-- The region is one that can be scrolled either way, and the indices are such. -/
structure TermContext.Sane (S : Setup) (k : TermContext) : Prop where
  region : k.scrollTopMargin + 1 < k.scrollBottomMargin ∧ k.scrollBottomMargin ≤ S.rows
  values : k.escValuesI ≤ maxEscValues
  digits : k.rrr = true → k.escValuesI < maxEscValues
  gSelect : k.gSelect ≤ 2
  charset : k.currentCharset < 2
  savedCharset : k.savedStateCurrentCharset < 2
  primary : ∀ p ∈ k.currentPrimary, p < 8
  savedPrimary : ∀ p ∈ k.savedStateCurrentPrimary, p < 8

namespace Term

/-- **What holds of a terminal**, with the cursor left of a column and scrolling as given. -/
structure Sane (S : Setup) (e : Bool) (w : ℕ) (t : Term Screen) : Prop where
  context : t.context.Sane S
  screen : t.backend.context.Sane S e w
  autoflush : t.autoflush = true

variable {t : Term Screen}

namespace Sane

/-- A cursor left of a column is left of every later one: `w ≤ w'`. -/
theorem mono (h : t.Sane S e w) (hw : w ≤ w') : t.Sane S e w' := ⟨h.context, h.screen.mono hw, h.autoflush⟩

/-- Only the context is changed, into one that is as it should be. -/
theorem set (h : t.Sane S e w) {f : TermContext → TermContext} (hf : (f t.context).Sane S) :
    (t.set f).Sane S e w :=
  ⟨hf, h.screen, h.autoflush⟩

/-- A call of the callback changes nothing that is asked for. -/
theorem call (h : t.Sane S e w) (cb : Callback) : (t.call cb).Sane S e w := by
  unfold Term.call
  split
  · exact ⟨h.context, h.screen, h.autoflush⟩
  · exact h

/-- The functions of the backend for colours. -/
theorem colour (h : t.Sane S e w) {o : ContextOp} (ho : o.IsColour) : (t.apply S.page o).Sane S e w :=
  ⟨h.context, h.screen.colour ho, h.autoflush⟩

/-- Wherever the cursor is set, it is on the screen after: left of the column `cols`. -/
theorem setCursorPos (hS : S.Sized) (h : t.Sane S e w) (x y : ℕ) : (t.setCursorPos S.page x y).Sane S e S.cols :=
  ⟨h.context, h.screen.setCursorPos hS x y, h.autoflush⟩

/-- The cursor in a column of the screen is left of the next one: `x + 1`. -/
theorem setColumn (hS : S.Sized) (h : t.Sane S e w) (hx : x < S.cols) (y : ℕ) :
    (t.setCursorPos S.page x y).Sane S e (x + 1) :=
  ⟨h.context, h.screen.setColumn hS hx y, h.autoflush⟩

end Sane

/-! ## The functions of the backend -/

/-- The page does everything that is allowed: `some` of what `apply` gives. -/
theorem run_page {o : Op} (hok : t.backend.Ok S o) :
    t.run S.page o = some { t with backend := t.backend.apply S o } := by
  unfold run Setup.page Screen.step
  dsimp only
  rw [if_pos hok]
  rfl

/-- A function that changes the text only. -/
theorem run_text {o : Op} (hok : t.backend.Ok S o) (hcontext : (t.backend.apply S o).context = t.backend.context) :
    Ends (fun t' => t'.toTermState = t.toTermState ∧ t'.backend.context = t.backend.context) (t.run S.page o) := by
  rw [run_page hok]
  exact .some ⟨rfl, hcontext⟩

/-- Only the text has changed, and neither the terminal nor the cursor. -/
theorem Sane.of_text {t' : Term Screen} (h : t.Sane S e w)
    (ht' : t'.toTermState = t.toTermState ∧ t'.backend.context = t.backend.context) : t'.Sane S e w where
  context := by
    rw [show t'.context = t.context from congrArg TermState.context ht'.1]
    exact h.context
  screen := ht'.2 ▸ h.screen
  autoflush := (congrArg TermState.autoflush ht'.1).trans h.autoflush

/-- A character that is moved changes the text only. -/
theorem moveCharacter_text (t : Term Screen) (newX newY oldX oldY : ℕ) :
    Ends (fun t' => t'.toTermState = t.toTermState ∧ t'.backend.context = t.backend.context)
      (t.moveCharacter S.page newX newY oldX oldY) := by
  refine run_text trivial ?_
  unfold Screen.apply
  dsimp only
  split <;> rfl

/-- A function of the page that is allowed, and that leaves the context as it is. -/
theorem Sane.run {o : Op} (h : t.Sane S e w) (hok : t.backend.Ok S o)
    (hcontext : (t.backend.apply S o).context = t.backend.context) : Ends (Sane S e w) (t.run S.page o) :=
  (run_text hok hcontext).mono fun _ ht' => h.of_text ht'

/-- A character that is moved, wherever from and to. -/
theorem Sane.moveCharacter (h : t.Sane S e w) (newX newY oldX oldY : ℕ) :
    Ends (Sane S e w) (t.moveCharacter S.page newX newY oldX oldY) :=
  (moveCharacter_text t newX newY oldX oldY).mono fun _ ht' => h.of_text ht'

/-- Scrolling up, which the margins allow. -/
theorem Sane.scroll (h : t.Sane S e w) : Ends (Sane S e w) (t.scroll S.page) :=
  h.run (show Screen.Region S _ _ from ⟨by have := h.context.region; omega, h.context.region.2⟩) rfl

/-- Scrolling down, which the margins allow. -/
theorem Sane.revscroll (h : t.Sane S e w) : Ends (Sane S e w) (t.revscroll S.page) :=
  h.run (show _ ∧ _ from h.context.region) rfl

/-- The page may be given a character: the margins are a region, and the column does not wrap. -/
theorem putchar_ok (hS : S.Sized) (h : t.Sane S e w) (hw : w < 2 ^ 64) (ch : ℕ) :
    t.backend.Ok S (.putchar t.context.scrollTopMargin t.context.scrollBottomMargin ch) := by
  have hregion := h.context.region
  have hx := h.screen.cursorX
  have hy := h.screen.cursorY
  have hrows := hS.rows_lt
  exact ⟨⟨by omega, hregion.2⟩, by omega, by omega⟩

/-- **A character in a control sequence**. -/
theorem Sane.rawPutchar (hS : S.Sized) (h : t.Sane S false w) (hw : w < 2 ^ 64) (c : Char) :
    Ends (Sane S false (w + 1)) (t.rawPutchar S.page c) := by
  obtain ⟨hx, hy⟩ := Screen.next_quiet h.screen h.context.region.2
  unfold Term.rawPutchar
  rw [run_page (putchar_ok hS h hw _)]
  refine .some ⟨h.context, ?_, h.autoflush⟩
  show (Screen.putchar ..).context.Sane S false (w + 1)
  rw [Screen.putchar_context]
  exact ⟨hx, hy, h.screen.saved, h.screen.scrollEnabled⟩

/-- **A character elsewhere**. -/
theorem Sane.rawPutchar_iff (hS : S.Sized) (h : t.Sane S true S.cols) (c : Char) :
    Ends (fun t' => t'.Sane S true S.cols ↔ ¬ t.backend.AtCorner S t.context.scrollBottomMargin)
      (t.rawPutchar S.page c) := by
  have hregion := h.context.region
  obtain ⟨hx, hy⟩ := Screen.next_inside h.screen ⟨by omega, hregion.2⟩
  unfold Term.rawPutchar
  rw [run_page (putchar_ok hS h hS.cols_lt _)]
  refine .some ⟨fun hsane => ?_, fun hcorner => ⟨h.context, ?_, h.autoflush⟩⟩
  · have hlt : (Screen.putchar S _ _ _ t.backend).context.cursorY < S.rows := hsane.screen.cursorY
    rw [Screen.putchar_context] at hlt
    exact hy.mp hlt
  · show (Screen.putchar ..).context.Sane S true S.cols
    rw [Screen.putchar_context]
    exact ⟨hx, hy.mpr hcorner, h.screen.saved, h.screen.scrollEnabled⟩

/-! ## Colours -/

/-- A colour of the palette: `n < 8`. -/
theorem Sane.setColour (h : t.Sane S e w) {o : ℕ → ContextOp} (ho : ∀ n, (o n).IsColour) (hn : n < 8) :
    Ends (Sane S e w) (t.setColour S.page o n) := by
  unfold Term.setColour
  rw [if_pos hn]
  exact .some (h.colour (ho n))

/-- A colour of the palette for the text: `n < 8`. -/
theorem Sane.setFg (h : t.Sane S e w) (hn : n < 8) : Ends (Sane S e w) (t.setFg S.page n) :=
  .ite (fun _ => h.setColour (fun _ => trivial) hn) fun _ => h.setColour (fun _ => trivial) hn

/-- A colour of the palette for the background: `n < 8`. -/
theorem Sane.setBg (h : t.Sane S e w) (hn : n < 8) : Ends (Sane S e w) (t.setBg S.page n) :=
  .ite (fun _ => h.setColour (fun _ => trivial) hn) fun _ => h.setColour (fun _ => trivial) hn

/-- The palette is swapped or not. -/
theorem Sane.swapIfReverse (h : t.Sane S e w) : (t.swapIfReverse S.page).Sane S e w := by
  unfold Term.swapIfReverse
  split
  · exact h.colour trivial
  · exact h

/-- The reverse flag is set or cleared. -/
theorem Sane.setReverse (h : t.Sane S e w) (r : Bool) : (t.setReverse S.page r).Sane S e w := by
  unfold Term.setReverse
  split
  · exact h
  · exact (h.set (f := fun k => { k with reverseVideo := r }) { h.context with }).colour trivial

/-- `def` in `term_sgr`: colours and flags only. -/
theorem Sane.sgrDefault (h : t.Sane S e w) : (t.sgrDefault S.page).Sane S e w := by
  have hset := (h.setReverse false).set (f := fun k => { k with bold := false, currentPrimary := none })
    { (h.setReverse false).context with primary := nofun }
  exact (hset.colour (o := .setTextBgDefault) trivial).colour trivial

/-- The current colour once more; it is in the palette, as `Sane` says of it. -/
theorem Sane.repaint (h : t.Sane S e w) {fg bg : ℕ → ContextOp} (hfg : ∀ n, (fg n).IsColour)
    (hbg : ∀ n, (bg n).IsColour) : Ends (Sane S e w) (t.repaint S.page fg bg) := by
  unfold Term.repaint
  split
  · exact .some h
  · next p hp =>
      refine h.setColour (fun n => ?_) (h.context.primary p hp)
      split
      · exact hbg n
      · exact hfg n

/-- **A parameter of `term_sgr`**: the colours are there. -/
theorem Sane.sgrStep (h : t.Sane S e w) (v : ℕ) : Ends (Sane S e w) (t.sgrStep S.page v) := by
  have hbold (b : Bool) := h.set (f := fun k => { k with bold := b }) { h.context with }
  have hprimary {p : Option ℕ} (hp : ∀ q ∈ p, q < 8) :=
    h.set (f := fun k => { k with currentPrimary := p }) { h.context with primary := hp }
  have hsome {m : ℕ} (hm : m < 8) : ∀ q ∈ some m, q < 8 := by
    rintro q ⟨⟩
    exact hm
  unfold Term.sgrStep
  -- reset, bold, colours of either ground in both brightnesses, defaults and reverse
  refine .ite (fun _ => .some h.sgrDefault) fun _ => .ite (fun _ => ?_) fun _ => .ite (fun _ => ?_) fun _ =>
    .ite (fun hv => ?_) fun _ => .ite (fun hv => ?_) fun _ => .ite (fun hv => ?_) fun _ => .ite (fun hv => ?_) fun _ =>
      .ite (fun _ => ?_) fun _ => .ite (fun _ => ?_) fun _ => .ite (fun _ => ?_) fun _ => .ite (fun _ => ?_) fun _ =>
        .some h
  · exact (hbold true).repaint (fun _ => trivial) fun _ => trivial
  · exact (hbold false).repaint (fun _ => trivial) fun _ => trivial
  · exact .ite (fun _ => (hprimary (hsome (by omega))).setBg (by omega))
      fun _ => (hprimary (hsome (by omega))).setFg (by omega)
  · exact .ite (fun _ => h.setFg (by omega)) fun _ => h.setBg (by omega)
  · exact (hprimary (hsome (by omega))).setColour (fun n => by split <;> trivial) (by omega)
  · exact h.setColour (fun n => by split <;> trivial) (by omega)
  · exact .some ((hprimary (p := none) nofun).swapIfReverse.colour (o := .setTextFgDefault) trivial).swapIfReverse
  · exact .some (h.swapIfReverse.colour (o := .setTextBgDefault) trivial).swapIfReverse
  · exact .some (h.setReverse true)
  · exact .some (h.setReverse false)

/-- **`term_sgr`**, by one parameter after the other. -/
theorem Sane.sgr (h : t.Sane S e w) : Ends (Sane S e w) (t.sgr S.page) :=
  .ite (fun _ => .some h.sgrDefault) fun _ =>
    .ite (fun _ => .foldlM (fun v _ _ h => h.sgrStep v.toNat) h) fun hlt => absurd h.context.values hlt

/-! ## Modes -/

/-- `term_dec_private_parse` changes no cursor position. -/
theorem Sane.decPrivateParse (h : t.Sane S e w) (c : Char) : (t.decPrivateParse S.page c).Sane S e w := by
  have hset : (t.set fun k => { k with decPrivate := false }).Sane S e w := h.set { h.context with }
  unfold Term.decPrivateParse
  dsimp only
  split_ifs
  · exact hset
  · exact hset.colour trivial
  · exact hset.colour trivial
  · exact hset.call _
  · exact hset

/-- `term_linux_private_parse` calls back only. -/
theorem Sane.linuxPrivateParse (h : t.Sane S e w) : t.linuxPrivateParse.Sane S e w := by
  unfold Term.linuxPrivateParse
  split
  · exact h
  · exact h.call _

/-- `term_mode_toggle` sets a flag or calls back. -/
theorem Sane.modeToggle (h : t.Sane S e w) (c : Char) : (t.modeToggle c).Sane S e w := by
  unfold Term.modeToggle
  split_ifs
  · exact h
  · exact h.set { h.context with }
  · exact h.call _
  · exact h

/-! ## Control sequences -/

/-- Blanks with scrolling disabled: each takes the cursor one column on at most, so it is left of `n + w`. -/
theorem Sane.blanks (hS : S.Sized) (h : t.Sane S false w) (hw : n + w < 2 ^ 64) :
    Ends (Sane S false (n + w)) (t.blanks S.page n) :=
  .times (fun k _ hk h => h.rawPutchar hS (by omega) ' ') h

/-- Blanks, and back on the screen. -/
theorem Sane.eraseChars (hS : S.Sized) (h : t.Sane S false w) (hw : n + w < 2 ^ 64) (x y : ℕ) :
    Ends (Sane S false S.cols) (t.eraseChars S.page n x y) :=
  (h.blanks hS hw).map fun _ h => h.setCursorPos hS x y

/-- A report of the position calls back only. -/
theorem Sane.report (h : t.Sane S e w) (n x y : ℕ) : (t.report n x y).Sane S e w := by
  unfold Term.report
  split_ifs
  · exact h.call _
  · exact h.call _
  · exact h

/-- Blanks up to the last of a list of positions, and the cursor back to one of them. -/
theorem Sane.eraseTo (hS : S.Sized) {ps : List (ℕ × ℕ)} (h : t.Sane S false w) (hmem : (x, y) ∈ ps)
    (hw : ps.length + w < 2 ^ 64) : Ends (Sane S false S.cols) (t.eraseTo S.page x y ps) := by
  induction ps generalizing t w with
  | nil => exact nomatch hmem
  | cons p ps ih =>
      rw [List.length_cons] at hw
      refine (h.rawPutchar hS (by omega) ' ').bind fun t h =>
        .ite (fun _ => .some (h.setCursorPos hS x y)) fun hne => ?_
      obtain rfl | hmem := List.mem_cons.mp hmem
      · exact absurd ⟨rfl, rfl⟩ hne
      · exact ih h hmem (by omega)

/-- A cell of the screen is one of the positions. -/
theorem mem_positions (hx : x < S.cols) (hy : y < S.rows) : (x, y) ∈ positions S := by
  unfold positions
  rw [List.mem_flatMap]
  exact ⟨y, List.mem_range.mpr hy, List.mem_map.mpr ⟨x, List.mem_range.mpr hx, rfl⟩⟩

/-- There are as many positions as cells. -/
theorem length_positions (S : Setup) : (positions S).length = S.cells := by
  unfold positions Setup.cells
  rw [List.length_flatMap]
  simp

/-- The case `J`: the blanks are fewer than the cells, so the column does not wrap. -/
theorem Sane.erasePage (hS : S.Sized) (h : t.Sane S false S.cols) (hx : x < S.cols) (hy : y < S.rows) (n : ℕ) :
    Ends (Sane S false S.cols) (t.erasePage S.page S n x y) := by
  have hcells := hS.cells_lt
  have hcols := hS.cols_lt
  have hrows := hS.rows_lt
  refine .ite (fun _ => ?_) fun _ => .ite (fun _ => ?_) fun _ => .ite (fun _ => ?_) fun _ => .some h
  · have hrest : sub64 S.rows (add64 y 1) * S.cols + sub64 S.cols (add64 x 1) < S.cells := by
      have hle : (S.rows - (y + 1)) * S.cols + S.cols ≤ S.cells := by
        rw [← Nat.succ_mul]
        exact Nat.mul_le_mul_right _ (by omega)
      rw [add64_eq (by omega), add64_eq (by omega), sub64_eq (by omega) (by omega),
        sub64_eq (by omega) (by omega)]
      omega
    rw [Nat.mod_eq_of_lt (by omega)]
    exact h.eraseChars hS (by omega) x y
  · exact (h.setCursorPos hS 0 0).eraseTo hS (mem_positions hx hy) (by rw [length_positions]; exact hcells)
  · exact h.run trivial rfl

/-- The case `K`: the blanks are fewer than the columns. -/
theorem Sane.eraseLine (hS : S.Sized) (h : t.Sane S false S.cols) (hx : x < S.cols) (hcols : S.cols + S.cols < 2 ^ 64)
    (n y : ℕ) : Ends (Sane S false S.cols) (t.eraseLine S.page S n x y) := by
  refine .ite (fun _ => h.eraseChars hS (by omega) x y) fun _ => .ite (fun _ => ?_) fun _ => .ite (fun _ => ?_) fun _ =>
    .some h
  · exact ((h.setColumn hS hS.cols_pos y).blanks hS (by omega)).mono fun _ h => h.mono (by omega)
  · exact (h.setCursorPos hS 0 y).eraseChars hS hcols x y

/-- The case `@`: the loop goes down from the last column to the cursor, and so it ends. -/
theorem Sane.insertChars (hS : S.Sized) (h : t.Sane S false S.cols) (hx : x < S.cols) (hcols : S.cols + 1 < 2 ^ 64)
    (n y : ℕ) : Ends (Sane S false S.cols) (t.insertChars S.page S n x y) := by
  have hdec {j : ℕ} (hpos : 0 < j) (hj : j ≤ S.cols) : decr64 j = j - 1 := decr64_eq hpos (by omega)
  have hlast := hdec hS.cols_pos (Nat.le_refl _)
  refine Ends.map (P := Sane S false (S.cols + 1)) (.loopDown (fun i t h => ?_) (fun j hj hle => ?_) ?_ ?_
    (h.mono (Nat.le_succ _))) fun _ h => h.setCursorPos hS x y
  · exact (h.moveCharacter _ _ _ _).bind fun _ h => (h.setCursorPos hS i y).rawPutchar hS hS.cols_lt ' '
  · exact hdec (by omega) (by omega)
  · omega
  · omega

/-- The case `P`: the loop goes up, and the blanks are `n`. -/
theorem Sane.deleteChars (hS : S.Sized) (h : t.Sane S false S.cols) (hn : n + S.cols < 2 ^ 64) (x y : ℕ) :
    Ends (Sane S false S.cols) (t.deleteChars S.page S n x y) :=
  (Ends.foldlM (fun _ _ _ h => h.moveCharacter _ _ _ _) h).bind fun _ h =>
    (h.setCursorPos hS _ y).eraseChars hS hn x y

end Term

end Scalux.Fbterm
