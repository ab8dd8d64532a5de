import Scalux.Fbterm.Flush

/-! # The screen that the terminal stands for

What the terminal is for: a page of characters, a cursor on it, and a display that shows them.  The functions of
`gterm.c` are stated here for the page as a whole, with no grid, queue or framebuffer, and those of the model
refine them: after a flush the framebuffer shows the page, and the cursor as a character in exchanged colours.

* **`Page.scrollUp`**, **`Page.scrollDown`**: pages of values of any type.
* **`Screen.step`**: what a function does to the screen, and what it takes for granted.
* **`Refines`**: a terminal stands for a screen.  **`step_refines`**, **`run_refines`**: and keeps doing so.
* **`display_shows_screen`**: what is to be seen after `gterm_init`, any functions and a flush. -/

namespace Scalux.Fbterm

/-! ## Pages -/

/-- The values of a page, by column and row. -/
abbrev Page (α : Type*) := ℕ → ℕ → α

namespace Page

variable {α : Type*}

/-- A value is put at a position. -/
def put (x y : ℕ) (c : α) (T : Page α) : Page α := fun x' y' => if x' = x ∧ y' = y then c else T x' y'

/-- The rows from `top` on, up to `bottom`, move up, and the last of them is filled. -/
def scrollUp (top bottom : ℕ) (c : α) (T : Page α) : Page α := fun x y =>
  if y + 1 = bottom then c else if top ≤ y ∧ y + 1 < bottom then T x (y + 1) else T x y

/-- The rows from `top` on, up to `bottom`, move down, and the first of them is filled. -/
def scrollDown (top bottom : ℕ) (c : α) (T : Page α) : Page α := fun x y =>
  if y = top then c else if top < y ∧ y < bottom then T x (y - 1) else T x y

end Page

/-! ## Screens -/

/-- A page of characters, with the cursor and the colours. -/
structure Screen where
  context : GtermContext
  text : Page GtermChar

/-- The functions that change the context only. -/
inductive ContextOp
  | saveState | restoreState | swapPalette | scrollDisable | scrollEnable | enableCursor | disableCursor
  | setCursorPos (x y : ℕ)
  | setTextFg (fg : ℕ) | setTextBg (bg : ℕ) | setTextFgBright (fg : ℕ) | setTextBgBright (bg : ℕ)
  | setTextFgDefault | setTextBgDefault

/-- What such a function does. -/
def ContextOp.apply (S : Setup) : ContextOp → GtermContext → GtermContext
  | saveState => GtermContext.saveState
  | restoreState => GtermContext.restoreState
  | swapPalette => GtermContext.swapPalette
  | scrollDisable => GtermContext.scrollDisable
  | scrollEnable => GtermContext.scrollEnable
  | enableCursor => GtermContext.enableCursor
  | disableCursor => GtermContext.disableCursor
  | setCursorPos x y => GtermContext.setCursorPos S x y
  | setTextFg fg => GtermContext.setTextFg S fg
  | setTextBg bg => GtermContext.setTextBg S bg
  | setTextFgBright fg => GtermContext.setTextFgBright S fg
  | setTextBgBright bg => GtermContext.setTextBgBright S bg
  | setTextFgDefault => GtermContext.setTextFgDefault S
  | setTextBgDefault => GtermContext.setTextBgDefault

/-- The functions of the terminal.  The scrolling region is given to those that look at it. -/
inductive Op
  | context (o : ContextOp)
  | putchar (top bottom c : ℕ)
  | scroll (top bottom : ℕ)
  | revscroll (top bottom : ℕ)
  | clear (move : Bool)
  | moveCharacter (newX newY oldX oldY : ℕ)
  | flush

/-- A function of the model. -/
def Op.run (S : Setup) : Op → Gterm → Option Gterm
  | context o, g => some (g.onContext (o.apply S))
  | putchar top bottom c, g => g.putchar S top bottom c
  | scroll top bottom, g => g.scroll S top bottom
  | revscroll top bottom, g => g.revscroll S top bottom
  | clear move, g => g.clear S move
  | moveCharacter newX newY oldX oldY, g => g.moveCharacter S newX newY oldX oldY
  | flush, g => g.doubleBufferFlush S

namespace Screen

variable (S : Setup)

/-- The cursor is on the screen. -/
def CursorIn (s : Screen) : Prop := s.context.cursorX < S.cols ∧ s.context.cursorY < S.rows

instance (s : Screen) : Decidable (s.CursorIn S) := inferInstanceAs (Decidable (_ ∧ _))

/-- A region in which there is something to scroll. -/
def Region (top bottom : ℕ) : Prop := top < bottom ∧ bottom ≤ S.rows

instance (top bottom : ℕ) : Decidable (Region S top bottom) := inferInstanceAs (Decidable (_ ∧ _))

/-- The cursor is put at a position. -/
def moveTo (x y : ℕ) (s : Screen) : Screen := { s with context := s.context.moveCursor x y }

/-- The cursor after a character: it goes on to the next line at the end of one, where it may. -/
def advance (bottom : ℕ) (s : Screen) : ℕ × ℕ :=
  let x := s.context.cursorX
  let y := s.context.cursorY
  if x + 1 = S.cols ∧ (y + 1 < bottom ∨ s.context.scrollEnabled = true) then (0, y + 1) else (x + 1, y)

/-- The page with a character at the cursor, where that is on the screen. -/
def typed (c : ℕ) (s : Screen) : Page GtermChar :=
  if s.CursorIn S then s.text.put s.context.cursorX s.context.cursorY ⟨c, s.context.textFg, s.context.textBg⟩
  else s.text

/-- A character is put at the cursor, which advances; below the region, the region scrolls. -/
def putchar (top bottom c : ℕ) (s : Screen) : Screen :=
  let p := s.advance S bottom
  if p.2 = bottom then
    moveTo p.1 (p.2 - 1) { s with text := (s.typed S c).scrollUp top bottom s.context.empty }
  else moveTo p.1 p.2 { s with text := s.typed S c }

/-- What a function takes for granted: a region that can be scrolled, and a cursor on the screen where it is
drawn. -/
def Ok (s : Screen) : Op → Prop
  | .context _ => True
  | .putchar top bottom _ => Region S top bottom ∧ s.context.cursorX + 1 < 2 ^ 64 ∧ s.context.cursorY + 1 < 2 ^ 64
  | .scroll top bottom => Region S top bottom
  | .revscroll top bottom => top + 1 < bottom ∧ bottom ≤ S.rows
  | .clear _ => True
  | .moveCharacter _ _ _ _ => True
  | .flush => s.CursorIn S

instance (s : Screen) : (o : Op) → Decidable (s.Ok S o)
  | .context _ => inferInstanceAs (Decidable True)
  | .putchar _ _ _ => inferInstanceAs (Decidable (_ ∧ _ ∧ _))
  | .scroll _ _ => inferInstanceAs (Decidable (Region ..))
  | .revscroll _ _ => inferInstanceAs (Decidable (_ ∧ _))
  | .clear _ => inferInstanceAs (Decidable True)
  | .moveCharacter _ _ _ _ => inferInstanceAs (Decidable True)
  | .flush => inferInstanceAs (Decidable (CursorIn ..))

/-- **What a function does to the screen.** -/
def apply (s : Screen) : Op → Screen
  | .context o => { s with context := o.apply S s.context }
  | .putchar top bottom c => s.putchar S top bottom c
  | .scroll top bottom => { s with text := s.text.scrollUp top bottom s.context.empty }
  | .revscroll top bottom => { s with text := s.text.scrollDown top bottom s.context.empty }
  | .clear move =>
      let s' := { s with text := fun _ _ => s.context.empty }
      if move then moveTo 0 0 s' else s'
  | .moveCharacter newX newY oldX oldY =>
      if S.cols ≤ oldX ∨ S.rows ≤ oldY ∨ S.cols ≤ newX ∨ S.rows ≤ newY then s
      else { s with text := s.text.put newX newY (s.text oldX oldY) }
  | .flush => s

/-- A step of the screen, where what the function takes for granted holds. -/
def step (s : Screen) (o : Op) : Option Screen := if s.Ok S o then some (s.apply S o) else none

/-- The screen after functions have been called. -/
def run (s : Screen) (os : List Op) : Option Screen := os.foldlM (step S) s

/-- What is to be seen of a cell: the cursor is a character in exchanged colours. -/
def seen (s : Screen) (x y : ℕ) : GtermChar := s.context.seen (s.text x y) x y

end Screen

/-- **A terminal stands for a screen**: for its text, its cursor and its colours.  Each cell but the one in which
the cursor was drawn shows what is in the grid, and the framebuffer is as it was given outside of the text. -/
structure Refines (S : Setup) (fb₀ : ℕ → UInt32) (g : Gterm) (s : Screen) : Prop where
  coherent : g.cells.Coherent S.slot S.Inside
  context : g.context = s.context
  text : ∀ x y, x < S.cols → y < S.rows → g.cells.view (S.slot (x, y)) = s.text x y
  oldCursor : S.Inside (g.oldCursorX, g.oldCursorY)
  shows : ∀ x y, x < S.cols → y < S.rows → (x, y) ≠ (g.oldCursorX, g.oldCursorY) →
    S.Shows g.fb (g.cells.grid (S.slot (x, y))) x y
  outside : Outside S fb₀ g.fb

variable {S : Setup} {g g' : Gterm} {s s' : Screen} {v : ℕ → GtermChar} {c : GtermChar} {x y top bottom : ℕ}
  {fb₀ : ℕ → UInt32}

/-! ## Texts by column and row -/

/-- Clearing rows: `if a ≤ y ∧ y < b then c else v (S.slot (x, y))`. -/
theorem cleared_slot (hx : x < S.cols) (a b : ℕ) :
    Gterm.cleared c (a * S.cols) (b * S.cols) v (S.slot (x, y))
      = if a ≤ y ∧ y < b then c else v (S.slot (x, y)) := by
  unfold Gterm.cleared
  exact if_congr (and_congr (Setup.slot_le_iff hx) (Setup.slot_lt_iff hx)) rfl rfl

/-- The slot below: `S.slot (x, y) + S.cols = S.slot (x, y + 1)`. -/
theorem slot_succ (S : Setup) (x y : ℕ) : S.slot (x, y) + S.cols = S.slot (x, y + 1) := by
  unfold Setup.slot
  dsimp only
  rw [Nat.succ_mul]
  omega

/-- Scrolling the slots scrolls the page up. -/
theorem scrolled_slot (hx : x < S.cols) (htop : top < bottom) :
    Gterm.scrolled S c top bottom v (S.slot (x, y))
      = Page.scrollUp top bottom c (fun x y => v (S.slot (x, y))) x y := by
  rw [Gterm.scrolled, cleared_slot hx, Gterm.movedUp, slot_succ, Page.scrollUp]
  simp only [Setup.slot_lt_iff hx, Setup.slot_le_iff hx]
  by_cases hlast : y + 1 = bottom
  · rw [if_pos (by omega), if_pos hlast]
  · rw [if_neg (by omega), if_neg hlast]
    exact if_congr (by omega) rfl rfl

/-- Scrolling the slots back scrolls the page down. -/
theorem revscrolled_slot (hx : x < S.cols) (htop : top + 1 < bottom) :
    Gterm.revscrolled S c top bottom v (S.slot (x, y))
      = Page.scrollDown top bottom c (fun x y => v (S.slot (x, y))) x y := by
  have hstop : top * S.cols + S.cols = (top + 1) * S.cols := (Nat.succ_mul _ _).symm
  have hstart : (bottom - 1) * S.cols + S.cols = bottom * S.cols := by
    rw [← Nat.succ_mul]
    congr 1
    omega
  rw [Gterm.revscrolled, cleared_slot hx, Gterm.movedDown, hstop, hstart, Page.scrollDown]
  simp only [Setup.slot_lt_iff hx, Setup.slot_le_iff hx]
  by_cases hfirst : y = top
  · rw [if_pos (by omega), if_pos hfirst]
  · rw [if_neg (by omega), if_neg hfirst]
    refine ite_congr (by rw [Nat.succ_le_iff]) (fun hin => ?_) fun _ => rfl
    have hslot := slot_succ S x (y - 1)
    rw [Nat.sub_add_cancel (by omega)] at hslot
    rw [← hslot, Nat.add_sub_cancel]

/-- Writing one slot puts one cell of the page. -/
theorem update_slot (hx : x < S.cols) {x' y' : ℕ} (hx' : x' < S.cols) :
    Function.update v (S.slot (x, y)) c (S.slot (x', y'))
      = Page.put x y c (fun x y => v (S.slot (x, y))) x' y' := by
  unfold Page.put
  by_cases heq : x' = x ∧ y' = y
  · rw [if_pos heq, heq.1, heq.2, Function.update_self]
  · rw [if_neg heq, Function.update_of_ne fun hslot => heq (Setup.slot_inj hx' hx hslot)]

/-! ## Functions of the terminal -/

/-- Characters in the queue change the text only; the context may change with them. -/
theorem Refines.rewritten {T : Page GtermChar} (h : Refines S fb₀ g s) (hr : Rewritten S g g' v)
    (hv : ∀ x y, x < S.cols → y < S.rows → v (S.slot (x, y)) = T x y) (k : GtermContext) :
    Refines S fb₀ { g' with context := k } ⟨k, T⟩ where
  coherent := hr.coherent
  context := rfl
  text x y hx hy := by
    rw [hr.view]
    exact hv x y hx hy
  oldCursor := by
    rw [hr.others]
    exact h.oldCursor
  shows x y hx hy hne := by
    dsimp only at hne ⊢
    rw [hr.grid]
    rw [hr.others] at hne ⊢
    exact h.shows x y hx hy hne
  outside := by
    rw [hr.others]
    exact h.outside

/-- And so when the context stays. -/
theorem Refines.rewritten_text {T : Page GtermChar} (h : Refines S fb₀ g s) (hr : Rewritten S g g' v)
    (hv : ∀ x y, x < S.cols → y < S.rows → v (S.slot (x, y)) = T x y) :
    Refines S fb₀ g' { s with text := T } := by
  have hcontext : g'.context = s.context := hr.context.trans h.context
  rw [← hcontext]
  exact h.rewritten hr hv g'.context

/-- A function that changes the context only. -/
theorem Refines.onContext (h : Refines S fb₀ g s) (f : GtermContext → GtermContext) :
    Refines S fb₀ (g.onContext f) { s with context := f s.context } := by
  have hrefines := h.rewritten (Rewritten.refl h.coherent) h.text (f g.context)
  rw [h.context] at hrefines
  rw [Gterm.onContext, h.context]
  exact hrefines

/-- Scrolling what is shown scrolls the text. -/
theorem scrollUp_text (h : Refines S fb₀ g s) (hx : x < S.cols) (hy : y < S.rows) (htop : top < bottom)
    (hbottom : bottom ≤ S.rows) :
    Gterm.scrolled S c top bottom g.cells.view (S.slot (x, y)) = s.text.scrollUp top bottom c x y := by
  rw [scrolled_slot hx htop, Page.scrollUp, Page.scrollUp]
  split
  · rfl
  · split
    · exact h.text x (y + 1) hx (by omega)
    · exact h.text x y hx hy

/-- **`gterm_scroll`** scrolls the page. -/
theorem scroll_refines (hS : S.WellFormed) (h : Refines S fb₀ g s) (hr : Screen.Region S top bottom) :
    ∃ g', g.scroll S top bottom = some g' ∧
      Refines S fb₀ g' { s with text := s.text.scrollUp top bottom s.context.empty } := by
  obtain ⟨g', hscroll, hrew⟩ := Gterm.scroll_spec hS.sized h.coherent hr.1 hr.2
  refine ⟨g', hscroll, h.rewritten_text hrew fun x y hx hy => ?_⟩
  rw [h.context]
  exact scrollUp_text h hx hy hr.1 hr.2

/-- **`gterm_revscroll`** scrolls the page the other way. -/
theorem revscroll_refines (hS : S.WellFormed) (h : Refines S fb₀ g s) (htop : top + 1 < bottom)
    (hbottom : bottom ≤ S.rows) :
    ∃ g', g.revscroll S top bottom = some g' ∧
      Refines S fb₀ g' { s with text := s.text.scrollDown top bottom s.context.empty } := by
  obtain ⟨g', hscroll, hrew⟩ := Gterm.revscroll_spec hS.sized h.coherent htop hbottom
  refine ⟨g', hscroll, h.rewritten_text hrew fun x y hx hy => ?_⟩
  rw [revscrolled_slot hx htop, h.context, Page.scrollDown, Page.scrollDown]
  split
  · rfl
  · split
    · exact h.text x (y - 1) hx (by omega)
    · exact h.text x y hx hy

/-- A character that is put into the queue. -/
theorem pushToQueue_refines (h : Refines S fb₀ g s) (hx : x < S.cols) (hy : y < S.rows) :
    ∃ g', g.pushToQueue S c x y = some g' ∧ Refines S fb₀ g' { s with text := s.text.put x y c } := by
  obtain ⟨g', hpush, hrew⟩ := Gterm.pushToQueue_spec h.coherent hx hy c
  refine ⟨g', hpush, h.rewritten_text hrew fun x' y' hx' hy' => ?_⟩
  rw [update_slot hx hx', Page.put, Page.put]
  split
  · rfl
  · exact h.text x' y' hx' hy'

/-- **`gterm_clear`** fills the page. -/
theorem clear_refines (hS : S.WellFormed) (h : Refines S fb₀ g s) (move : Bool) :
    ∃ g', g.clear S move = some g' ∧ Refines S fb₀ g' (s.apply S (.clear move)) := by
  obtain ⟨g', hclear, hrew⟩ := Gterm.clearRange_spec hS.sized h.coherent (Nat.zero_le S.cells) le_rfl
  have hrefines := h.rewritten_text (T := fun _ _ => s.context.empty) hrew fun x y hx hy => by
    rw [Gterm.cleared, if_pos ⟨Nat.zero_le _, Setup.slot_lt hx hy⟩, h.context]
  unfold Gterm.clear
  rw [hclear]
  cases move with
  | false => exact ⟨g', rfl, hrefines⟩
  | true => exact ⟨_, rfl, hrefines.onContext (.moveCursor 0 0)⟩

/-- **`gterm_move_character`** copies a character. -/
theorem moveCharacter_refines (h : Refines S fb₀ g s) (newX newY oldX oldY : ℕ) :
    ∃ g', g.moveCharacter S newX newY oldX oldY = some g' ∧
      Refines S fb₀ g' (s.apply S (.moveCharacter newX newY oldX oldY)) := by
  unfold Gterm.moveCharacter Screen.apply
  by_cases hout : S.cols ≤ oldX ∨ S.rows ≤ oldY ∨ S.cols ≤ newX ∨ S.rows ≤ newY
  · rw [if_pos hout]
    dsimp only
    rw [if_pos hout]
    exact ⟨g, rfl, h⟩
  · rw [if_neg hout]
    dsimp only
    rw [if_neg hout, Gterm.index_eq, Gterm.charAt_eq (Setup.slot_lt (by omega) (by omega)),
      h.text oldX oldY (by omega) (by omega)]
    exact pushToQueue_refines h (by omega) (by omega)

/-- A flush of a framebuffer that is drawn shows the screen, and leaves it as it is. -/
theorem flush_of_drawn (hS : S.WellFormed) (hcoherent : g.cells.Coherent S.slot S.Inside)
    (hcontext : g.context = s.context)
    (htext : ∀ x y, x < S.cols → y < S.rows → g.cells.view (S.slot (x, y)) = s.text x y)
    (hold : S.Inside (g.oldCursorX, g.oldCursorY)) (hcur : s.CursorIn S)
    (hdrawn : Drawn S fb₀ (g.oldCursorX, g.oldCursorY) none g.cells g.fb) :
    ∃ g', g.doubleBufferFlush S = some g' ∧ Refines S fb₀ g' s ∧
      ∀ x y, x < S.cols → y < S.rows → S.Shows g'.fb (s.seen x y) x y := by
  have hcur' : S.Inside (g.context.cursorX, g.context.cursorY) := by
    rw [hcontext]
    exact hcur
  obtain ⟨w, fb, hflush, hgrid, hnone, houtside, hshows⟩ :=
    Gterm.flush_spec hS hcoherent.sound hcur' hold hdrawn
  refine ⟨_, hflush, ⟨WriteBehind.coherent_of_none hnone rfl, hcontext, fun x y hx hy => ?_, hcur',
    fun x y hx hy hne => ?_, houtside⟩, fun x y hx hy => ?_⟩
  · refine (WriteBehind.view_of_none (hnone (S.slot (x, y)))).trans ?_
    rw [← htext x y hx hy, ← hgrid]
  · have hseen := hshows x y hx hy
    unfold GtermContext.seen at hseen
    rwa [if_neg fun hc => hne (by rw [hc.2.1, hc.2.2])] at hseen
  · have hseen := hshows x y hx hy
    rwa [hgrid, htext x y hx hy, hcontext] at hseen

/-- **A flush** shows the screen. -/
theorem flush_refines (hS : S.WellFormed) (h : Refines S fb₀ g s) (hcur : s.CursorIn S) :
    ∃ g', g.doubleBufferFlush S = some g' ∧ Refines S fb₀ g' s ∧
      ∀ x y, x < S.cols → y < S.rows → S.Shows g'.fb (s.seen x y) x y :=
  flush_of_drawn hS h.coherent h.context h.text h.oldCursor hcur
    ⟨fun x y hx hy hold _ => .inl (h.shows x y hx hy hold), nofun, h.outside⟩

/-- The character that is put at the cursor, if it is on the screen. -/
theorem cursor_refines (h : Refines S fb₀ g s) (ch : ℕ) :
    ∃ g', g.pushToQueue S ⟨ch, g.context.textFg, g.context.textBg⟩ g.context.cursorX g.context.cursorY = some g' ∧
      Refines S fb₀ g' { s with text := s.typed S ch } := by
  rw [h.context, Screen.typed]
  by_cases hin : s.CursorIn S
  · rw [if_pos hin]
    exact pushToQueue_refines h hin.1 hin.2
  · rw [if_neg hin]
    exact ⟨g, Gterm.pushToQueue_of_out (by unfold Screen.CursorIn at hin; omega), h⟩

/-- **`gterm_putchar`** puts a character on the page. -/
theorem putchar_refines (hS : S.WellFormed) (h : Refines S fb₀ g s) (ch : ℕ)
    (hok : s.Ok S (.putchar top bottom ch)) :
    ∃ g', g.putchar S top bottom ch = some g' ∧ Refines S fb₀ g' (s.putchar S top bottom ch) := by
  obtain ⟨hregion, hx, hy⟩ := hok
  obtain ⟨g₁, hpush, h₁⟩ := cursor_refines h ch
  -- on cells of the screen the next cursor is computed without wrapping
  have hnext : g₁.context.nextCursor S bottom = s.advance S bottom := by
    have hrows := hS.sized.rows_lt
    have hle := hregion.2
    have hpos := Nat.zero_lt_of_lt hregion.1
    rw [show g₁.context = s.context from h₁.context, GtermContext.nextCursor, Screen.advance, Nat.mod_eq_of_lt hx,
      Nat.mod_eq_of_lt hy,
      decr64_eq hpos (by omega)]
    exact if_congr (and_congr Iff.rfl (or_congr (by omega) Iff.rfl)) rfl rfl
  unfold Gterm.putchar Screen.putchar
  rw [hpush, Option.bind_some]
  dsimp only
  rw [hnext]
  split
  · next hbelow =>
      have hdec : decr64 (s.advance S bottom).2 = (s.advance S bottom).2 - 1 := by
        have hrows := hS.sized.rows_lt
        have hle := hregion.2
        have hpos := Nat.zero_lt_of_lt hregion.1
        exact decr64_eq (by omega) (by omega)
      rw [hdec]
      exact scroll_refines hS (h₁.onContext _) hregion
  · exact ⟨_, rfl, h₁.onContext _⟩

/-- **A function of the terminal does to the screen what it is for.** -/
theorem step_refines (hS : S.WellFormed) (h : Refines S fb₀ g s) {o : Op} (hstep : s.step S o = some s') :
    ∃ g', o.run S g = some g' ∧ Refines S fb₀ g' s' := by
  unfold Screen.step at hstep
  split at hstep
  · next hok =>
      obtain rfl := Option.some.inj hstep
      cases o with
      | context o => exact ⟨_, rfl, h.onContext _⟩
      | putchar top bottom c => exact putchar_refines hS h c hok
      | scroll top bottom => exact scroll_refines hS h hok
      | revscroll top bottom => exact revscroll_refines hS h hok.1 hok.2
      | clear move => exact clear_refines hS h move
      | moveCharacter newX newY oldX oldY => exact moveCharacter_refines h newX newY oldX oldY
      | flush =>
          obtain ⟨g', hflush, hrefines, -⟩ := flush_refines hS h hok
          exact ⟨g', hflush, hrefines⟩
  · exact nomatch hstep

/-- **And so do any functions**, one after another. -/
theorem run_refines (hS : S.WellFormed) {os : List Op} (h : Refines S fb₀ g s) (hrun : s.run S os = some s') :
    ∃ g', os.foldlM (fun g o => Op.run S o g) g = some g' ∧ Refines S fb₀ g' s' := by
  induction os generalizing g s with
  | nil => exact ⟨g, rfl, Option.some.inj hrun ▸ h⟩
  | cons o os ih =>
      rw [Screen.run, List.foldlM_cons, Option.bind_eq_bind, Option.bind_eq_some_iff] at hrun
      obtain ⟨s₁, hstep, hrest⟩ := hrun
      obtain ⟨g₁, hrun₁, h₁⟩ := step_refines hS h hstep
      obtain ⟨g', hrun', h'⟩ := ih h₁ hrest
      exact ⟨g', by rw [List.foldlM_cons, hrun₁]; exact hrun', h'⟩

/-! ## The terminal after it has been set up -/

/-- The screen of a terminal that has been set up. -/
def Screen.initial (S : Setup) : Screen :=
  let k : GtermContext := { textFg := S.defaultFg, textBg := 0xFFFFFFFF, cursorStatus := true, scrollEnabled := true }
  ⟨k, fun _ _ => k.empty⟩

/-- **`gterm_init`** clears the page and draws it, whatever is in the framebuffer. -/
theorem init_refines (hS : S.WellFormed) (fb₀ : ℕ → UInt32) :
    ∃ g, Gterm.init S fb₀ = some g ∧ Refines S fb₀ g (Screen.initial S) := by
  have hpos : S.Inside (0, 0) := ⟨hS.sized.cols_pos, hS.sized.rows_pos⟩
  obtain ⟨g₁, hclear, hrew⟩ := Gterm.clearRange_spec hS.sized (g := Gterm.blank S fb₀)
    (WriteBehind.coherent_of_none (fun _ => rfl) rfl) (Nat.zero_le S.cells) le_rfl
  have hview {x y : ℕ} (hx : x < S.cols) (hy : y < S.rows) :
      g₁.cells.view (S.slot (x, y)) = ⟨32, S.defaultFg, 0xFFFFFFFF⟩ := by
    rw [hrew.view, Gterm.cleared, if_pos ⟨Nat.zero_le _, Setup.slot_lt hx hy⟩]
    rfl
  have hgrid (i : ℕ) : g₁.cells.grid i = ⟨0, 0, 0⟩ := by rw [hrew.grid]; rfl
  have hothers : g₁ = { Gterm.blank S fb₀ with cells := g₁.cells } := hrew.others
  -- nothing is on the grid yet, so every cell waits in the queue
  have hdrawn : Drawn S fb₀ (0, 0) none g₁.cells fb₀ := by
    refine ⟨fun x y hx hy _ _ => .inr ⟨fun hnone => ?_, fun hsame => ?_⟩, nofun, fun _ _ => rfl⟩
    · have heq := (WriteBehind.view_of_none hnone).symm.trans (hview hx hy)
      rw [hgrid] at heq
      have hc : 0 = 32 := congrArg GtermChar.c heq
      exact absurd hc (by decide)
    · rw [hview hx hy, hgrid] at hsame
      have hbg : (0xFFFFFFFF : UInt32) = 0 := hsame.1
      exact absurd hbg (by decide)
  obtain ⟨g', hflush, hrefines, -⟩ := flush_of_drawn (g := g₁.onContext (.moveCursor 0 0)) hS hrew.coherent
    (s := Screen.initial S) (by rw [hothers]; rfl) (fun x y hx hy => hview hx hy) (by rw [hothers]; exact hpos)
    hpos (by rw [hothers] at hdrawn ⊢; exact hdrawn)
  refine ⟨g', ?_, hrefines⟩
  unfold Gterm.init Gterm.clear
  rw [hclear]
  exact hflush

/-- **The display shows the screen**: after `gterm_init`, any functions, and a flush.  Outside of the text the
framebuffer is as it was. -/
theorem display_shows_screen {frm : Framebuffer} {font : Font} {style : Style} (hfits : Fits frm font style)
    (vgaFontBool : ℕ → Bool) (bgCanvas fb₀ : ℕ → UInt32) (os : List Op) {s : Screen}
    (hrun : (Screen.initial (gtermSetup frm font style vgaFontBool bgCanvas)).run
      (gtermSetup frm font style vgaFontBool bgCanvas) os = some s)
    (hcur : s.CursorIn (gtermSetup frm font style vgaFontBool bgCanvas)) :
    let S := gtermSetup frm font style vgaFontBool bgCanvas
    ∃ g g', (Gterm.init S fb₀).bind (fun g => os.foldlM (fun g o => Op.run S o g) g) = some g ∧
      g.doubleBufferFlush S = some g' ∧ Outside S fb₀ g'.fb ∧
      ∀ x y, x < S.cols → y < S.rows → S.Shows g'.fb (s.seen x y) x y := by
  intro S
  have hS : S.WellFormed := gtermSetup_wellFormed hfits vgaFontBool bgCanvas
  obtain ⟨g₀, hinit, h₀⟩ := init_refines hS fb₀
  obtain ⟨g, hg, h⟩ := run_refines hS h₀ hrun
  obtain ⟨g', hflush, hrefines, hshows⟩ := flush_refines hS h hcur
  exact ⟨g, g', by rw [hinit]; exact hg, hflush, hrefines.outside, hshows⟩

/-- A terminal of three lines of two characters, to which three are written. -/
theorem display_shows_screen_small :
    let S := gtermSetup ⟨24, 100, 96⟩ ⟨7, 8, 1, 1, 1⟩ ⟨fun _ => 0, fun _ => 0, 0, 0⟩ (fun _ => false) fun _ => 0
    ∃ s : Screen, (Screen.initial S).run S [.putchar 0 3 72, .flush, .putchar 0 3 105, .putchar 0 3 33] = some s ∧
      s.text 1 0 = ⟨105, 0, 0xFFFFFFFF⟩ ∧ s.CursorIn S ∧
      ∃ g g', (Gterm.init S fun _ => 0).bind (fun g =>
          [Op.putchar 0 3 72, .flush, .putchar 0 3 105, .putchar 0 3 33].foldlM (fun g o => Op.run S o g) g) = some g ∧
        g.doubleBufferFlush S = some g' ∧ Outside S (fun _ => 0) g'.fb ∧
        ∀ x y, x < S.cols → y < S.rows → S.Shows g'.fb (s.seen x y) x y :=
  ⟨_, rfl, rfl, by decide, display_shows_screen ⟨by decide, by decide, by decide, by decide, by decide⟩ _ _ _ _ rfl
    (by decide)⟩

end Scalux.Fbterm
