import Scalux.Fbterm.Display

/-! # The flush of the terminal

`gterm_double_buffer_flush` draws the cursor, then what is in the queue, and then the character at the place
where the cursor was.  A character in the queue that has the colours of the one in the grid is drawn by
`plot_char_fast`, which is right only if the latter is what the cell shows.  The one cell where it need not be
is that of the old cursor, which is drawn in full at the end.

* **`Drawn`**: what a framebuffer shows before a flush, and during it.
* **`flush_spec`**: and after it. -/

namespace Scalux.Fbterm

variable {S : Setup} {g : Gterm} {x y : ℕ} {fb₀ : ℕ → UInt32}

/-- A cell shows what is in the grid, or there is something in the queue for it in other colours. -/
def CellDrawn (S : Setup) (w : WriteBehind (ℕ × ℕ) GtermChar) (fb : ℕ → UInt32) (x y : ℕ) : Prop :=
  let i := S.slot (x, y)
  S.Shows fb (w.grid i) x y ∨
    w.map i ≠ none ∧ ¬ ((w.view i).bg = (w.grid i).bg ∧ (w.view i).fg = (w.grid i).fg)

/-- The framebuffer is as given outside of the text. -/
def Outside (S : Setup) (fb₀ fb : ℕ → UInt32) : Prop :=
  ∀ a, (∀ x y, x < S.cols → y < S.rows → S.OutOf x y a) → fb a = fb₀ a

/-- **What a framebuffer shows**: each cell but that at `old`, where the cursor was drawn, is drawn; and so is
the cursor, if it has been drawn at `cur`. -/
structure Drawn (S : Setup) (fb₀ : ℕ → UInt32) (old : ℕ × ℕ) (cur : Option (ℕ × ℕ))
    (w : WriteBehind (ℕ × ℕ) GtermChar) (fb : ℕ → UInt32) : Prop where
  cells : ∀ x y, x < S.cols → y < S.rows → (x, y) ≠ old → some (x, y) ≠ cur → CellDrawn S w fb x y
  cursor : ∀ x y, cur = some (x, y) → S.Inside (x, y) ∧
    w.map (S.slot (x, y)) = none ∧ S.Shows fb (w.grid (S.slot (x, y))).inverted x y
  outside : Outside S fb₀ fb

section

variable {old : ℕ × ℕ} {cur : Option (ℕ × ℕ)} {w : WriteBehind (ℕ × ℕ) GtermChar} {fb : ℕ → UInt32}

/-- A cell that is not drawn to is as it was. -/
theorem Setup.Shows.keep (hS : S.WellFormed) {fb' : ℕ → UInt32} {c : GtermChar} {x' y' : ℕ} (hx : x < S.cols)
    (hy : y < S.rows) (hx' : x' < S.cols) (hy' : y' < S.rows) (hne : ¬ (x = x' ∧ y = y'))
    (hfb : ∀ a, S.OutOf x' y' a → fb' a = fb a) (h : S.Shows fb c x y) : S.Shows fb' c x y :=
  h.congr fun _ _ hgx hgy => hfb _ (hS.outOf hx' hy' hx hy hne hgx hgy)

/-- The pixels of a cell are painted over, and the others stay. -/
theorem Outside.keep {fb' : ℕ → UInt32} (h : Outside S fb₀ fb) (hx : x < S.cols) (hy : y < S.rows)
    (hfb : ∀ a, S.OutOf x y a → fb' a = fb a) : Outside S fb₀ fb' :=
  fun a ha => (hfb a (ha x y hx hy)).trans (h a ha)

/-- **One write that is carried out** leaves all cells drawn that were. -/
theorem Drawn.settle (hS : S.WellFormed) (h : Drawn S fb₀ old cur w fb) (hx : x < S.cols) (hy : y < S.rows)
    (hmap : w.map (S.slot (x, y)) ≠ none) :
    Drawn S fb₀ old cur (w.settle (S.slot (x, y)))
      (Gterm.paint S (x, y) (w.grid (S.slot (x, y))) (w.view (S.slot (x, y))) fb) := by
  -- painting a cell leaves the pixels outside of it
  have hpaint : ∀ a, S.OutOf x y a →
      Gterm.paint S (x, y) (w.grid (S.slot (x, y))) (w.view (S.slot (x, y))) fb a = fb a := by
    intro a ha
    unfold Gterm.paint
    split
    · exact Setup.plotCharFast_of_outOf hS hx hy ha
    · exact Setup.plotChar_of_outOf hS hx hy ha
  have hgrid {x' y' : ℕ} (hx' : x' < S.cols) (hne : ¬ (x' = x ∧ y' = y)) :
      (w.settle (S.slot (x, y))).grid (S.slot (x', y')) = w.grid (S.slot (x', y')) := by
    rw [WriteBehind.settle_grid, Function.update_of_ne fun heq => hne (Setup.slot_inj hx' hx heq)]
  have hmap' {x' y' : ℕ} (hx' : x' < S.cols) (hne : ¬ (x' = x ∧ y' = y)) :
      (w.settle (S.slot (x, y))).map (S.slot (x', y')) = w.map (S.slot (x', y')) := by
    rw [WriteBehind.settle_map, Function.update_of_ne fun heq => hne (Setup.slot_inj hx' hx heq)]
  refine ⟨fun x' y' hx' hy' hold hcur => ?_, fun x' y' hcur => ?_, h.outside.keep hx hy hpaint⟩
  · by_cases hne : x' = x ∧ y' = y
    · obtain ⟨rfl, rfl⟩ := hne
      left
      rw [WriteBehind.settle_grid, Function.update_self]
      unfold Gterm.paint
      rcases h.cells x' y' hx' hy' hold hcur with hshows | ⟨-, hcolours⟩
      · split
        · next hsame => exact Setup.shows_plotCharFast hS hx hy hshows hsame.2 hsame.1
        · exact Setup.shows_plotChar hS hx hy _ _
      · rw [if_neg hcolours]
        exact Setup.shows_plotChar hS hx hy _ _
    · unfold CellDrawn
      dsimp only
      rw [hgrid hx' hne, hmap' hx' hne, WriteBehind.settle_view]
      exact (h.cells x' y' hx' hy' hold hcur).imp_left (Setup.Shows.keep hS hx' hy' hx hy hne hpaint)
  · -- the cursor's cell has nothing in the queue, so that it is not the one that is drawn
    obtain ⟨⟨hx', hy'⟩, hnone, hshows⟩ := h.cursor x' y' hcur
    have hslot : S.slot (x', y') ≠ S.slot (x, y) := fun heq => hmap (heq ▸ hnone)
    refine ⟨⟨hx', hy'⟩, by rw [WriteBehind.settle_map, Function.update_of_ne hslot, hnone], ?_⟩
    rw [WriteBehind.settle_grid, Function.update_of_ne hslot]
    exact hshows.keep hS hx' hy' hx hy (fun heq => hslot (by rw [heq.1, heq.2])) hpaint

/-- **The loop of the flush**: all cells are drawn after it. -/
theorem Drawn.drain (hS : S.WellFormed) (hsound : w.Sound S.slot S.Inside) (h : Drawn S fb₀ old cur w fb) :
    ∃ w', (w.drain S.slot (Gterm.paint S) fb).1 = { w' with queueI := 0 } ∧ w'.grid = w.view ∧
      (∀ i, w'.map i = none) ∧ Drawn S fb₀ old cur w' (w.drain S.slot (Gterm.paint S) fb).2 := by
  obtain ⟨w', hw', hdrawn, hview, hnone⟩ := WriteBehind.drain_induction
    (Drawn S fb₀ old cur) hsound h fun _ _ _ _ hkey hmap hP => hP.settle hS hkey.1 hkey.2 hmap
  refine ⟨w', hw', ?_, hnone, hdrawn⟩
  rw [← hview]
  exact funext fun i => (WriteBehind.view_of_none (hnone i)).symm

/-- A cell is shown when nothing is in the queue. -/
theorem CellDrawn.shows (h : CellDrawn S w fb x y) (hnone : ∀ i, w.map i = none) :
    S.Shows fb (w.grid (S.slot (x, y))) x y :=
  h.resolve_right fun hmap => hmap.1 (hnone _)

end

/-- What is drawn of a cell when the cursor may be in it. -/
def GtermContext.seen (k : GtermContext) (c : GtermChar) (x y : ℕ) : GtermChar :=
  if k.cursorStatus = true ∧ x = k.cursorX ∧ y = k.cursorY then c.inverted else c

namespace Gterm

/-- The cursor, if it is enabled. -/
def cursor? (g : Gterm) : Option (ℕ × ℕ) :=
  if g.context.cursorStatus then some (g.context.cursorX, g.context.cursorY) else none

/-- The index of a cell, as the source computes it. -/
theorem index_eq (S : Setup) (x y : ℕ) : x + y * S.cols = S.slot (x, y) := Nat.add_comm _ _

/-- A cursor is drawn at its place if it is shown. -/
theorem cursor?_eq_some : g.cursor? = some (x, y) ↔
    g.context.cursorStatus = true ∧ x = g.context.cursorX ∧ y = g.context.cursorY := by
  unfold cursor?
  cases g.context.cursorStatus with
  | false => exact ⟨nofun, fun h => nomatch h.1⟩
  | true =>
      rw [if_pos rfl, Option.some.injEq, Prod.mk.injEq]
      exact ⟨fun h => ⟨rfl, h.1.symm, h.2.symm⟩, fun h => ⟨h.2.1.symm, h.2.2.symm⟩⟩

/-- The cursor is drawn: its cell is settled first, and then shown with the colours exchanged. -/
theorem drawCursor_eq (hcur : S.Inside (g.context.cursorX, g.context.cursorY)) :
    g.drawCursor S = some { g with
      cells := g.cells.settle (S.slot (g.context.cursorX, g.context.cursorY))
      fb := S.plotChar g.fb (g.cells.view (S.slot (g.context.cursorX, g.context.cursorY))).inverted
        g.context.cursorX g.context.cursorY } := by
  rw [drawCursor, index_eq, charAt_eq (Setup.slot_lt hcur.1 hcur.2)]
  rfl

/-- **`draw_cursor`**, where it is called. -/
theorem drawCursor_spec (hS : S.WellFormed) (hsound : g.cells.Sound S.slot S.Inside)
    (hcur : S.Inside (g.context.cursorX, g.context.cursorY))
    (h : Drawn S fb₀ (g.oldCursorX, g.oldCursorY) none g.cells g.fb) :
    ∃ w fb, (if g.context.cursorStatus then g.drawCursor S else some g) = some { g with cells := w, fb := fb } ∧
      w.Sound S.slot S.Inside ∧ w.view = g.cells.view ∧
      Drawn S fb₀ (g.oldCursorX, g.oldCursorY) g.cursor? w fb := by
  cases hstatus : g.context.cursorStatus with
  | false =>
      have hcursor : g.cursor? = none := by rw [cursor?, hstatus, if_neg Bool.false_ne_true]
      exact ⟨g.cells, g.fb, rfl, hsound, rfl, hcursor ▸ h⟩
  | true =>
      obtain ⟨hx, hy⟩ := hcur
      refine ⟨_, _, (if_pos rfl).trans (drawCursor_eq ⟨hx, hy⟩), hsound.settle _, WriteBehind.settle_view _ _,
        ⟨fun x y hx' hy' hold hne => ?_, fun x y heq => ?_,
          h.outside.keep hx hy fun a => Setup.plotChar_of_outOf hS hx hy⟩⟩
      · have hcell : ¬ (x = g.context.cursorX ∧ y = g.context.cursorY) := fun heq =>
          hne (cursor?_eq_some.mpr ⟨hstatus, heq⟩).symm
        -- another cell has another slot, and plotting the cursor leaves its pixels
        have hslot : S.slot (x, y) ≠ S.slot (g.context.cursorX, g.context.cursorY) :=
          fun heq => hcell (Setup.slot_inj hx' hx heq)
        unfold CellDrawn
        dsimp only
        rw [WriteBehind.settle_view, WriteBehind.settle_grid, WriteBehind.settle_map,
          Function.update_of_ne hslot, Function.update_of_ne hslot]
        exact (h.cells x y hx' hy' hold nofun).imp_left
          (Setup.Shows.keep hS hx' hy' hx hy hcell fun a => Setup.plotChar_of_outOf hS hx hy)
      · obtain ⟨-, rfl, rfl⟩ := cursor?_eq_some.mp heq
        refine ⟨⟨hx, hy⟩, by rw [WriteBehind.settle_map, Function.update_self], ?_⟩
        rw [WriteBehind.settle_grid, Function.update_self]
        exact Setup.shows_plotChar hS hx hy _ _

/-- What is seen of the cells when nothing is in the queue, but for the place of the old cursor. -/
theorem shows_seen {old : ℕ × ℕ} {w : WriteBehind (ℕ × ℕ) GtermChar} {fb : ℕ → UInt32}
    (h : Drawn S fb₀ old g.cursor? w fb) (hnone : ∀ i, w.map i = none) (hx : x < S.cols) (hy : y < S.rows)
    (hne : (x, y) ≠ old ∨ g.cursor? = some (x, y)) :
    S.Shows fb (g.context.seen (w.grid (S.slot (x, y))) x y) x y := by
  unfold GtermContext.seen
  split
  · next hc => exact (h.cursor x y (cursor?_eq_some.mpr hc)).2.2
  · next hc =>
      have hcursor : g.cursor? ≠ some (x, y) := fun heq => hc (cursor?_eq_some.mp heq)
      exact (h.cells x y hx hy (hne.resolve_right hcursor) fun heq => hcursor heq.symm).shows hnone

/-- **`gterm_double_buffer_flush`** puts what is in the queue into the grid, and each cell shows what the grid
contains, the cursor in exchanged colours. -/
theorem flush_spec (hS : S.WellFormed) (hsound : g.cells.Sound S.slot S.Inside)
    (hcur : S.Inside (g.context.cursorX, g.context.cursorY)) (hold : S.Inside (g.oldCursorX, g.oldCursorY))
    (h : Drawn S fb₀ (g.oldCursorX, g.oldCursorY) none g.cells g.fb) :
    ∃ (w : WriteBehind (ℕ × ℕ) GtermChar) (fb : ℕ → UInt32), g.doubleBufferFlush S = some
        ⟨g.context, { w with queueI := 0 }, fb, g.context.cursorX, g.context.cursorY⟩ ∧
      w.grid = g.cells.view ∧ (∀ i, w.map i = none) ∧ Outside S fb₀ fb ∧
      ∀ x y, x < S.cols → y < S.rows → S.Shows fb (g.context.seen (w.grid (S.slot (x, y))) x y) x y := by
  obtain ⟨w₁, fb₁, hcursor, hsound₁, hview₁, hdrawn₁⟩ := drawCursor_spec hS hsound hcur h
  obtain ⟨w, hw, hgrid, hnone, hdrawn⟩ := hdrawn₁.drain hS hsound₁
  rw [hview₁] at hgrid
  obtain ⟨hx₀, hy₀⟩ := hold
  unfold doubleBufferFlush
  rw [hcursor, Option.bind_some]
  dsimp only
  rw [index_eq]
  generalize (w₁.drain S.slot (paint S) fb₁).2 = fb₂ at hdrawn ⊢
  rw [hw]
  by_cases hmoved : (g.oldCursorX ≠ g.context.cursorX ∨ g.oldCursorY ≠ g.context.cursorY) ∨
      g.context.cursorStatus = false
  · -- the character at the place of the old cursor is drawn
    rw [if_pos hmoved, if_pos (Setup.slot_lt hx₀ hy₀)]
    refine ⟨w, _, rfl, hgrid, hnone, hdrawn.outside.keep hx₀ hy₀ fun a => Setup.plotChar_of_outOf hS hx₀ hy₀,
      fun x y hx hy => ?_⟩
    by_cases heq : x = g.oldCursorX ∧ y = g.oldCursorY
    · have hseen : g.context.seen (w.grid (S.slot (x, y))) x y = w.grid (S.slot (x, y)) := by
        refine if_neg fun hc => ?_
        rw [← heq.1, ← heq.2, hc.1] at hmoved
        rcases hmoved with (hne | hne) | hfalse
        · exact hne hc.2.1
        · exact hne hc.2.2
        · exact nomatch hfalse
      rw [hseen, ← heq.1, ← heq.2]
      exact Setup.shows_plotChar hS hx hy _ _
    · exact Setup.Shows.keep hS hx hy hx₀ hy₀ heq (fun a => Setup.plotChar_of_outOf hS hx₀ hy₀)
        (shows_seen hdrawn hnone hx hy (.inl fun hpair => heq (Prod.mk.inj hpair)))
  · -- the old cursor is where the cursor is, and has been drawn
    rw [if_neg hmoved]
    simp only [not_or, not_not, Bool.not_eq_false] at hmoved
    refine ⟨w, _, rfl, hgrid, hnone, hdrawn.outside, fun x y hx hy => shows_seen hdrawn hnone hx hy ?_⟩
    by_cases heq : (x, y) = (g.oldCursorX, g.oldCursorY)
    · obtain ⟨rfl, rfl⟩ := Prod.mk.inj heq
      exact .inr (cursor?_eq_some.mpr ⟨hmoved.2, hmoved.1.1, hmoved.1.2⟩)
    · exact .inl heq

end Gterm

end Scalux.Fbterm
