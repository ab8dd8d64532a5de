import Scalux.Fbterm.Gterm

/-! # What the functions of the terminal do to the text

The text is what the grid and the queue together stand for: `view`, by the index of the cell.  Each function
that writes characters keeps the queue in order and leaves everything else alone, and is described by the
text after it.

* **`Rewritten`**: only the queue has changed, and the text is now the given one.
* **`pushToQueue_spec`**, **`clearRange_spec`**, **`scroll_spec`**, **`revscroll_spec`**, **`clear_spec`**,
  **`moveCharacter_spec`**, **`putchar_spec`**. -/

namespace Scalux.Fbterm

variable {S : Setup} {g g₁ g₂ : Gterm} {v v₁ v₂ : ℕ → GtermChar} {c : GtermChar} {x y i j top bottom : ℕ}

/-! ## Indices -/

/-- The row of a position in rows of one length. -/
theorem row_div {w k : ℕ} (hk : k < w) (i : ℕ) : (i * w + k) / w = i := by
  rw [Nat.add_comm, Nat.add_mul_div_right _ _ (Nat.zero_lt_of_lt hk), Nat.div_eq_of_lt hk, Nat.zero_add]

/-- The place in the row of a position: `(i * w + k) % w = k`. -/
theorem row_mod {w k : ℕ} (hk : k < w) (i : ℕ) : (i * w + k) % w = k := by
  rw [Nat.add_comm, Nat.add_mul_mod_self_right, Nat.mod_eq_of_lt hk]

/-- A position is in one row, at one place of it. -/
theorem row_inj {w i j k l : ℕ} (hk : k < w) (hl : l < w) (h : i * w + k = j * w + l) : i = j ∧ k = l :=
  ⟨(row_div hk i).symm.trans ((congrArg (· / w) h).trans (row_div hl j)),
    (row_mod hk i).symm.trans ((congrArg (· % w) h).trans (row_mod hl j))⟩

namespace Setup

/-- The cells have indices of 64 bits, and there is at least one. -/
structure Sized (S : Setup) : Prop where
  cols_pos : 0 < S.cols
  rows_pos : 0 < S.rows
  cells_lt : S.cells + S.cols < 2 ^ 64

/-- The columns are a number of 64 bits. -/
theorem Sized.cols_lt (hS : S.Sized) : S.cols < 2 ^ 64 := by
  have h := hS.cells_lt
  omega

/-- The rows are a number of 64 bits. -/
theorem Sized.rows_lt (hS : S.Sized) : S.rows < 2 ^ 64 := by
  have h := hS.cells_lt
  have hle : S.rows * 1 ≤ S.rows * S.cols := Nat.mul_le_mul_left _ hS.cols_pos
  unfold cells at h
  omega

/-- A position is that of a cell. -/
def Inside (S : Setup) (p : ℕ × ℕ) : Prop := p.1 < S.cols ∧ p.2 < S.rows

/-- The index of a cell is less than the number of cells. -/
theorem slot_lt (hx : x < S.cols) (hy : y < S.rows) : S.slot (x, y) < S.cells := by
  have h : (y + 1) * S.cols ≤ S.rows * S.cols := Nat.mul_le_mul_right _ hy
  rw [Nat.succ_mul] at h
  unfold slot cells
  dsimp only
  omega

/-- The row of the cell with an index. -/
theorem slot_div (hx : x < S.cols) : S.slot (x, y) / S.cols = y := row_div hx y

/-- The cell with an index. -/
theorem slot_mod_div (S : Setup) (i : ℕ) : S.slot (i % S.cols, i / S.cols) = i := by
  rw [slot, Nat.mul_comm]
  exact Nat.div_add_mod i S.cols

/-- Different cells have different indices. -/
theorem slot_inj {x' y' : ℕ} (hx : x < S.cols) (hx' : x' < S.cols) (h : S.slot (x, y) = S.slot (x', y')) :
    x = x' ∧ y = y' :=
  (row_inj hx hx' h).symm

/-- An index is in a row of the screen. -/
theorem Sized.div_lt (hS : S.Sized) (hi : i < S.cells) : i / S.cols < S.rows := by
  rw [Nat.div_lt_iff_lt_mul hS.cols_pos]
  exact hi

/-- The first index of a row is the index of its first cell. -/
theorem slot_le_iff (hx : x < S.cols) {r : ℕ} : r * S.cols ≤ S.slot (x, y) ↔ r ≤ y := by
  rw [← Nat.le_div_iff_mul_le (Nat.zero_lt_of_lt hx), slot_div hx]

/-- The cells before the row `r` are those above it. -/
theorem slot_lt_iff (hx : x < S.cols) {r : ℕ} : S.slot (x, y) < r * S.cols ↔ y < r := by
  rw [← Nat.div_lt_iff_lt_mul (Nat.zero_lt_of_lt hx), slot_div hx]

end Setup

/-! ## Characters -/

/-- Only the cells have changed, in their queue, and the text is now `v`. -/
structure Rewritten (S : Setup) (g g' : Gterm) (v : ℕ → GtermChar) : Prop where
  coherent : g'.cells.Coherent S.slot S.Inside
  others : g' = { g with cells := g'.cells }
  grid : g'.cells.grid = g.cells.grid
  view : g'.cells.view = v

/-- Nothing is rewritten. -/
theorem Rewritten.refl (h : g.cells.Coherent S.slot S.Inside) : Rewritten S g g g.cells.view :=
  ⟨h, rfl, rfl, rfl⟩

/-- One text after another: the last one stays. -/
theorem Rewritten.trans (h₁ : Rewritten S g g₁ v₁) (h₂ : Rewritten S g₁ g₂ v₂) : Rewritten S g g₂ v₂ where
  coherent := h₂.coherent
  others := by rw [h₂.others, h₁.others]
  grid := h₂.grid.trans h₁.grid
  view := h₂.view

/-- The context is as before. -/
theorem Rewritten.context (h : Rewritten S g g₁ v) : g₁.context = g.context := by rw [h.others]

namespace Gterm

/-- **`push_to_queue`** at a cell. -/
theorem pushToQueue_spec (h : g.cells.Coherent S.slot S.Inside) (hx : x < S.cols) (hy : y < S.rows)
    (c : GtermChar) :
    ∃ g', g.pushToQueue S c x y = some g' ∧
      Rewritten S g g' (Function.update g.cells.view (S.slot (x, y)) c) := by
  obtain ⟨w, hpush, hcoherent, hgrid, hview⟩ := 
    h.push (fun _ hp => Setup.slot_lt hp.1 hp.2) (⟨hx, hy⟩ : S.Inside (x, y)) c
  refine ⟨{ g with cells := w }, ?_, hcoherent, rfl, hgrid, hview⟩
  rw [pushToQueue, if_neg (by omega), hpush, Option.map_some]

/-- Outside of the screen nothing is written. -/
theorem pushToQueue_of_out (hout : S.cols ≤ x ∨ S.rows ≤ y) : g.pushToQueue S c x y = some g := if_pos hout

/-- `push_to_queue` at the cell with an index. -/
theorem pushToQueue_index (hS : S.Sized) (h : g.cells.Coherent S.slot S.Inside) (hi : i < S.cells)
    (c : GtermChar) :
    ∃ g', g.pushToQueue S c (i % S.cols) (i / S.cols) = some g' ∧
      Rewritten S g g' (Function.update g.cells.view i c) := by
  have hspec := pushToQueue_spec h (Nat.mod_lt i hS.cols_pos) (hS.div_lt hi) c
  rwa [Setup.slot_mod_div] at hspec

/-- The character at an index of the screen is the one of the text. -/
theorem charAt_eq (hi : i < S.cells) : g.charAt S i = some (g.cells.view i) := if_pos hi

/-- **A loop over indices** that writes, in each round, what is determined by the text so far. -/
theorem foldlM_spec (f : Gterm → ℕ → Option Gterm) (next : (ℕ → GtermChar) → ℕ → ℕ → GtermChar)
    (l : List ℕ) (h : g.cells.Coherent S.slot S.Inside)
    (hf : ∀ g₁ : Gterm, Rewritten S g g₁ g₁.cells.view → ∀ i ∈ l, ∃ g₂, f g₁ i = some g₂ ∧
      Rewritten S g₁ g₂ (next g₁.cells.view i)) :
    ∃ g', l.foldlM f g = some g' ∧ Rewritten S g g' (l.foldl next g.cells.view) := by
  induction l generalizing g with
  | nil => exact ⟨g, rfl, Rewritten.refl h⟩
  | cons i l ih =>
      obtain ⟨g₁, h₁, hrew₁⟩ := hf g (Rewritten.refl h) i List.mem_cons_self
      obtain ⟨g', h', hrew'⟩ := ih hrew₁.coherent fun g₂ hg₂ j hj =>
        hf g₂ (hrew₁.trans hg₂) j (List.mem_cons_of_mem i hj)
      rw [hrew₁.view] at hrew'
      refine ⟨g', ?_, hrew₁.trans hrew'⟩
      rw [List.foldlM_cons, h₁]
      exact h'

/-- What blanks from one index to another make of a text. -/
def cleared (c : GtermChar) (start stop : ℕ) (v : ℕ → GtermChar) (j : ℕ) : GtermChar :=
  if start ≤ j ∧ j < stop then c else v j

/-- One index after another is cleared. -/
theorem foldl_update_range' (c : GtermChar) (start n : ℕ) (v : ℕ → GtermChar) :
    (List.range' start n).foldl (fun v i => Function.update v i c) v = cleared c start (start + n) v := by
  induction n generalizing v with
  | zero =>
      funext j
      exact (if_neg (by omega)).symm
  | succ n ih =>
      rw [List.range'_1_concat, List.foldl_append, ih, List.foldl_cons, List.foldl_nil]
      funext j
      unfold cleared
      by_cases hj : j = start + n
      · rw [hj, Function.update_self, if_pos (by omega)]
      · rw [Function.update_of_ne hj]
        exact if_congr (by omega) rfl rfl

/-- **Blanks** from one index to another. -/
theorem clearRange_spec (hS : S.Sized) (h : g.cells.Coherent S.slot S.Inside) {start stop : ℕ}
    (hle : start ≤ stop) (hstop : stop ≤ S.cells) :
    ∃ g', g.clearRange S start stop = some g' ∧
      Rewritten S g g' (cleared g.context.empty start stop g.cells.view) := by
  have hspec := foldlM_spec (fun g' i => g'.pushToQueue S g.context.empty (i % S.cols) (i / S.cols))
    (fun v i => Function.update v i g.context.empty) (List.range' start (stop - start)) h
    fun g₁ hg₁ i hi => pushToQueue_index hS hg₁.coherent (by
      have hmem := (List.mem_range'_1.mp hi).2
      omega) g.context.empty
  rw [foldl_update_range', Nat.add_sub_cancel' hle] at hspec
  exact hspec

/-! ## Scrolling -/

/-- What the loop of `gterm_scroll` from one index to another makes of a text: the cells move up a row. -/
def movedUp (cols start stop : ℕ) (v : ℕ → GtermChar) (j : ℕ) : GtermChar :=
  if start ≤ j + cols ∧ j + cols < stop then v (j + cols) else v j

/-- One index after another is moved up by a row. -/
theorem foldl_movedUp {cols start : ℕ} (hcols : 0 < cols) (hstart : cols ≤ start) (n : ℕ) (v : ℕ → GtermChar) :
    (List.range' start n).foldl (fun v i => Function.update v (i - cols) (v i)) v
      = movedUp cols start (start + n) v := by
  induction n generalizing v with
  | zero =>
      funext j
      exact (if_neg (by omega)).symm
  | succ n ih =>
      rw [List.range'_1_concat, List.foldl_append, ih, List.foldl_cons, List.foldl_nil]
      funext j
      unfold movedUp
      by_cases hj : j = start + n - cols
      · -- the cell that is read is not one that has been written
        rw [hj, Function.update_self, if_neg (by omega), if_pos (by omega), Nat.sub_add_cancel (by omega)]
      · rw [Function.update_of_ne hj]
        exact if_congr (by omega) rfl rfl

/-- A text with the region scrolled up. -/
def scrolled (S : Setup) (c : GtermChar) (top bottom : ℕ) (v : ℕ → GtermChar) : ℕ → GtermChar :=
  cleared c ((bottom - 1) * S.cols) (bottom * S.cols)
    (movedUp S.cols ((top + 1) * S.cols) (bottom * S.cols) v)

/-- **`gterm_scroll`**, for a region of the screen. -/
theorem scroll_spec (hS : S.Sized) (h : g.cells.Coherent S.slot S.Inside) (htop : top < bottom)
    (hbottom : bottom ≤ S.rows) :
    ∃ g', g.scroll S top bottom = some g' ∧
      Rewritten S g g' (scrolled S g.context.empty top bottom g.cells.view) := by
  have hstop : bottom * S.cols ≤ S.cells := Nat.mul_le_mul_right _ hbottom
  have hstart : (top + 1) * S.cols ≤ bottom * S.cols := Nat.mul_le_mul_right _ htop
  have hlast : (bottom - 1) * S.cols ≤ bottom * S.cols := Nat.mul_le_mul_right _ (Nat.sub_le _ _)
  have hrow : S.cols ≤ (top + 1) * S.cols := Nat.le_mul_of_pos_left _ (Nat.succ_pos _)
  obtain ⟨g₁, h₁, hrew₁⟩ := foldlM_spec
    (fun g i => do
      let c ← g.charAt S i
      g.pushToQueue S c ((i - S.cols) % S.cols) ((i - S.cols) / S.cols))
    (fun v i => Function.update v (i - S.cols) (v i))
    (List.range' ((top + 1) * S.cols) (bottom * S.cols - (top + 1) * S.cols)) h
    fun g₁ hg₁ i hi => by
      have hmem := (List.mem_range'_1.mp hi).2
      obtain ⟨g₂, h₂, hrew₂⟩ :=
        pushToQueue_index hS hg₁.coherent (by omega : i - S.cols < S.cells) (g₁.cells.view i)
      exact ⟨g₂, by rw [charAt_eq (by omega)]; exact h₂, hrew₂⟩
  rw [foldl_movedUp hS.cols_pos hrow, Nat.add_sub_cancel' hstart] at hrew₁
  obtain ⟨g₂, h₂, hrew₂⟩ := clearRange_spec hS hrew₁.coherent hlast hstop
  rw [hrew₁.view, hrew₁.context] at hrew₂
  refine ⟨g₂, ?_, hrew₁.trans hrew₂⟩
  have hlt := hS.cells_lt
  have hrows := hS.rows_lt
  unfold scroll
  rw [decr64_eq (by omega) (by omega), Nat.mod_eq_of_lt (by omega)]
  dsimp only
  rw [h₁]
  exact h₂

/-- What the loop of `gterm_revscroll` from one index down to another makes of a text: the cells move down a
row. -/
def movedDown (cols stop start : ℕ) (v : ℕ → GtermChar) (j : ℕ) : GtermChar :=
  if stop + cols ≤ j ∧ j < start + cols then v (j - cols) else v j

/-- The last index is moved down first, and then those before it. -/
theorem movedDown_succ {cols stop start : ℕ} (hcols : 0 < cols) (hle : stop ≤ start) (v : ℕ → GtermChar) :
    movedDown cols stop start (Function.update v (start + cols) (v start))
      = movedDown cols stop (start + 1) v := by
  funext j
  unfold movedDown
  by_cases hj : j = start + cols
  · rw [hj, if_neg (by omega), if_pos (by omega), Function.update_self, Nat.add_sub_cancel]
  · by_cases hin : stop + cols ≤ j ∧ j < start + cols
    · rw [if_pos hin, if_pos (by omega), Function.update_of_ne (by omega)]
    · rw [if_neg hin, if_neg (by omega), Function.update_of_ne hj]

/-- The loop of `gterm_revscroll` ends in time. -/
theorem revscrollFrom_spec (hS : S.Sized) (h : g.cells.Coherent S.slot S.Inside) (stop n fuel : ℕ)
    (hn : stop + n + S.cols < S.cells) (hfuel : n < fuel) :
    ∃ g', g.revscrollFrom S stop fuel (stop + n) = some g' ∧
      Rewritten S g g' (movedDown S.cols stop (stop + n + 1) g.cells.view) := by
  have hlt := hS.cells_lt
  -- by the distance from the first cell: the loop counts down and ends at `stop`
  induction n generalizing g fuel with
  | zero =>
      cases fuel with
      | zero => omega
      | succ fuel =>
          obtain ⟨g₁, h₁, hrew₁⟩ :=
            pushToQueue_index hS h (by omega : stop + 0 + S.cols < S.cells) (g.cells.view (stop + 0))
          rw [← movedDown_succ hS.cols_pos (Nat.le_add_right stop 0)]
          refine ⟨g₁, ?_, ⟨hrew₁.coherent, hrew₁.others, hrew₁.grid, ?_⟩⟩
          · rw [revscrollFrom, charAt_eq (by omega)]
            dsimp only [Option.bind_eq_bind, Option.bind_some]
            rw [h₁]
            exact if_pos rfl
          · rw [hrew₁.view]
            funext j
            exact (if_neg (by omega)).symm
  | succ n ih =>
      cases fuel with
      | zero => omega
      | succ fuel =>
          obtain ⟨g₁, h₁, hrew₁⟩ :=
            pushToQueue_index hS h (by omega : stop + (n + 1) + S.cols < S.cells) (g.cells.view (stop + (n + 1)))
          obtain ⟨g₂, h₂, hrew₂⟩ := ih hrew₁.coherent fuel (by omega) (by omega)
          rw [hrew₁.view, show stop + n + 1 = stop + (n + 1) from rfl,
            movedDown_succ hS.cols_pos (Nat.le_add_right stop (n + 1))] at hrew₂
          refine ⟨g₂, ?_, hrew₁.trans hrew₂⟩
          rw [revscrollFrom, charAt_eq (by omega)]
          dsimp only [Option.bind_eq_bind, Option.bind_some]
          rw [h₁, Option.bind_some, if_neg (by omega), decr64_eq (by omega) (by omega)]
          exact h₂

/-- A text with the region scrolled down. -/
def revscrolled (S : Setup) (c : GtermChar) (top bottom : ℕ) (v : ℕ → GtermChar) : ℕ → GtermChar :=
  cleared c (top * S.cols) ((top + 1) * S.cols) (movedDown S.cols (top * S.cols) ((bottom - 1) * S.cols) v)

/-- **`gterm_revscroll`**, for a region of at least two rows. -/
theorem revscroll_spec (hS : S.Sized) (h : g.cells.Coherent S.slot S.Inside) (htop : top + 1 < bottom)
    (hbottom : bottom ≤ S.rows) :
    ∃ g', g.revscroll S top bottom = some g' ∧
      Rewritten S g g' (revscrolled S g.context.empty top bottom g.cells.view) := by
  have hcols := hS.cols_pos
  have hlt := hS.cells_lt
  have hrows := hS.rows_lt
  have hstop : bottom * S.cols ≤ S.cells := Nat.mul_le_mul_right _ hbottom
  have hstart : (top + 2) * S.cols ≤ bottom * S.cols := Nat.mul_le_mul_right _ htop
  have hlast : bottom * S.cols = (bottom - 1) * S.cols + S.cols := by
    rw [← Nat.succ_mul]
    congr 1
    omega
  rw [Nat.succ_mul, Nat.succ_mul] at hstart
  have hrow : (top + 1) * S.cols = top * S.cols + S.cols := Nat.succ_mul _ _
  -- first the rows move down one, then the top row is cleared
  obtain ⟨g₁, h₁, hrew₁⟩ := revscrollFrom_spec hS h (top * S.cols)
    ((bottom - 1) * S.cols - 1 - top * S.cols) S.cells (by omega) (by omega)
  obtain ⟨g₂, h₂, hrew₂⟩ := clearRange_spec hS hrew₁.coherent
    (by omega : top * S.cols ≤ (top + 1) * S.cols) (by omega)
  rw [show top * S.cols + ((bottom - 1) * S.cols - 1 - top * S.cols) = (bottom - 1) * S.cols - 1 by omega] at h₁
  rw [show top * S.cols + ((bottom - 1) * S.cols - 1 - top * S.cols) + 1 = (bottom - 1) * S.cols by omega]
    at hrew₁
  rw [hrew₁.view, hrew₁.context] at hrew₂
  refine ⟨g₂, ?_, hrew₁.trans hrew₂⟩
  unfold revscroll
  rw [decr64_eq (a := bottom) (by omega) (by omega), Nat.mod_eq_of_lt (by omega),
    decr64_eq (by omega) (by omega), h₁]
  exact h₂

end Gterm

end Scalux.Fbterm
