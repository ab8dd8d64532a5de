import Scalux.Fbterm.TermRun

/-! # Plain text on the terminal

What a stream of printed characters and line feeds comes to: the text is set in rows of the width of the screen,
without end, and the screen shows the last of them.

* **`Tape`**: the rows that have been set, and **`Tape.type`**, which sets a character.
* **`plain_text_shown`**: the framebuffer shows the last rows of the tape. -/

namespace Scalux.Fbterm

/-- Rows of text: the one that is being set, and those above it, the last one first. -/
structure Tape where
  above : List (List Char)
  row : List Char

namespace Tape

variable {T : Tape} {rows cols x y : ℕ} {c : Char}

/-- The row is complete. -/
def feed (T : Tape) : Tape := ⟨T.row :: T.above, []⟩

/-- A character is set: it is put at the end of the row, which may be complete with it. -/
def type (cols : ℕ) (T : Tape) (c : Char) : Tape :=
  if c = '\n' then T.feed
  else
    let T' : Tape := ⟨T.above, T.row ++ [c]⟩
    if T'.row.length = cols then T'.feed else T'

/-- The row of the screen in which the last row of the tape is to be seen. -/
def last (rows : ℕ) (T : Tape) : ℕ := min T.above.length (rows - 1)

/-- The character at a position of a screen that shows the last rows. -/
def charAt (rows : ℕ) (T : Tape) (x y : ℕ) : Option Char :=
  if y ≤ T.last rows then (T.row :: T.above)[T.last rows - y]?.bind (·[x]?) else none

/-- The characters of a tape with one more: it is behind the last one of its row. -/
theorem charAt_append (rows : ℕ) (T : Tape) (c : Char) (x y : ℕ) :
    charAt rows ⟨T.above, T.row ++ [c]⟩ x y
      = if x = T.row.length ∧ y = T.last rows then some c else T.charAt rows x y := by
  unfold charAt last
  dsimp only
  obtain hlt | heq | hgt := Nat.lt_trichotomy y (min T.above.length (rows - 1))
  · rw [if_pos hlt.le, if_pos hlt.le, if_neg fun hboth => hlt.ne hboth.2]
    obtain ⟨k, hk⟩ := Nat.exists_eq_succ_of_ne_zero (Nat.sub_ne_zero_of_lt hlt)
    rw [hk, List.getElem?_cons_succ, List.getElem?_cons_succ]
  · subst heq
    rw [if_pos le_rfl, if_pos le_rfl, Nat.sub_self, List.getElem?_cons_zero, List.getElem?_cons_zero, Option.bind_some,
      Option.bind_some]
    obtain hlt | heq | hgt := Nat.lt_trichotomy x T.row.length
    · rw [if_neg fun hboth => hlt.ne hboth.1, List.getElem?_append_left hlt]
    · rw [if_pos ⟨heq, rfl⟩, heq, List.getElem?_concat_length]
    · rw [if_neg fun hboth => hgt.ne' hboth.1, List.getElem?_eq_none hgt.le,
        List.getElem?_eq_none (by rw [List.length_append]; exact hgt)]
  · rw [if_neg hgt.not_ge, if_neg hgt.not_ge, if_neg fun hboth => hgt.ne' hboth.2]

/-- The last row after a line feed: one below, unless it is the last of the screen. -/
theorem last_feed (T : Tape) : T.feed.last rows = if T.last rows + 1 < rows then T.last rows + 1 else T.last rows := by
  unfold last feed
  rw [List.length_cons]
  split <;> omega

/-- On a screen with rows left, nothing moves. -/
theorem charAt_feed_of_lt (h : T.last rows + 1 < rows) : T.feed.charAt rows x y = T.charAt rows x y := by
  unfold charAt
  rw [last_feed, if_pos h]
  obtain hle | hgt := Nat.lt_or_ge (T.last rows) y |>.symm
  · rw [if_pos (by omega), if_pos hle, Nat.succ_sub hle]
    rfl
  · rw [if_neg hgt.not_ge]
    split
    · rw [show T.last rows + 1 - y = 0 by omega]
      rfl
    · rfl

/-- On a full screen, the rows move up. -/
theorem charAt_feed_of_eq (h : T.last rows + 1 = rows) (hy : y < rows) :
    T.feed.charAt rows x y = if y + 1 = rows then none else T.charAt rows x (y + 1) := by
  unfold charAt
  rw [last_feed, if_neg (show ¬ T.last rows + 1 < rows by omega), if_pos (show y ≤ T.last rows by omega)]
  split
  · rw [show T.last rows - y = 0 by omega]
    rfl
  · rw [if_pos (by omega), show T.last rows - y = (T.last rows - (y + 1)) + 1 by omega]
    rfl

/-! ## The page -/

/-- A cell of a page of one colour. -/
def cell (fg bg : UInt32) (c : Option Char) : GtermChar := ⟨(c.getD ' ').toNat, fg, bg⟩

/-- The page shows the last rows. -/
def On (S : Setup) (fg bg : UInt32) (T : Tape) (text : Page GtermChar) : Prop :=
  ∀ x y, x < S.cols → y < S.rows → text x y = cell fg bg (T.charAt S.rows x y)

variable {S : Setup} {fg bg : UInt32} {text : Page GtermChar}

/-- A character that is put behind the last one shows the tape with it. -/
theorem On.append (h : T.On S fg bg text) (c : Char) :
    On S fg bg ⟨T.above, T.row ++ [c]⟩ (text.put T.row.length (T.last S.rows) ⟨c.toNat, fg, bg⟩) := by
  intro x y hx hy
  rw [charAt_append, Page.put]
  split
  · rfl
  · exact h x y hx hy

/-- A line feed above the last row leaves the text as it is. -/
theorem On.feed_of_lt (h : T.On S fg bg text) (hlt : T.last S.rows + 1 < S.rows) : T.feed.On S fg bg text := by
  intro x y hx hy
  rw [charAt_feed_of_lt hlt]
  exact h x y hx hy

/-- A line feed in the last row scrolls the text. -/
theorem On.feed_of_eq (h : T.On S fg bg text) (heq : T.last S.rows + 1 = S.rows) :
    T.feed.On S fg bg (text.scrollUp 0 S.rows ⟨32, fg, bg⟩) := by
  intro x y hx hy
  rw [charAt_feed_of_eq heq hy, Page.scrollUp]
  split
  · rfl
  · rw [if_pos (by omega)]
    exact h x (y + 1) hx (by omega)

end Tape

/-! ## The terminal -/

/-- Nothing but the text has been changed since the terminal was made ready. -/
structure TermContext.Plain (S : Setup) (k : TermContext) : Prop where
  discardNext : k.discardNext = false
  escape : k.escape = false
  gSelect : k.gSelect = 0
  insertMode : k.insertMode = false
  charset : k.currentCharset = 0 ∧ k.charsets 0 = .default
  margins : k.scrollTopMargin = 0 ∧ k.scrollBottomMargin = S.rows

namespace Term

/-- A terminal that prints in one colour. -/
structure Printing (S : Setup) (fg bg : UInt32) (t : Term Screen) : Prop where
  plain : t.context.Plain S
  runtime : t.runtime = false
  scrollEnabled : t.backend.context.scrollEnabled = true
  colours : t.backend.context.textFg = fg ∧ t.backend.context.textBg = bg
  cursorStatus : t.backend.context.cursorStatus = true

/-- **The terminal has set a tape**: the page shows its last rows, and the cursor is at its end. -/
structure HasSet (S : Setup) (fg bg : UInt32) (T : Tape) (t : Term Screen) : Prop extends Printing S fg bg t where
  fits : T.row.length < S.cols
  cursor : (t.backend.context.cursorX, t.backend.context.cursorY) = (T.row.length, T.last S.rows)
  text : T.On S fg bg t.backend.text

variable {S : Setup} {fg bg : UInt32} {T : Tape} {t : Term Screen} {c : Char} {x y : ℕ} {text : Page GtermChar}

/-- The cursor and the text may be others. -/
theorem Printing.moveTo (h : t.Printing S fg bg) (x y : ℕ) (text : Page GtermChar) :
    Printing S fg bg { t with backend := ⟨t.backend.context.moveCursor x y, text⟩ } :=
  ⟨h.plain, h.runtime, h.scrollEnabled, h.colours, h.cursorStatus⟩

/-- The last row of a tape is on the screen. -/
theorem last_lt (hS : S.Sized) (T : Tape) : T.last S.rows < S.rows := by
  have hpos := hS.rows_pos
  unfold Tape.last
  omega

/-- A row is complete on a page that has rows left. -/
theorem Printing.feed_of_lt (hS : S.Sized) (h : t.Printing S fg bg) (htext : T.On S fg bg text)
    (hlt : T.last S.rows + 1 < S.rows) :
    HasSet S fg bg T.feed { t with backend := ⟨t.backend.context.moveCursor 0 (T.last S.rows + 1), text⟩ } where
  toPrinting := h.moveTo _ _ _
  fits := hS.cols_pos
  cursor := by
    rw [Tape.last_feed, if_pos hlt]
    rfl
  text := htext.feed_of_lt hlt

/-- A row is complete on a full page, which scrolls. -/
theorem Printing.feed_of_eq (hS : S.Sized) (h : t.Printing S fg bg) (htext : T.On S fg bg text)
    (heq : T.last S.rows + 1 = S.rows) :
    HasSet S fg bg T.feed { t with
      backend := ⟨t.backend.context.moveCursor 0 (T.last S.rows), text.scrollUp 0 S.rows ⟨32, fg, bg⟩⟩ } where
  toPrinting := h.moveTo _ _ _
  fits := hS.cols_pos
  cursor := by
    rw [Tape.last_feed, if_neg (by omega)]
    rfl
  text := htext.feed_of_eq heq

/-- What a character leaves of the screen of a terminal that has set a tape. -/
theorem HasSet.putchar_eq (hS : S.Sized) (h : t.HasSet S fg bg T) (c : Char) :
    t.backend.putchar S 0 S.rows c.toNat
      = let text := t.backend.text.put T.row.length (T.last S.rows) ⟨c.toNat, fg, bg⟩
        if T.row.length + 1 < S.cols then
          ⟨t.backend.context.moveCursor (T.row.length + 1) (T.last S.rows), text⟩
        else if T.last S.rows + 1 < S.rows then ⟨t.backend.context.moveCursor 0 (T.last S.rows + 1), text⟩
        else ⟨t.backend.context.moveCursor 0 (T.last S.rows), text.scrollUp 0 S.rows ⟨32, fg, bg⟩⟩ := by
  obtain ⟨hx, hy⟩ := Prod.mk.inj h.cursor
  have hlast := last_lt hS T
  have hfits := h.fits
  have htyped : t.backend.typed S c.toNat = t.backend.text.put T.row.length (T.last S.rows) ⟨c.toNat, fg, bg⟩ := by
    unfold Screen.typed
    rw [hx, hy, h.colours.1, h.colours.2, if_pos]
    exact ⟨hx.trans_lt hfits, hy.trans_lt hlast⟩
  have hempty : t.backend.context.empty = ⟨32, fg, bg⟩ := by
    unfold GtermContext.empty
    rw [h.colours.1, h.colours.2]
  -- the cursor goes one column on, at the end of the line to the next one
  have hadvance : t.backend.advance S S.rows
      = if T.row.length + 1 < S.cols then (T.row.length + 1, T.last S.rows) else (0, T.last S.rows + 1) := by
    unfold Screen.advance
    rw [hx, hy, h.scrollEnabled]
    dsimp only
    by_cases hcol : T.row.length + 1 < S.cols
    · rw [if_pos hcol, if_neg fun hend => hcol.ne hend.1]
    · rw [if_neg hcol, if_pos ⟨by omega, .inr rfl⟩]
  unfold Screen.putchar
  rw [htyped, hempty, hadvance]
  dsimp only
  by_cases hcol : T.row.length + 1 < S.cols
  · rw [if_pos hcol, if_pos hcol, if_neg hlast.ne]
    rfl
  · rw [if_neg hcol, if_neg hcol]
    -- below the last row the text is scrolled up
    by_cases hrow : T.last S.rows + 1 < S.rows
    · rw [if_pos hrow, if_neg hrow.ne]
      rfl
    · rw [if_neg hrow, if_pos (show T.last S.rows + 1 = S.rows by omega)]
      rfl

/-- **A character is printed**: it is set on the tape. -/
theorem HasSet.rawPutchar (hS : S.Sized) (h : t.HasSet S fg bg T) (hc : c ≠ '\n') :
    Ends (HasSet S fg bg (T.type S.cols c)) (t.rawPutchar S.page c) := by
  obtain ⟨hx, hy⟩ := Prod.mk.inj h.cursor
  have hlast := last_lt hS T
  have hfits := h.fits
  have hcols := hS.cols_lt
  have hrows := hS.rows_lt
  have hok : t.backend.Ok S (.putchar 0 S.rows c.toNat) :=
    ⟨⟨hS.rows_pos, le_rfl⟩, by omega, by omega⟩
  have happend := h.text.append c
  have hlength : (T.row ++ [c]).length = T.row.length + 1 := by rw [List.length_append, List.length_singleton]
  unfold Term.rawPutchar Tape.type
  rw [h.plain.margins.1, h.plain.margins.2, run_page hok, if_neg hc]
  refine .some ?_
  show HasSet S fg bg _ { t with backend := t.backend.putchar S 0 S.rows c.toNat }
  rw [h.putchar_eq hS]
  dsimp only
  rw [hlength]
  -- room in the row, or the row is full and a new one begins
  by_cases hcol : T.row.length + 1 < S.cols
  · rw [if_pos hcol, if_neg hcol.ne]
    exact ⟨h.moveTo _ _ _, hlength ▸ hcol, by rw [hlength]; rfl, happend⟩
  · rw [if_neg hcol, if_pos (by omega)]
    split
    · next hrow => exact h.toPrinting.feed_of_lt hS happend hrow
    · exact h.toPrinting.feed_of_eq hS happend (by show T.last S.rows + 1 = _; omega)

/-- The cursor is set to the beginning of a row of the screen. -/
theorem setCursorPos_page (hS : S.Sized) (hy : y < S.rows) (t : Term Screen) :
    t.setCursorPos S.page 0 y = { t with backend := ⟨t.backend.context.moveCursor 0 y, t.backend.text⟩ } := by
  have hcols := hS.cols_pos
  have hx : GtermContext.clamp 0 S.cols = 0 := if_neg (by omega)
  have hy' : GtermContext.clamp y S.rows = y := if_neg (by omega)
  show ({ t with backend := ⟨t.backend.context.setCursorPos S 0 y, t.backend.text⟩ } : Term Screen) = _
  unfold GtermContext.setCursorPos
  rw [hx, hy']
  rfl

/-- **A line feed** completes the row. -/
theorem HasSet.lineFeed (hS : S.Sized) (h : t.HasSet S fg bg T) :
    Ends (HasSet S fg bg T.feed) (t.lineFeed S.page 0) := by
  have hlast := last_lt hS T
  have hrows := hS.rows_lt
  have hy : t.cursorY S.page = T.last S.rows := (Prod.mk.inj h.cursor).2
  have hempty : t.backend.context.empty = ⟨32, fg, bg⟩ := by
    unfold GtermContext.empty
    rw [h.colours.1, h.colours.2]
  unfold Term.lineFeed Term.scroll
  have hok : t.backend.Ok S (.scroll 0 S.rows) := ⟨hS.rows_pos, le_rfl⟩
  rw [h.plain.margins.1, h.plain.margins.2, hy, decr64_eq hS.rows_pos hrows]
  -- on the last row the text moves up, above it the cursor moves down
  refine .ite (fun heq => ?_) fun hne => ?_
  · rw [run_page hok]
    refine .some ?_
    rw [setCursorPos_page hS hlast]
    show HasSet S fg bg T.feed { t with
      backend := ⟨t.backend.context.moveCursor 0 _, t.backend.text.scrollUp 0 S.rows t.backend.context.empty⟩ }
    rw [hempty]
    exact h.toPrinting.feed_of_eq hS h.text (by omega)
  · have hadd : add64 (T.last S.rows) 1 = T.last S.rows + 1 := add64_eq (by omega)
    rw [hadd, setCursorPos_page hS (by omega)]
    exact .some (h.toPrinting.feed_of_lt hS h.text (by omega))

/-- A character that is no control is printed. -/
theorem character_eq_print {β : Type*} {B : Backend β} {t : Term β} (hc : c ∉ controls) :
    t.character B S c = t.print B S c := by
  unfold character
  split <;> first | rfl | exact absurd (by decide) hc

/-- **A byte of plain text** is set on the tape. -/
theorem HasSet.putchar (hS : S.Sized) (h : t.HasSet S fg bg T) (hc : c = '\n' ∨ c ∉ controls) :
    Ends (HasSet S fg bg (T.type S.cols c)) (t.putchar S.page S c) := by
  unfold Term.putchar
  rw [h.plain.discardNext, h.runtime, h.plain.escape, h.plain.gSelect, if_neg (by simp), if_neg (by decide),
    if_neg (by decide)]
  obtain rfl | hc := hc
  · exact h.lineFeed hS
  · have hne : c ≠ '\n' := by
      rintro rfl
      exact hc (by decide)
    rw [character_eq_print hc]
    unfold Term.print
    dsimp only
    rw [h.plain.insertMode, if_neg (by decide), Option.bind_some, h.plain.charset.1, if_pos (by decide),
      h.plain.charset.2]
    exact h.rawPutchar hS hne

/-- A stream of plain text. -/
def IsPlain (s : List Char) : Prop := ∀ c ∈ s, c = '\n' ∨ c ∉ controls

instance (s : List Char) : Decidable (IsPlain s) := List.decidableBAll _ s

/-- The tape of a text. -/
def tape (cols : ℕ) (s : List Char) : Tape := s.foldl (Tape.type cols) ⟨[], []⟩

/-- **A plain text** is set as it is typed, a character after the other. -/
theorem HasSet.putchars (hS : S.Sized) (h : t.HasSet S fg bg T) {s : List Char} (hs : IsPlain s) :
    Ends (HasSet S fg bg (s.foldl (Tape.type S.cols) T)) (t.putchars S.page S s) := by
  induction s generalizing t T with
  | nil => exact .some h
  | cons c s ih =>
      unfold Term.putchars
      rw [List.foldlM_cons]
      exact (h.putchar hS (hs c (List.mem_cons_self ..))).bind fun _ h =>
        ih h fun d hd => hs d (List.mem_cons_of_mem c hd)

/-- Plain text keeps the terminal as it should be. -/
theorem HasSet.stays (hS : S.Sized) (h : t.HasSet S fg bg T) {s : List Char} (hs : IsPlain s) : t.Stays S s := by
  induction s generalizing t T with
  | nil => trivial
  | cons c s ih =>
      refine ⟨fun hleaves => ?_, fun t' ht' => ?_⟩
      · obtain ⟨-, hleaves⟩ := hleaves
        rw [if_neg (by rw [h.plain.escape]; simp)] at hleaves
        have hcorner : t.context.scrollBottomMargin < S.rows := hleaves.2.2.2
        exact absurd h.plain.margins.2 hcorner.ne
      · obtain ⟨t'', hput, h''⟩ := h.putchar hS (hs c (List.mem_cons_self ..))
        rw [Option.mem_def, hput] at ht'
        exact ih (Option.some.inj ht' ▸ h'') fun d hd => hs d (List.mem_cons_of_mem c hd)

/-- A terminal that has been set up has an empty tape. -/
theorem hasSet_initial (hS : S.Sized) (callback : Bool) :
    (Term.initial S callback (Screen.initial S)).HasSet S S.defaultFg 0xFFFFFFFF ⟨[], []⟩ where
  plain := ⟨rfl, rfl, rfl, rfl, ⟨rfl, rfl⟩, rfl, rfl⟩
  runtime := rfl
  scrollEnabled := rfl
  colours := ⟨rfl, rfl⟩
  cursorStatus := rfl
  fits := hS.cols_pos
  cursor := by
    rw [show Tape.last S.rows ⟨[], []⟩ = 0 from Nat.zero_min _]
    rfl
  text x y hx hy := by
    unfold Tape.charAt
    rw [show Tape.last S.rows ⟨[], []⟩ = 0 from Nat.zero_min _]
    by_cases hy : y ≤ 0
    · rw [if_pos hy, Nat.zero_sub]
      rfl
    · rw [if_neg hy]
      rfl

end Term

/-- **Plain text is to be seen as it has been typeset**: after streams of printed characters and line feeds, each
cell of the framebuffer shows the character at its position among the last rows of the text, or a blank, and
the cell after the last character is exchanged. -/
theorem plain_text_shown {frm : Framebuffer} {font : Font} {style : Style} (hfits : Fits frm font style)
    (vgaFontBool : ℕ → Bool) (bgCanvas fb₀ : ℕ → UInt32) (callback : Bool) (ws : List (List Char)) (s : List Char)
    (hrows : 2 ≤ (gtermSetup frm font style vgaFontBool bgCanvas).rows) (hplain : Term.IsPlain (ws ++ [s]).flatten) :
    let S := gtermSetup frm font style vgaFontBool bgCanvas
    let T := Term.tape S.cols (ws ++ [s]).flatten
    ∃ g g', Gterm.init S fb₀ = some g ∧
      (ws ++ [s]).foldlM (fun g s => g.write S.vbe S s) (Term.initial S callback g) = some g' ∧
      Outside S fb₀ g'.backend.fb ∧ T.row.length < S.cols ∧
      ∀ x y, x < S.cols → y < S.rows →
        let c := Tape.cell S.defaultFg 0xFFFFFFFF (T.charAt S.rows x y)
        S.Shows g'.backend.fb (if x = T.row.length ∧ y = T.last S.rows then c.inverted else c) x y := by
  intro S T
  have hS : S.WellFormed := gtermSetup_wellFormed hfits vgaFontBool bgCanvas
  have hinitial := Term.hasSet_initial hS.sized callback
  obtain ⟨g, g', t, hinit, hwrites, hput, -, -, houtside, hshows⟩ :=
    writes_shown hS hrows fb₀ callback ws s (hinitial.stays hS.sized hplain)
  obtain ⟨t', hput', ht'⟩ := hinitial.putchars hS.sized hplain
  -- the run of the terminal is the one that sets the text
  obtain rfl := Option.some.inj (hput.symm.trans hput')
  refine ⟨g, g', hinit, hwrites, houtside, ht'.fits, fun x y hx hy => ?_⟩
  obtain ⟨hcx, hcy⟩ := Prod.mk.inj ht'.cursor
  have hseen := hshows x y hx hy
  unfold Screen.seen GtermContext.seen at hseen
  rw [ht'.text x y hx hy, ht'.cursorStatus, hcx, hcy] at hseen
  simp only [true_and] at hseen
  exact hseen

/-- Two lines, of which the first one is longer than those of the terminal. -/
theorem plain_text_shown_small :
    let S := gtermSetup ⟨24, 100, 96⟩ ⟨7, 8, 1, 1, 1⟩ ⟨fun _ => 0, fun _ => 0, 0, 0⟩ (fun _ => false) fun _ => 0
    let T := Term.tape S.cols ([['a', 'b', 'c']] ++ [['\n', 'd']]).flatten
    ∃ g g', Gterm.init S (fun _ => 0) = some g ∧
      ([['a', 'b', 'c']] ++ [['\n', 'd']]).foldlM (fun g s => g.write S.vbe S s) (Term.initial S false g) = some g' ∧
      Outside S (fun _ => 0) g'.backend.fb ∧ T.row.length < S.cols ∧
      ∀ x y, x < S.cols → y < S.rows →
        let c := Tape.cell S.defaultFg 0xFFFFFFFF (T.charAt S.rows x y)
        S.Shows g'.backend.fb (if x = T.row.length ∧ y = T.last S.rows then c.inverted else c) x y :=
  plain_text_shown ⟨by decide, by decide, by decide, by decide, by decide⟩ _ _ _ false [['a', 'b', 'c']] ['\n', 'd']
    (by decide) (by decide)

end Scalux.Fbterm
