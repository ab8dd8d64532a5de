import Scalux.Fbterm.TermSafety

/-! # A byte, and a stream of bytes

* **`Term.Leaves`**: a byte after which the terminal is not as it should be.  **`Term.Sane.putchar`**: these are
  all.
* **`Term.Stays`**: a stream without such bytes, and **`Term.stays_iff`**.
* **`write_shows_page`**: what such a stream does to the page is what is to be seen in the framebuffer. -/

namespace Scalux.Fbterm

variable {S : Setup} {e : Bool} {w n x y : ℕ} {c : Char} {t t' : Term Screen}

/-- The parameters of a sequence that sets the margins, when they are taken and should not be. -/
def TermContext.BadMargins (S : Setup) (k : TermContext) : Prop :=
  1 < k.escValuesI ∧ k.escValues 1 = 0 ∧ (k.escValues 0 - 1).toNat < S.rows

namespace Term

/-- A terminal that is as it should be, but perhaps for its context. -/
structure SaneUnless (S : Setup) (e : Bool) (p : Prop) (t : Term Screen) : Prop where
  screen : t.backend.context.Sane S e S.cols
  autoflush : t.autoflush = true
  context : t.context.Sane S ↔ ¬ p

/-- A terminal that is as it should be, where `p` does not hold. -/
theorem Sane.unless (h : t.Sane S e S.cols) {p : Prop} (hp : ¬ p) : t.SaneUnless S e p :=
  ⟨h.screen, h.autoflush, iff_of_true h.context hp⟩

/-- It is as it should be if and only if `p` does not hold. -/
theorem SaneUnless.sane_iff {p : Prop} (h : t.SaneUnless S e p) : t.Sane S e S.cols ↔ ¬ p :=
  ⟨fun hsane => h.context.mp hsane.context, fun hp => ⟨h.context.mpr hp, h.screen, h.autoflush⟩⟩

/-! ## Control sequences -/

/-- **The margins** enclose two rows of the screen at least, unless the last one is 0. -/
theorem margins_iff (hS : S.Sized) (hrows : 2 ≤ S.rows) (t : Term Screen) :
    (t.margins S).1 + 1 < (t.margins S).2 ∧ (t.margins S).2 ≤ S.rows ↔ ¬ t.context.BadMargins S := by
  have hlt := hS.rows_lt
  have htop := (t.context.escValues 0 - 1).toNat_lt
  have hzero : (t.context.escValues 1).toNat = 0 ↔ t.context.escValues 1 = 0 := UInt32.toNat_inj (b := 0)
  unfold margins TermContext.BadMargins
  rw [← hzero]
  generalize (t.context.escValues 1).toNat = bottom
  obtain rfl | hpos := Nat.eq_zero_or_pos bottom
  · have hdec : decr64 0 = 2 ^ 64 - 1 := rfl
    have hlast : decr64 S.rows = S.rows - 1 := decr64_eq (by omega) hlt
    dsimp only
    split_ifs <;> simp <;> omega
  · have hdec : decr64 bottom < 2 ^ 64 := Nat.mod_lt _ (by decide)
    have hlast : decr64 S.rows = S.rows - 1 := decr64_eq (by omega) hlt
    by_cases hle : S.rows < bottom
    · dsimp only
      split_ifs <;> simp <;> omega
    · have hbottom : decr64 bottom = bottom - 1 := decr64_eq hpos (by omega)
      dsimp only
      split_ifs <;> simp <;> omega

/-- The case `r`: the margins are a region, unless they are bad. -/
theorem Sane.setMargins (hS : S.Sized) (hrows : 2 ≤ S.rows) (h : t.Sane S e S.cols) :
    (t.setMargins S.page S).SaneUnless S e (t.context.BadMargins S) := by
  refine ⟨h.screen.setCursorPos hS 0 0, h.autoflush, ?_⟩
  rw [← margins_iff hS hrows]
  exact ⟨fun hsane => hsane.region, fun hregion => { h.context with region := hregion }⟩

/-- **The `switch` of the control sequences**. -/
theorem Sane.command (hS : S.Sized) (hrows : 2 ≤ S.rows) (h : t.Sane S false S.cols) (hx : x < S.cols)
    (hy : y < S.rows) (c : Char) :
    Ends (SaneUnless S false (c = 'r' ∧ t.context.BadMargins S)) (t.command S.page S c x y) := by
  have hcols : 3 * S.cols < 2 ^ 64 := by
    have hle : 2 * S.cols ≤ S.cells := Nat.mul_le_mul_right _ hrows
    have hlt := hS.cells_lt
    omega
  have hn := (t.context.escValues 0).toNat_lt
  -- every command but `r` keeps the terminal sane; `r` sets the margins it is given
  have hsafe {b : Option (Term Screen)} (hc : c ≠ 'r') (hb : Ends (Sane S false S.cols) b) :
      Ends (SaneUnless S false (c = 'r' ∧ t.context.BadMargins S)) b :=
    hb.mono fun _ hsane => hsane.unless fun hbad => hc hbad.1
  have hmove (x y : ℕ) : Ends (Sane S false S.cols) (some (t.setCursorPos S.page x y)) :=
    .some (h.setCursorPos hS x y)
  unfold Term.command
  split
  · exact hsafe (by decide) (hmove _ _)
  · exact hsafe (by decide) (hmove _ _)
  · exact hsafe (by decide) (hmove _ _)
  · exact hsafe (by decide) (hmove _ _)
  · exact hsafe (by decide) (hmove _ _)
  · exact hsafe (by decide) (hmove _ _)
  · exact hsafe (by decide) (hmove _ _)
  · exact hsafe (by decide) (hmove _ _)
  · exact hsafe (by decide) (.some (h.call _))
  · exact hsafe (by decide) (hmove _ _)
  · exact hsafe (by decide) (hmove _ _)
  · exact hsafe (by decide) (hmove _ _)
  · exact hsafe (by decide) (hmove _ _)
  · exact hsafe (by decide) (hmove _ _)
  · exact hsafe (by decide) (.some (h.report _ _ _))
  · exact hsafe (by decide) (.some (h.call _))
  · exact hsafe (by decide) (h.erasePage hS hx hy _)
  · exact hsafe (by decide) (h.insertChars hS hx (by omega) _ _)
  · exact hsafe (by decide) (h.deleteChars hS (by omega) _ _)
  · exact hsafe (by decide) (h.eraseChars hS (by omega) _ _)
  · exact hsafe (by decide) h.sgr
  · exact hsafe (by decide) (.some (h.set { h.context with }))
  · exact hsafe (by decide) (hmove _ _)
  · exact hsafe (by decide) (h.eraseLine hS hx (by omega) _ _)
  · have hset := h.setMargins hS hrows
    exact .some ⟨hset.screen, hset.autoflush, hset.context.trans (by simp)⟩
  · exact hsafe (by decide) (.some (h.modeToggle _))
  · exact hsafe (by decide) (.some (h.modeToggle _))
  · exact hsafe (by decide) (.some h.linuxPrivateParse)
  · next hr _ _ _ => exact hsafe hr (.some h)

/-- The condition in another form: `p ↔ q`. -/
theorem SaneUnless.congr {p q : Prop} (h : t.SaneUnless S e p) (hpq : p ↔ q) : t.SaneUnless S e q :=
  ⟨h.screen, h.autoflush, h.context.trans (not_congr hpq)⟩

/-- The end of a sequence clears flags only. -/
theorem Sane.cleanup (h : t.Sane S e w) : t.cleanup.Sane S e w := h.set { h.context with }

/-- The numbers of a sequence are filled up with defaults. -/
theorem Sane.fill (h : t.Sane S e w) (c : Char) : (t.fill c).Sane S e w := h.set { h.context with }

/-- The default for a number that is left out is no margin, so it makes none bad. -/
theorem badMargins_fill : (t.fill c).context.BadMargins S ↔ t.context.BadMargins S := by
  unfold TermContext.BadMargins Term.fill
  simp only [set_context]
  refine and_congr_right fun hi => ?_
  rw [if_neg (by omega), if_neg (by omega)]

/-- **The last character of a sequence**: of all the cases only `r` may leave what is not a region. -/
theorem Sane.carryOut (hS : S.Sized) (hrows : 2 ≤ S.rows) (h : t.Sane S true S.cols) (c : Char) :
    Ends (SaneUnless S true (c = 'r' ∧ t.context.decPrivate = false ∧ t.context.BadMargins S))
      (t.carryOut S.page S c) := by
  have hfill := h.fill c
  unfold Term.carryOut
  refine .ite (fun hpriv => ?_) fun hpriv => ?_
  · have hsane := hfill.decPrivateParse c
    refine .some (hsane.cleanup.unless ?_)
    rintro ⟨-, hnot, -⟩
    exact absurd (hpriv.symm.trans hnot) (by decide)
  · have hquiet : ((t.fill c).apply S.page .scrollDisable).Sane S false S.cols :=
      ⟨hfill.context, ⟨hfill.screen.cursorX, hfill.screen.cursorY, hfill.screen.saved, rfl⟩, hfill.autoflush⟩
    refine (hquiet.command hS hrows hfill.screen.cursorX hfill.screen.cursorY c).map fun t' ht' => ?_
    rw [show (S.page.context _).scrollEnabled = true from hfill.screen.scrollEnabled, if_pos rfl]
    have hcontext : (t'.apply S.page .scrollEnable).cleanup.context.Sane S ↔ t'.context.Sane S :=
      ⟨fun hk => { hk with }, fun hk => { hk with }⟩
    refine ⟨⟨ht'.screen.cursorX, ht'.screen.cursorY, ht'.screen.saved, rfl⟩, ht'.autoflush,
      hcontext.trans (ht'.context.trans (not_congr (and_congr_right fun _ => badMargins_fill.trans ?_)))⟩
    exact ⟨fun hbad => ⟨Bool.eq_false_of_not_eq_true hpriv, hbad⟩, And.right⟩

/-- A digit of a number. -/
theorem Sane.digit (h : t.Sane S e w) (c : Char) : Ends (Sane S e w) (t.digit c) := by
  unfold Term.digit
  refine .ite (fun _ => .some h) fun hne => .ite (fun hlt => ?_) fun hlt => ?_
  · exact .some (h.set { h.context with digits := fun _ => hlt })
  · have hle := h.context.values
    omega

/-- A number that is left out. -/
theorem Sane.emptyValue (h : t.Sane S e w) (hrrr : t.context.rrr = false) : Ends (Sane S e w) t.emptyValue := by
  unfold Term.emptyValue
  refine .ite (fun _ => .some h) fun hne => .ite (fun hlt => ?_) fun hlt => ?_
  · exact .some (h.set { h.context with
      values := hlt
      digits := fun hr => absurd (hr.symm.trans hrrr) (by decide) })
  · have hle := h.context.values
    omega

/-- A byte that ends a sequence which unsets the margins: a parameter with digits counts. -/
def Unsets (S : Setup) (c : Char) (t : Term Screen) : Prop :=
  c = 'r' ∧ t.context.decPrivate = false ∧
    TermContext.BadMargins S { t.context with escValuesI := t.context.escValuesI + t.context.rrr.toNat }

/-- **`term_control_sequence_parse`**. -/
theorem Sane.controlSequenceParse (hS : S.Sized) (hrows : 2 ≤ S.rows) (h : t.Sane S true S.cols) (c : Char) :
    Ends (SaneUnless S true (t.Unsets S c)) (t.controlSequenceParse S.page S c) := by
  have hsafe {b : Option (Term Screen)} (hc : c ≠ 'r') (hb : Ends (Sane S true S.cols) b) :
      Ends (SaneUnless S true (t.Unsets S c)) b :=
    hb.mono fun _ hsane => hsane.unless fun hbad => hc hbad.1
  unfold Term.controlSequenceParse
  -- a second bracket, a private mark, a digit, the end of a number, an empty number, the final character
  refine .ite (fun hc => ?_) fun _ => .ite (fun hc => ?_) fun _ => .ite (fun hc => ?_) fun _ => .ite (fun hrrr => ?_)
    fun hrrr => .ite (fun hc => ?_) fun _ => ?_
  · exact hsafe (by rw [hc.2]; decide) (.some (Sane.cleanup (h.set { h.context with })))
  · exact hsafe (by rw [hc.2]; decide) (.some (h.set { h.context with }))
  · refine hsafe ?_ (h.digit c)
    rintro rfl
    exact absurd hc.2 (by decide)
  · have hset := h.set (f := fun k => { k with escValuesI := k.escValuesI + 1, rrr := false })
      { h.context with
        values := h.context.digits hrrr
        digits := nofun }
    refine .ite (fun hc => hsafe (by rw [hc]; decide) (.some hset)) fun _ => ?_
    refine (hset.carryOut hS hrows c).mono fun _ ht' => ht'.congr ?_
    unfold Unsets
    rw [hrrr]
    rfl
  · exact hsafe (by rw [hc]; decide) (h.emptyValue (Bool.eq_false_of_not_eq_true hrrr))
  · refine (h.carryOut hS hrows c).mono fun _ ht' => ht'.congr ?_
    unfold Unsets
    rw [Bool.eq_false_of_not_eq_true hrrr]
    rfl

/-! ## Escape sequences -/

/-- A line feed: the cursor is above the last row, or the region is scrolled. -/
theorem Sane.lineFeed (hS : S.Sized) (h : t.Sane S e S.cols) (x : ℕ) :
    Ends (Sane S e S.cols) (t.lineFeed S.page x) :=
  .ite (fun _ => h.scroll.map fun _ h => h.setCursorPos hS _ _) fun _ => .some (h.setCursorPos hS _ _)

/-- `ESC M`: the cursor is below the first row, or the region is scrolled. -/
theorem Sane.reverseLineFeed (hS : S.Sized) (h : t.Sane S e S.cols) :
    Ends (Sane S e S.cols) (t.reverseLineFeed S.page) :=
  .ite (fun _ => h.revscroll.map fun _ h => h.setCursorPos hS _ _) fun _ => .some (h.setCursorPos hS _ _)

/-- The cursor that is saved is on the screen. -/
theorem Sane.saveState (h : t.Sane S e S.cols) : (t.saveState S.page).Sane S e S.cols :=
  ⟨{ h.context with
      savedCharset := h.context.charset
      savedPrimary := h.context.primary },
    ⟨h.screen.cursorX, h.screen.cursorY, ⟨h.screen.cursorX, h.screen.cursorY⟩, h.screen.scrollEnabled⟩, h.autoflush⟩

/-- The cursor that is restored is on the screen. -/
theorem Sane.restoreState (h : t.Sane S e S.cols) : (t.restoreState S.page).Sane S e S.cols :=
  ⟨{ h.context with
      charset := h.context.savedCharset
      primary := h.context.savedPrimary },
    ⟨h.screen.saved.1, h.screen.saved.2, h.screen.saved, h.screen.scrollEnabled⟩, h.autoflush⟩

/-- `term_reinit`: the region is the whole screen, of two rows at least. -/
theorem Sane.reinit (hrows : 2 ≤ S.rows) (h : t.Sane S e w) : (t.reinit S).Sane S e w where
  context := { h.context with
    region := ⟨hrows, le_rfl⟩
    values := Nat.zero_le _
    digits := nofun
    gSelect := Nat.zero_le _
    charset := Nat.zero_lt_two
    primary := nofun }
  screen := h.screen
  autoflush := rfl

/-- The screen is cleared, and the cursor may be put first. -/
theorem Sane.clear (hS : S.Sized) (h : t.Sane S e S.cols) (move : Bool) :
    Ends (Sane S e S.cols) (t.clear S.page move) := by
  unfold Term.clear
  rw [run_page (o := .clear move) trivial]
  cases move with
  | false => exact .some ⟨h.context, h.screen, h.autoflush⟩
  | true =>
      exact .some ⟨h.context, ⟨hS.cols_pos, hS.rows_pos, h.screen.saved, h.screen.scrollEnabled⟩, h.autoflush⟩

/-- The characters that `term_putchar` does not print. -/
def controls : List Char :=
  ['\x00', '\x7f', '\x9b', '\x1b', '\t', '\x0b', '\x0c', '\n', '\x08', '\r', '\x07', '\x0e', '\x0f']

/-- A byte that is printed, by `term_putchar` or, after an escape character, by `term_escape_parse`. -/
def Prints (c : Char) (t : Term Screen) : Prop :=
  if t.context.escape then t.context.csi = false ∧ c = '\x1b' ∧ t.runtime = false
  else t.context.gSelect = 0 ∧ c ∉ controls

/-- The cursor is in the last cell, below the region. -/
def AtCorner (S : Setup) (t : Term Screen) : Prop := t.backend.AtCorner S t.context.scrollBottomMargin

/-- **The character after `ESC`**: another `ESC` is printed, unless at run time, and
that may be in the last cell. -/
theorem Sane.escapeCommand (hS : S.Sized) (hrows : 2 ≤ S.rows) (h : t.Sane S true S.cols) (c : Char) :
    Ends (fun t' => t'.Sane S true S.cols ↔ ¬ ((c = '\x1b' ∧ t.runtime = false) ∧ t.AtCorner S))
      (t.escapeCommand S.page S c) := by
  have hsafe {b : Option (Term Screen)} (hc : c ≠ '\x1b') (hb : Ends (Sane S true S.cols) b) :
      Ends (fun t' => t'.Sane S true S.cols ↔ ¬ ((c = '\x1b' ∧ t.runtime = false) ∧ t.AtCorner S)) b :=
    hb.mono fun _ hsane => iff_of_true hsane fun hbad => hc hbad.1.1
  unfold Term.escapeCommand
  split
  · exact hsafe (by decide) (.some h.saveState)
  · exact hsafe (by decide) (.some h.restoreState)
  · exact hsafe (by decide) ((h.reinit hrows).clear hS true)
  · exact hsafe (by decide) (h.lineFeed hS _)
  · exact hsafe (by decide) (h.lineFeed hS _)
  · exact hsafe (by decide) (h.reverseLineFeed hS)
  · exact hsafe (by decide) (.some (h.call _))
  · exact hsafe (by decide) (.some (h.set { h.context with gSelect := Nat.le_succ 1 }))
  · exact hsafe (by decide) (.some (h.set { h.context with gSelect := le_rfl }))
  -- an escape after an escape is printed as a character, unless `term_runtime` is set
  · refine .ite (fun hruntime => .some (iff_of_true h ?_)) fun hruntime =>
      (h.rawPutchar_iff hS _).mono fun _ ht' => ht'.trans (not_congr ?_)
    · rintro ⟨⟨-, hnot⟩, -⟩
      exact absurd (hruntime.symm.trans hnot) (by decide)
    · exact ⟨fun hc => ⟨⟨rfl, Bool.eq_false_of_not_eq_true hruntime⟩, hc⟩, And.right⟩
  · next hc => exact hsafe hc (.some h)

/-- **`term_escape_parse`**. -/
theorem Sane.escapeParse (hS : S.Sized) (hrows : 2 ≤ S.rows) (h : t.Sane S true S.cols) (c : Char) :
    Ends (fun t' => t'.Sane S true S.cols ↔
        if t.context.controlSequence then ¬ t.Unsets S c
        else ¬ ((t.context.csi = false ∧ c = '\x1b' ∧ t.runtime = false) ∧ t.AtCorner S))
      (t.escapeParse S.page S c) := by
  have hset := h.set (f := fun k => { k with escapeOffset := add64 k.escapeOffset 1 }) { h.context with }
  unfold Term.escapeParse
  -- inside a control sequence, behind its bracket, at the bracket, or at another command
  refine .ite (fun hseq : t.context.controlSequence = true => ?_)
    fun hseq : ¬ t.context.controlSequence = true => .ite (fun hcsi : t.context.csi = true => ?_)
      fun hcsi : ¬ t.context.csi = true => .ite (fun hc => ?_) fun hc => ?_
  · rw [if_pos hseq]
    exact (hset.controlSequenceParse hS hrows c).mono fun _ ht' => ht'.sane_iff
  · rw [if_neg hseq]
    refine .some (iff_of_true (Sane.set (hset.set { hset.context with }) { hset.context with
      values := Nat.zero_le _
      digits := nofun }) ?_)
    rintro ⟨⟨hnot, -⟩, -⟩
    exact absurd (hcsi.symm.trans hnot) (by decide)
  · rw [if_neg hseq]
    refine .some (iff_of_true (hset.set { hset.context with
      values := Nat.zero_le _
      digits := nofun }) ?_)
    rintro ⟨⟨-, hesc, -⟩, -⟩
    exact absurd (hc.symm.trans hesc) (by decide)
  · rw [if_neg hseq]
    refine (hset.escapeCommand hS hrows c).map fun t' ht' => ?_
    refine Iff.trans ⟨fun hsane => ⟨{ hsane.context with }, hsane.screen, hsane.autoflush⟩,
      fun hsane => hsane.set { hsane.context with }⟩ (ht'.trans (not_congr (and_congr_left fun _ => ?_)))
    exact ⟨fun hbad => ⟨Bool.eq_false_of_not_eq_true hcsi, hbad⟩, And.right⟩

/-! ## Characters -/

/-- The character after `ESC (` or `ESC )`. -/
theorem Sane.selectCharset (h : t.Sane S e w) (c : Char) :
    Ends (Sane S e w) (t.selectCharset c) := by
  have hset := h.set (f := fun k => { k with gSelect := 0 }) { h.context with gSelect := Nat.zero_le _ }
  have hle := h.context.gSelect
  unfold Term.selectCharset
  rw [if_pos (by omega)]
  split
  · exact .some (hset.set { hset.context with })
  · exact .some (hset.set { hset.context with })
  · exact .some hset

/-- A tabulator, to the last column at most. -/
theorem Sane.tab (hS : S.Sized) (h : t.Sane S e w) : (t.tab S.page S).Sane S e S.cols := by
  unfold Term.tab
  dsimp only
  split
  · exact h.setCursorPos hS _ _
  · exact h.setCursorPos hS _ _

/-- **A printed character**: the cursor stays on the screen, but for the last cell. -/
theorem Sane.print (hS : S.Sized) (h : t.Sane S true S.cols) (c : Char) :
    Ends (fun t' => t'.Sane S true S.cols ↔ ¬ t.AtCorner S) (t.print S.page S c) := by
  -- Making room moves characters, and leaves the cursor and the margins alone.
  have hroom : Ends (fun t' => t'.Sane S true S.cols ∧ (t'.AtCorner S ↔ t.AtCorner S))
      (if t.context.insertMode then
        loopDown decr64 (fun i t' => t'.moveCharacter S.page (add64 i 1) (t.cursorY S.page) i (t.cursorY S.page))
          (t.cursorX S.page) S.cols (decr64 S.cols) t
      else some t) := by
    have hlast := decr64_eq hS.cols_pos hS.cols_lt
    have hcols := hS.cols_lt
    have hx : t.cursorX S.page < S.cols := h.screen.cursorX
    refine .ite (fun _ => ?_) fun _ => .some ⟨h, Iff.rfl⟩
    refine .loopDown (fun i t' ht' => ?_) (fun j hj hle => decr64_eq (by omega) (by omega)) (by omega) (by omega)
      ⟨h, Iff.rfl⟩
    refine (moveCharacter_text t' _ _ _ _).mono fun t'' ht'' => ⟨ht'.1.of_text ht'', ?_⟩
    unfold AtCorner Screen.AtCorner at ht' ⊢
    rw [ht''.2, show t''.context = t'.context from congrArg TermState.context ht''.1]
    exact ht'.2
  refine Ends.bind hroom fun t' ht' => ?_
  rw [if_pos ht'.1.context.charset]
  split
  · exact (ht'.1.rawPutchar_iff hS _).mono fun _ hiff => hiff.trans (not_congr ht'.2)
  · exact (ht'.1.rawPutchar_iff hS _).mono fun _ hiff => hiff.trans (not_congr ht'.2)

/-- A character that is no part of a sequence: the controls never leave the screen. -/
theorem Sane.character (hS : S.Sized) (h : t.Sane S true S.cols) (c : Char) :
    Ends (fun t' => t'.Sane S true S.cols ↔ ¬ (c ∉ controls ∧ t.AtCorner S)) (t.character S.page S c) := by
  have hsafe {b : Option (Term Screen)} (hc : c ∈ controls) (hb : Ends (Sane S true S.cols) b) :
      Ends (fun t' => t'.Sane S true S.cols ↔ ¬ (c ∉ controls ∧ t.AtCorner S)) b :=
    hb.mono fun _ hsane => iff_of_true hsane fun hbad => hbad.1 hc
  unfold Term.character
  split
  · exact hsafe (by decide) (.some h)
  · exact hsafe (by decide) (.some h)
  · exact hsafe (by decide) (.some (h.set { h.context with }))
  · exact hsafe (by decide) (.some (h.set { h.context with }))
  · exact hsafe (by decide) (.some (h.tab hS))
  · exact hsafe (by decide) (h.lineFeed hS _)
  · exact hsafe (by decide) (h.lineFeed hS _)
  · exact hsafe (by decide) (h.lineFeed hS _)
  · exact hsafe (by decide) (.some (h.setCursorPos hS _ _))
  · exact hsafe (by decide) (.some (h.setCursorPos hS _ _))
  · exact hsafe (by decide) (.some (h.call _))
  · exact hsafe (by decide) (.some (h.set { h.context with charset := Nat.one_lt_two }))
  · exact hsafe (by decide) (.some (h.set { h.context with charset := Nat.zero_lt_two }))
  -- a printed character spoils the terminal in the last corner only
  · have hc : c ∉ controls := by simp_all [controls]
    exact (h.print hS c).mono fun _ hiff => hiff.trans (not_congr ⟨fun hcorner => ⟨hc, hcorner⟩, And.right⟩)

/-- **A byte after which the terminal is not as it should be**: it is printed in the last cell, below the region,
or unsets the margins. -/
def Leaves (S : Setup) (c : Char) (t : Term Screen) : Prop :=
  ¬ (t.context.discardNext ∨ t.runtime ∧ (c = '\x18' ∨ c = '\x1a')) ∧
    if t.context.escape ∧ t.context.controlSequence then t.Unsets S c else t.Prints c ∧ t.AtCorner S

instance (t : Term Screen) : Decidable (t.AtCorner S) := inferInstanceAs (Decidable (_ ∧ _ ∧ _))

instance (t : Term Screen) : Decidable (t.Prints c) := inferInstanceAs (Decidable (ite ..))

instance (t : Term Screen) : Decidable (t.Unsets S c) := inferInstanceAs (Decidable (_ ∧ _ ∧ _ ∧ _ ∧ _))

instance (t : Term Screen) : Decidable (t.Leaves S c) := inferInstanceAs (Decidable (¬ _ ∧ ite ..))

/-- **`term_putchar`**: a terminal stays as it should be if the byte is not one of these, and only then. -/
theorem Sane.putchar (hS : S.Sized) (hrows : 2 ≤ S.rows) (h : t.Sane S true S.cols) (c : Char) :
    Ends (fun t' => t'.Sane S true S.cols ↔ ¬ t.Leaves S c) (t.putchar S.page S c) := by
  unfold Term.putchar Leaves
  refine .ite (fun hdiscard => ?_) fun hdiscard => .ite (fun hescape => ?_) fun hescape =>
    .ite (fun hg => ?_) fun hg => ?_
  · exact .some (iff_of_true (h.set { h.context with gSelect := Nat.zero_le _ }) fun hbad => hbad.1 hdiscard)
  · refine (h.escapeParse hS hrows c).mono fun _ hiff => hiff.trans ?_
    unfold Prints
    by_cases hseq : t.context.controlSequence = true
    · rw [if_pos hseq, if_pos ⟨hescape, hseq⟩]
      exact not_congr ⟨fun hbad => ⟨hdiscard, hbad⟩, And.right⟩
    · rw [if_neg hseq, if_neg fun hboth => hseq hboth.2, if_pos hescape]
      exact not_congr ⟨fun hbad => ⟨hdiscard, hbad⟩, And.right⟩
  · refine (h.selectCharset c).mono fun _ hsane => iff_of_true hsane ?_
    unfold Prints
    rw [if_neg fun hboth => hescape hboth.1, if_neg hescape]
    exact fun hbad => hg hbad.2.1.1
  · refine (h.character hS c).mono fun _ hiff => hiff.trans (not_congr ?_)
    unfold Prints
    rw [if_neg fun hboth => hescape hboth.1, if_neg hescape]
    exact ⟨fun hbad => ⟨hdiscard, ⟨not_ne_iff.mp hg, hbad.1⟩, hbad.2⟩, fun hbad => ⟨hbad.2.1.2, hbad.2.2⟩⟩

/-! ## Streams -/

/-- **A stream without such bytes.** -/
def Stays (S : Setup) (t : Term Screen) : List Char → Prop
  | [] => True
  | c :: s => ¬ t.Leaves S c ∧ ∀ t' ∈ t.putchar S.page S c, t'.Stays S s

instance decidableStays (S : Setup) : (t : Term Screen) → (s : List Char) → Decidable (t.Stays S s)
  | _, [] => inferInstanceAs (Decidable True)
  | t, c :: s =>
      have : DecidablePred fun t' => Stays S t' s := fun t' => decidableStays S t' s
      inferInstanceAs (Decidable (¬ t.Leaves S c ∧ ∀ t' ∈ t.putchar S.page S c, t'.Stays S s))

/-- A string that stays on the screen does, by its characters. -/
theorem Sane.putchars (hS : S.Sized) (hrows : 2 ≤ S.rows) (h : t.Sane S true S.cols) {s : List Char}
    (hstays : t.Stays S s) : Ends (Sane S true S.cols) (t.putchars S.page S s) := by
  induction s generalizing t with
  | nil => exact .some h
  | cons c s ih =>
      obtain ⟨t', hput, hiff⟩ := h.putchar hS hrows c
      unfold Term.putchars
      rw [List.foldlM_cons, hput]
      exact ih (hiff.mpr hstays.1) (hstays.2 t' hput)

/-- A terminal that has been set up is as it should be, if it has two rows. -/
theorem sane_initial (hS : S.Sized) (hrows : 2 ≤ S.rows) (callback : Bool) :
    (Term.initial S callback (Screen.initial S)).Sane S true S.cols where
  context := {
    region := ⟨hrows, le_rfl⟩
    values := Nat.zero_le _
    digits := nofun
    gSelect := Nat.zero_le _
    charset := Nat.zero_lt_two
    savedCharset := Nat.zero_lt_two
    primary := nofun
    savedPrimary := fun p hp => Option.some.inj hp ▸ by decide }
  screen := ⟨hS.cols_pos, hS.rows_pos, ⟨hS.cols_pos, hS.rows_pos⟩, rfl⟩
  autoflush := rfl

/-- **Such a stream is one after each of whose bytes the terminal is as it should be.** -/
theorem stays_iff (hS : S.Sized) (hrows : 2 ≤ S.rows) (h : t.Sane S true S.cols) (s : List Char) :
    t.Stays S s ↔ ∀ p, p <+: s → Ends (Sane S true S.cols) (t.putchars S.page S p) := by
  induction s generalizing t with
  | nil =>
      refine iff_of_true trivial fun p hp => ?_
      rw [List.prefix_nil.mp hp]
      exact .some h
  | cons c s ih =>
      obtain ⟨t', hput, hiff⟩ := h.putchar hS hrows c
      have hcons (p : List Char) : t.putchars S.page S (c :: p) = t'.putchars S.page S p := by
        unfold Term.putchars
        rw [List.foldlM_cons, hput]
        rfl
      have hstays : t.Stays S (c :: s) ↔ ¬ t.Leaves S c ∧ t'.Stays S s := by
        refine and_congr_right fun _ => ⟨fun hs => hs t' hput, fun hs t'' ht'' => ?_⟩
        rw [hput] at ht''
        exact Option.some.inj ht'' ▸ hs
      rw [hstays]
      refine ⟨fun hgood p hp => ?_, fun hgood => ?_⟩
      · cases p with
        | nil => exact .some h
        | cons c' p =>
            obtain ⟨rfl, hprefix⟩ := List.cons_prefix_cons.mp hp
            rw [hcons]
            exact (ih (hiff.mpr hgood.1)).mp hgood.2 p hprefix
      · have hfirst := hgood [c] (List.cons_prefix_cons.mpr ⟨rfl, List.nil_prefix⟩)
        rw [hcons] at hfirst
        obtain ⟨_, ⟨⟩, hsane⟩ := hfirst
        refine ⟨hiff.mp hsane, (ih hsane).mpr fun p hp => ?_⟩
        rw [← hcons]
        exact hgood (c :: p) (List.cons_prefix_cons.mpr ⟨rfl, hp⟩)

/-- A terminal of three lines of two characters, of which the last one is left below the region. -/
theorem stays_iff_small :
    let S := gtermSetup ⟨24, 100, 96⟩ ⟨7, 8, 1, 1, 1⟩ ⟨fun _ => 0, fun _ => 0, 0, 0⟩ (fun _ => false) fun _ => 0
    let s := ['\x1b', '[', '1', ';', '2', 'r', '\x1b', '[', '3', ';', '2', 'H', 'a']
    (Term.initial S false (Screen.initial S)).Stays S s ↔
      ∀ p, p <+: s → Ends (Sane S true S.cols) ((Term.initial S false (Screen.initial S)).putchars S.page S p) :=
  have hfits : Fits ⟨24, 100, 96⟩ ⟨7, 8, 1, 1, 1⟩ ⟨fun _ => 0, fun _ => 0, 0, 0⟩ :=
    ⟨by decide, by decide, by decide, by decide, by decide⟩
  have hS := (gtermSetup_wellFormed hfits (fun _ => false) fun _ => 0).sized
  stays_iff hS (by decide) (sane_initial hS (by decide) false) _

/-- Of two strings one after the other: the first stays, and the second from there on. -/
theorem stays_append {s s' : List Char} (h : t.Stays S (s ++ s')) :
    t.Stays S s ∧ ∀ t', t.putchars S.page S s = some t' → t'.Stays S s' := by
  induction s generalizing t with
  | nil =>
      refine ⟨trivial, fun t' ht' => ?_⟩
      exact Option.some.inj ht' ▸ h
  | cons c s ih =>
      refine ⟨⟨h.1, fun t' ht' => (ih (h.2 t' ht')).1⟩, fun t'' ht'' => ?_⟩
      unfold Term.putchars at ht''
      rw [List.foldlM_cons, Option.bind_eq_bind, Option.bind_eq_some_iff] at ht''
      obtain ⟨t', hput, hrest⟩ := ht''
      exact (ih (h.2 t' hput)).2 t'' hrest

/-- `term_write` leaves the page as the characters have. -/
theorem Sane.write {u : Term Screen} {s : List Char} (hput : t.putchars S.page S s = some u)
    (hu : u.Sane S true S.cols) : t.write S.page S s = some u := by
  unfold Term.write
  rw [hput, Option.bind_some, if_pos hu.autoflush]
  exact run_page (o := .flush) ⟨hu.screen.cursorX, hu.screen.cursorY⟩

end Term

/-! ## The display -/

variable {fb₀ : ℕ → UInt32} {g : Term Gterm}

/-- Streams that are written do to the page what their bytes do. -/
theorem writes_related (hS : S.WellFormed) (hrows : 2 ≤ S.rows) (hrelated : g.Related (Refines S fb₀) t)
    (h : t.Sane S true S.cols) {ws : List (List Char)} (hstays : t.Stays S ws.flatten) :
    ∃ g' t', ws.foldlM (fun g s => g.write S.vbe S s) g = some g' ∧ t.putchars S.page S ws.flatten = some t' ∧
      g'.Related (Refines S fb₀) t' ∧ t'.Sane S true S.cols := by
  induction ws generalizing g t with
  | nil => exact ⟨g, t, rfl, rfl, hrelated, h⟩
  | cons s ws ih =>
      rw [List.flatten_cons] at hstays
      obtain ⟨hfirst, hrest⟩ := Term.stays_append hstays
      obtain ⟨t₁, hput, h₁⟩ := h.putchars hS.sized hrows hfirst
      obtain ⟨g₁, hwrite, hrelated₁⟩ := hrelated.write (vbe_follows_page hS fb₀) s t₁ (Term.Sane.write hput h₁)
      obtain ⟨g', t', hg', ht', hrelated', h'⟩ := ih hrelated₁ h₁ (hrest t₁ hput)
      refine ⟨g', t', ?_, ?_, hrelated', h'⟩
      · rw [List.foldlM_cons, hwrite]
        exact hg'
      · unfold Term.putchars at hput ht' ⊢
        rw [List.flatten_cons, List.foldlM_append, hput]
        exact ht'

/-- A last stream is flushed, and so the framebuffer shows the page. -/
theorem writes_shown (hS : S.WellFormed) (hrows : 2 ≤ S.rows) (fb₀ : ℕ → UInt32) (callback : Bool)
    (ws : List (List Char)) (s : List Char)
    (hstays : (Term.initial S callback (Screen.initial S)).Stays S (ws ++ [s]).flatten) :
    ∃ g g' t, Gterm.init S fb₀ = some g ∧
      (ws ++ [s]).foldlM (fun g s => g.write S.vbe S s) (Term.initial S callback g) = some g' ∧
      (Term.initial S callback (Screen.initial S)).putchars S.page S (ws ++ [s]).flatten = some t ∧
      t.Sane S true S.cols ∧ g'.toTermState = t.toTermState ∧ Outside S fb₀ g'.backend.fb ∧
      ∀ x y, x < S.cols → y < S.rows → S.Shows g'.backend.fb (t.backend.seen x y) x y := by
  obtain ⟨g, hinit, hrefines⟩ := init_refines hS fb₀
  have hrelated : (Term.initial S callback g).Related (Refines S fb₀) (Term.initial S callback (Screen.initial S)) :=
    ⟨rfl, hrefines⟩
  rw [List.flatten_append, List.flatten_singleton] at hstays ⊢
  obtain ⟨hfirst, hlast⟩ := Term.stays_append hstays
  obtain ⟨g₁, t₁, hg₁, ht₁, hrelated₁, h₁⟩ :=
    writes_related hS hrows hrelated (Term.sane_initial hS.sized hrows callback) hfirst
  obtain ⟨t, hput, h⟩ := h₁.putchars hS.sized hrows (hlast t₁ ht₁)
  obtain ⟨g₂, hg₂, hrelated₂⟩ := hrelated₁.putchars (vbe_follows_page hS fb₀) s t hput
  obtain ⟨b, hflush, hb, hshows⟩ := flush_refines hS hrelated₂.backend ⟨h.screen.cursorX, h.screen.cursorY⟩
  refine ⟨g, { g₂ with backend := b }, t, hinit, ?_, ?_, h, hrelated₂.state, hb.outside, hshows⟩
  · rw [List.foldlM_append, hg₁]
    show Option.bind (g₁.write S.vbe S s) some = _
    rw [Option.bind_fun_some]
    unfold Term.write
    rw [hg₂, Option.bind_some, hrelated₂.autoflush, if_pos h.autoflush]
    show (g₂.backend.doubleBufferFlush S).map _ = _
    rw [hflush]
    rfl
  · unfold Term.putchars at ht₁ hput ⊢
    rw [List.foldlM_append, ht₁]
    exact hput

/-- **What is written is what is to be seen**: after streams that keep the terminal as it should be, the framebuffer
shows the page that their bytes make, with the cursor. -/
theorem writes_show_page {frm : Framebuffer} {font : Font} {style : Style} (hfits : Fits frm font style)
    (vgaFontBool : ℕ → Bool) (bgCanvas fb₀ : ℕ → UInt32) (callback : Bool) (ws : List (List Char)) (s : List Char)
    (hrows : 2 ≤ (gtermSetup frm font style vgaFontBool bgCanvas).rows)
    (hstays : (Term.initial (gtermSetup frm font style vgaFontBool bgCanvas) callback
      (Screen.initial (gtermSetup frm font style vgaFontBool bgCanvas))).Stays
        (gtermSetup frm font style vgaFontBool bgCanvas) (ws ++ [s]).flatten) :
    let S := gtermSetup frm font style vgaFontBool bgCanvas
    ∃ g g' t, Gterm.init S fb₀ = some g ∧
      (ws ++ [s]).foldlM (fun g s => g.write S.vbe S s) (Term.initial S callback g) = some g' ∧
      (Term.initial S callback (Screen.initial S)).putchars S.page S (ws ++ [s]).flatten = some t ∧
      t.Sane S true S.cols ∧ g'.toTermState = t.toTermState ∧ Outside S fb₀ g'.backend.fb ∧
      ∀ x y, x < S.cols → y < S.rows → S.Shows g'.backend.fb (t.backend.seen x y) x y :=
  writes_shown (gtermSetup_wellFormed hfits vgaFontBool bgCanvas) hrows fb₀ callback ws s hstays

/-- A terminal of three lines of two characters, whose cursor is moved. -/
theorem writes_show_page_small :
    let S := gtermSetup ⟨24, 100, 96⟩ ⟨7, 8, 1, 1, 1⟩ ⟨fun _ => 0, fun _ => 0, 0, 0⟩ (fun _ => false) fun _ => 0
    ∃ g g' t, Gterm.init S (fun _ => 0) = some g ∧
      ([['a', '\x1b', '[', '2']] ++ [[';', '1', 'H', 'b']]).foldlM (fun g s => g.write S.vbe S s)
        (Term.initial S false g) = some g' ∧
      (Term.initial S false (Screen.initial S)).putchars S.page S
        ([['a', '\x1b', '[', '2']] ++ [[';', '1', 'H', 'b']]).flatten = some t ∧
      t.Sane S true S.cols ∧ g'.toTermState = t.toTermState ∧ Outside S (fun _ => 0) g'.backend.fb ∧
      ∀ x y, x < S.cols → y < S.rows → S.Shows g'.backend.fb (t.backend.seen x y) x y :=
  writes_show_page ⟨by decide, by decide, by decide, by decide, by decide⟩ _ _ _ false
    [['a', '\x1b', '[', '2']] [';', '1', 'H', 'b'] (by decide) (by decide)

end Scalux.Fbterm
