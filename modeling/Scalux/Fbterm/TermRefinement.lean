import Scalux.Fbterm.Term

/-! # One terminal over two backends

`term.c` calls its backend and looks at its cursor, and at nothing else of it.  So two terminals in one state, over
backends that follow each other, stay so whatever they are given: the terminal over `gterm.c` does to the
framebuffer what the terminal over the page does to the page.

* **`Backend.Follows`**: what is asked of the backends.  **`vbe_follows_page`**: these two are such.
* **`Term.Related`**: terminals that differ in the backend only, and **`Term.Related.write`**. -/

namespace Scalux.Fbterm

variable {β γ : Type*} {B : Backend β} {C : Backend γ} {R : β → γ → Prop} {S : Setup}

/-- A backend does what another one does. -/
structure Backend.Follows (B : Backend β) (C : Backend γ) (R : β → γ → Prop) : Prop where
  context : ∀ b c, R b c → B.context b = C.context c
  apply : ∀ o b c, R b c → R (B.apply o b) (C.apply o c)
  run : ∀ o b c, R b c → Scalux.Follows R (B.run o b) (C.run o c)

/-- The functions of `gterm.c` do what is done to the page. -/
theorem vbe_follows_page (hS : S.WellFormed) (fb₀ : ℕ → UInt32) : S.vbe.Follows S.page (Refines S fb₀) where
  context _ _ h := h.context
  apply o _ _ h := h.onContext (o.apply S)
  run _ _ _ h _ hstep := step_refines hS h hstep

namespace Term

/-- Terminals in one state, with related backends. -/
structure Related (R : β → γ → Prop) (t : Term β) (u : Term γ) : Prop where
  state : t.toTermState = u.toTermState
  backend : R t.backend u.backend

namespace Related

variable {t : Term β} {u : Term γ} {c : Char} {o : ContextOp} {n x y : ℕ}

/-- Related terminals have one context: what `term.c` keeps between the bytes. -/
theorem context (h : Related R t u) : t.context = u.context := congrArg TermState.context h.state

/-- Related terminals have the same `term_runtime`. -/
theorem runtime (h : Related R t u) : t.runtime = u.runtime := congrArg TermState.runtime h.state

/-- Related terminals have the same `autoflush`. -/
theorem autoflush (h : Related R t u) : t.autoflush = u.autoflush := congrArg TermState.autoflush h.state

/-- Related terminals both have a callback, or neither has. -/
theorem callback (h : Related R t u) : t.callback = u.callback := congrArg TermState.callback h.state

/-- Related terminals have called back with the same values. -/
theorem calls (h : Related R t u) : t.calls = u.calls := congrArg TermState.calls h.state

/-! ## The backend -/

/-- A choice on both sides: `if p then t else t'` is related to `if p then u else u'`. -/
theorem ite {p : Prop} [Decidable p] {t' : Term β} {u' : Term γ} (h : Related R t u) (h' : Related R t' u') :
    Related R (if p then t else t') (if p then u else u') := by
  split
  · exact h
  · exact h'

/-- One change of the context, on both sides. -/
theorem set (h : Related R t u) (f : TermContext → TermContext) : Related R (t.set f) (u.set f) where
  state := congrArg (fun s : TermState => { s with context := f s.context }) h.state
  backend := h.backend

/-- A call of the callback, on both sides. -/
theorem call (h : Related R t u) (cb : Callback) : Related R (t.call cb) (u.call cb) := by
  have hcalled : Related R { t with calls := cb :: t.calls } { u with calls := cb :: u.calls } :=
    ⟨congrArg (fun s : TermState => { s with calls := cb :: s.calls }) h.state, h.backend⟩
  unfold Term.call
  by_cases hcallback : u.callback
  · rwa [if_pos hcallback, if_pos (h.callback.trans hcallback)]
  · rwa [if_neg hcallback, if_neg (h.callback ▸ hcallback)]

/-- The column of the cursor is that of the other backend. -/
theorem cursorX (hB : B.Follows C R) (h : Related R t u) : t.cursorX B = u.cursorX C :=
  congrArg GtermContext.cursorX (hB.context _ _ h.backend)

/-- The row of the cursor is that of the other backend. -/
theorem cursorY (hB : B.Follows C R) (h : Related R t u) : t.cursorY B = u.cursorY C :=
  congrArg GtermContext.cursorY (hB.context _ _ h.backend)

/-- A function of the backend that always returns, on both sides. -/
theorem apply (hB : B.Follows C R) (h : Related R t u) (o : ContextOp) : Related R (t.apply B o) (u.apply C o) :=
  ⟨h.state, hB.apply o _ _ h.backend⟩

/-- `set_cursor_pos`, on both sides. -/
theorem setCursorPos (hB : B.Follows C R) (h : Related R t u) (x y : ℕ) :
    Related R (t.setCursorPos B x y) (u.setCursorPos C x y) :=
  h.apply hB _

/-- A function of the backend that may stop: if the second terminal goes on, so does the first. -/
theorem run (hB : B.Follows C R) (h : Related R t u) (o : Op) :
    Follows (Related R) (t.run B o) (u.run C o) :=
  (hB.run o _ _ h.backend).map fun _ _ hR => ⟨h.state, hR⟩

/-- `raw_putchar`, on both sides. -/
theorem rawPutchar (hB : B.Follows C R) (h : Related R t u) (c : Char) :
    Follows (Related R) (t.rawPutchar B c) (u.rawPutchar C c) := by
  unfold Term.rawPutchar
  rw [h.context]
  exact h.run hB _

/-- A colour of the palette, or `none` on both sides for a number beyond it. -/
theorem setColour (hB : B.Follows C R) (h : Related R t u) (o : ℕ → ContextOp) (n : ℕ) :
    Follows (Related R) (t.setColour B o n) (u.setColour C o n) :=
  .ite (.some (h.apply hB _)) .none

/-- `term_reinit`, which does not look at the backend. -/
theorem reinit (h : Related R t u) : Related R (t.reinit S) (u.reinit S) where
  state := congrArg (fun s : TermState => { s with autoflush := true }) (h.set _).state
  backend := h.backend

/-! ## Colours and modes -/

/-- `set_text_fg` or the bright colour, as the bold flag of the one context says. -/
theorem setFg (hB : B.Follows C R) (h : Related R t u) (n : ℕ) :
    Follows (Related R) (t.setFg B n) (u.setFg C n) := by
  unfold Term.setFg
  rw [h.context]
  exact .ite (h.setColour hB _ n) (h.setColour hB _ n)

/-- `set_text_bg` or the bright colour, as the flag of the one context says. -/
theorem setBg (hB : B.Follows C R) (h : Related R t u) (n : ℕ) :
    Follows (Related R) (t.setBg B n) (u.setBg C n) := by
  unfold Term.setBg
  rw [h.context]
  exact .ite (h.setColour hB _ n) (h.setColour hB _ n)

/-- The palette is swapped on both sides, or on neither. -/
theorem swapIfReverse (hB : B.Follows C R) (h : Related R t u) :
    Related R (t.swapIfReverse B) (u.swapIfReverse C) := by
  unfold Term.swapIfReverse
  rw [h.context]
  exact (h.apply hB _).ite h

/-- The reverse flag, with the palette swapped where it changes. -/
theorem setReverse (hB : B.Follows C R) (h : Related R t u) (r : Bool) :
    Related R (t.setReverse B r) (u.setReverse C r) := by
  unfold Term.setReverse
  rw [h.context]
  exact h.ite ((h.set _).apply hB _)

/-- The current colour once more: on both sides it is the default one, or one of the palette. -/
theorem repaint (hB : B.Follows C R) (h : Related R t u) (fg bg : ℕ → ContextOp) :
    Follows (Related R) (t.repaint B fg bg) (u.repaint C fg bg) := by
  unfold Term.repaint
  rw [h.context]
  split
  · exact .some h
  · exact h.setColour hB _ _

/-- `def` in `term_sgr`: the colours and flags that are the default. -/
theorem sgrDefault (hB : B.Follows C R) (h : Related R t u) : Related R (t.sgrDefault B) (u.sgrDefault C) :=
  (((h.setReverse hB _).set _).apply hB _).apply hB _

/-- **A parameter of `term_sgr`**. -/
theorem sgrStep (hB : B.Follows C R) (h : Related R t u) (v : ℕ) :
    Follows (Related R) (t.sgrStep B v) (u.sgrStep C v) := by
  unfold Term.sgrStep
  simp only [set_context, h.context]
  refine .ite (.some (h.sgrDefault hB)) (.ite ((h.set _).repaint hB _ _) (.ite ((h.set _).repaint hB _ _)
    (.ite ?_ (.ite ?_ (.ite ((h.set _).setColour hB _ _) (.ite (h.setColour hB _ _) (.ite ?_ (.ite ?_
      (.ite (.some (h.setReverse hB _)) (.ite (.some (h.setReverse hB _)) (.some h)))))))))))
  · exact .ite ((h.set _).setBg hB _) ((h.set _).setFg hB _)
  · exact .ite (h.setFg hB _) (h.setBg hB _)
  · exact .some ((((h.set _).swapIfReverse hB).apply hB _).swapIfReverse hB)
  · exact .some (((h.swapIfReverse hB).apply hB _).swapIfReverse hB)

/-- **`term_sgr`**: one parameter after the other, or the default for none. -/
theorem sgr (hB : B.Follows C R) (h : Related R t u) : Follows (Related R) (t.sgr B) (u.sgr C) := by
  unfold Term.sgr Term.values
  rw [h.context]
  exact .ite (.some (h.sgrDefault hB))
    (.ite (.foldlM (fun v _ _ h => h.sgrStep hB v.toNat) _ h) .none)

/-- `term_dec_private_parse`: the cursor is shown or hidden, or the callback is called. -/
theorem decPrivateParse (hB : B.Follows C R) (h : Related R t u) (c : Char) :
    Related R (t.decPrivateParse B c) (u.decPrivateParse C c) := by
  unfold Term.decPrivateParse Term.values
  simp only [set_context, h.context]
  exact (h.set _).ite (((((h.set _).apply hB _).ite ((h.set _).call _))).ite (h.set _))

/-- `term_linux_private_parse`, which calls back only. -/
theorem linuxPrivateParse (h : Related R t u) : Related R t.linuxPrivateParse u.linuxPrivateParse := by
  unfold Term.linuxPrivateParse Term.values
  rw [h.context]
  exact h.ite (h.call _)

/-- `term_mode_toggle`: the insert mode, or a call of the callback. -/
theorem modeToggle (h : Related R t u) (c : Char) : Related R (t.modeToggle c) (u.modeToggle c) := by
  unfold Term.modeToggle Term.values
  rw [h.context]
  exact h.ite (((h.set _).ite (h.call _)).ite h)

/-! ## Control sequences -/

/-- `n` blanks one after another, on both sides. -/
theorem blanks (hB : B.Follows C R) (h : Related R t u) (n : ℕ) :
    Follows (Related R) (t.blanks B n) (u.blanks C n) :=
  .times (fun _ _ h => h.rawPutchar hB _) n h

/-- The case `A`: up as far as the margin. -/
theorem cursorUp (hB : B.Follows C R) (h : Related R t u) (n x y : ℕ) :
    Related R (t.cursorUp B n x y) (u.cursorUp C n x y) := by
  unfold Term.cursorUp
  rw [h.context]
  exact h.apply hB _

/-- The case `B`: down as far as the margin. -/
theorem cursorDown (hB : B.Follows C R) (h : Related R t u) (n x y : ℕ) :
    Related R (t.cursorDown B S n x y) (u.cursorDown C S n x y) := by
  unfold Term.cursorDown
  rw [h.context]
  exact h.apply hB _

/-- The case `n`: the position of the cursor for the callback. -/
theorem report (h : Related R t u) (n x y : ℕ) : Related R (t.report n x y) (u.report n x y) :=
  (h.call _).ite ((h.call _).ite h)

/-- Blanks to the end of a list of positions, and the cursor back. -/
theorem eraseTo (hB : B.Follows C R) (h : Related R t u) (x y : ℕ) (ps : List (ℕ × ℕ)) :
    Follows (Related R) (t.eraseTo B x y ps) (u.eraseTo C x y ps) := by
  induction ps generalizing t u with
  | nil => exact .some h
  | cons p ps ih => exact (h.rawPutchar hB _).bind fun _ _ h => .ite (.some (h.setCursorPos hB _ _)) (ih h)

/-- The case `J`. -/
theorem erasePage (hB : B.Follows C R) (h : Related R t u) (n x y : ℕ) :
    Follows (Related R) (t.erasePage B S n x y) (u.erasePage C S n x y) :=
  .ite ((h.blanks hB _).map fun _ _ h => h.setCursorPos hB _ _)
    (.ite ((h.setCursorPos hB _ _).eraseTo hB _ _ _) (.ite (h.run hB _) (.some h)))

/-- The case `K`. -/
theorem eraseLine (hB : B.Follows C R) (h : Related R t u) (n x y : ℕ) :
    Follows (Related R) (t.eraseLine B S n x y) (u.eraseLine C S n x y) :=
  .ite ((h.blanks hB _).map fun _ _ h => h.setCursorPos hB _ _)
    (.ite ((h.setCursorPos hB _ _).blanks hB _)
      (.ite (((h.setCursorPos hB _ _).blanks hB _).map fun _ _ h => h.setCursorPos hB _ _) (.some h)))

/-- The case `X`. -/
theorem eraseChars (hB : B.Follows C R) (h : Related R t u) (n x y : ℕ) :
    Follows (Related R) (t.eraseChars B n x y) (u.eraseChars C n x y) :=
  (h.blanks hB _).map fun _ _ h => h.setCursorPos hB _ _

/-- The case `@`: the row is moved from its end, by one loop over two backends. -/
theorem insertChars (hB : B.Follows C R) (h : Related R t u) (n x y : ℕ) :
    Follows (Related R) (t.insertChars B S n x y) (u.insertChars C S n x y) :=
  (Follows.loopDown (fun _ _ _ h => (h.run hB _).bind fun _ _ h => (h.setCursorPos hB _ _).rawPutchar hB _)
    _ _ _ h).map fun _ _ h => h.setCursorPos hB _ _

/-- The case `P`: the row is moved from its beginning. -/
theorem deleteChars (hB : B.Follows C R) (h : Related R t u) (n x y : ℕ) :
    Follows (Related R) (t.deleteChars B S n x y) (u.deleteChars C S n x y) :=
  (Follows.foldlM (fun _ _ _ h => h.run hB _) _ h).bind fun _ _ h => (h.setCursorPos hB _ _).eraseChars hB n x y

/-- The case `r`: the margins are those of one context. -/
theorem setMargins (hB : B.Follows C R) (h : Related R t u) :
    Related R (t.setMargins B S) (u.setMargins C S) := by
  unfold Term.setMargins Term.margins
  rw [h.context]
  exact (h.set _).setCursorPos hB _ _

/-- **The `switch` of the control sequences**. -/
theorem command (hB : B.Follows C R) (h : Related R t u) (c : Char) (x y : ℕ) :
    Follows (Related R) (t.command B S c x y) (u.command C S c x y) := by
  unfold Term.command
  rw [h.context]
  -- in the order of the cases of `term_control_sequence_parse`; the last one is an unknown final character
  split
  · exact .some (h.cursorUp hB _ _ _)
  · exact .some (h.cursorUp hB _ _ _)
  · exact .some (h.cursorDown hB _ _ _)
  · exact .some (h.cursorDown hB _ _ _)
  · exact .some (h.cursorDown hB _ _ _)
  · exact .some (h.apply hB _)
  · exact .some (h.apply hB _)
  · exact .some (h.apply hB _)
  · exact .some (h.call _)
  · exact .some (h.apply hB _)
  · exact .some (h.apply hB _)
  · exact .some (h.apply hB _)
  · exact .some (h.apply hB _)
  · exact .some (h.apply hB _)
  · exact .some (h.report _ _ _)
  · exact .some (h.call _)
  · exact h.erasePage hB _ _ _
  · exact h.insertChars hB _ _ _
  · exact h.deleteChars hB _ _ _
  · exact h.eraseChars hB _ _ _
  · exact h.sgr hB
  · exact .some (h.set _)
  · exact .some (h.apply hB _)
  · exact h.eraseLine hB _ _ _
  · exact .some (h.setMargins hB)
  · exact .some (h.modeToggle _)
  · exact .some (h.modeToggle _)
  · exact .some h.linuxPrivateParse
  · exact .some h

/-- **The last character of a sequence**, by the cases of `term_control_sequence_parse`. -/
theorem carryOut (hB : B.Follows C R) (h : Related R t u) (c : Char) :
    Follows (Related R) (t.carryOut B S c) (u.carryOut C S c) := by
  have hfill : Related R (t.fill c) (u.fill c) := h.set _
  unfold Term.carryOut
  simp only [hfill.cursorX hB, hfill.cursorY hB, hB.context _ _ hfill.backend, hfill.context]
  exact .ite (.some ((hfill.decPrivateParse hB c).set _))
    (((hfill.apply hB _).command hB _ _ _).map fun _ _ h => ((h.apply hB _).ite h).set _)

/-- A digit of a number; `none` on both sides beyond the last place for a number. -/
theorem digit (h : Related R t u) (c : Char) : Follows (Related R) (t.digit c) (u.digit c) := by
  unfold Term.digit
  rw [h.context]
  exact .ite (.some h) (.ite (.some (h.set _)) .none)

/-- A number that is left out. -/
theorem emptyValue (h : Related R t u) : Follows (Related R) t.emptyValue u.emptyValue := by
  unfold Term.emptyValue
  rw [h.context]
  exact .ite (.some h) (.ite (.some (h.set _)) .none)

/-- **`term_control_sequence_parse`**. -/
theorem controlSequenceParse (hB : B.Follows C R) (h : Related R t u) (c : Char) :
    Follows (Related R) (t.controlSequenceParse B S c) (u.controlSequenceParse C S c) := by
  unfold Term.controlSequenceParse
  rw [h.context]
  exact .ite (.some ((h.set _).set _)) (.ite (.some (h.set _)) (.ite (h.digit c)
    (.ite (.ite (.some (h.set _)) ((h.set _).carryOut hB c)) (.ite h.emptyValue (h.carryOut hB c)))))

/-! ## Escape sequences and characters -/

/-- A line feed: the region is scrolled on both sides, or the cursor goes down. -/
theorem lineFeed (hB : B.Follows C R) (h : Related R t u) (x : ℕ) :
    Follows (Related R) (t.lineFeed B x) (u.lineFeed C x) := by
  unfold Term.lineFeed Term.scroll
  rw [h.context, h.cursorY hB]
  exact .ite ((h.run hB _).map fun _ _ h => h.setCursorPos hB _ _) (.some (h.setCursorPos hB _ _))

/-- `ESC M`: the region is scrolled down on both sides, or the cursor goes up. -/
theorem reverseLineFeed (hB : B.Follows C R) (h : Related R t u) :
    Follows (Related R) (t.reverseLineFeed B) (u.reverseLineFeed C) := by
  unfold Term.reverseLineFeed Term.revscroll
  rw [h.context, h.cursorY hB]
  exact .ite ((h.run hB _).map fun _ _ h => h.setCursorPos hB _ _) (.some (h.setCursorPos hB _ _))

/-- **The `switch` of the escape sequences**. -/
theorem escapeCommand (hB : B.Follows C R) (h : Related R t u) (c : Char) :
    Follows (Related R) (t.escapeCommand B S c) (u.escapeCommand C S c) := by
  unfold Term.escapeCommand
  split
  · exact .some ((h.apply hB _).set _)
  · exact .some ((h.set _).apply hB _)
  · exact h.reinit.run hB _
  · rw [h.cursorX hB]
    exact h.lineFeed hB _
  · exact h.lineFeed hB _
  · exact h.reverseLineFeed hB
  · exact .some (h.call _)
  · exact .some (h.set _)
  · exact .some (h.set _)
  · rw [h.runtime]
    exact .ite (.some h) (h.rawPutchar hB _)
  · exact .some h

/-- **`term_escape_parse`**. -/
theorem escapeParse (hB : B.Follows C R) (h : Related R t u) (c : Char) :
    Follows (Related R) (t.escapeParse B S c) (u.escapeParse C S c) := by
  have hset := h.set fun k => { k with escapeOffset := add64 k.escapeOffset 1 }
  unfold Term.escapeParse
  simp only [set_context, h.context]
  exact .ite (hset.controlSequenceParse hB c) (.ite (.some ((hset.set _).set _))
    (.ite (.some (hset.set _)) ((hset.escapeCommand hB c).map fun _ _ h => h.set _)))

/-- The character after `ESC (` or `ESC )`. -/
theorem selectCharset (h : Related R t u) (c : Char) :
    Follows (Related R) (t.selectCharset c) (u.selectCharset c) := by
  unfold Term.selectCharset
  rw [h.context]
  refine .ite ?_ .none
  split
  · exact .some ((h.set _).set _)
  · exact .some ((h.set _).set _)
  · exact .some (h.set _)

/-- A tabulator, to a column that the one cursor has decided. -/
theorem tab (hB : B.Follows C R) (h : Related R t u) : Related R (t.tab B S) (u.tab C S) := by
  unfold Term.tab
  rw [h.cursorX hB, h.cursorY hB]
  exact (h.setCursorPos hB _ _).ite (h.setCursorPos hB _ _)

/-- A printed character; in insert mode the row is moved before. -/
theorem print (hB : B.Follows C R) (h : Related R t u) (c : Char) :
    Follows (Related R) (t.print B S c) (u.print C S c) := by
  unfold Term.print
  rw [h.context, h.cursorX hB, h.cursorY hB]
  refine (Follows.ite (.loopDown (fun _ _ _ h => h.run hB _) _ _ _ h) (.some h)).bind fun t u h => ?_
  rw [h.context]
  refine .ite ?_ .none
  split
  · exact h.rawPutchar hB _
  · exact h.rawPutchar hB _

/-- **The `switch` of `term_putchar`**. -/
theorem character (hB : B.Follows C R) (h : Related R t u) (c : Char) :
    Follows (Related R) (t.character B S c) (u.character C S c) := by
  unfold Term.character
  split
  · exact .some h
  · exact .some h
  · exact .some (h.set _)
  · exact .some (h.set _)
  · exact .some (h.tab hB)
  · exact h.lineFeed hB _
  · exact h.lineFeed hB _
  · exact h.lineFeed hB _
  · rw [h.cursorX hB, h.cursorY hB]
    exact .some (h.setCursorPos hB _ _)
  · rw [h.cursorY hB]
    exact .some (h.setCursorPos hB _ _)
  · exact .some (h.call _)
  · exact .some (h.set _)
  · exact .some (h.set _)
  · exact h.print hB _

/-- **`term_putchar`**. -/
theorem putchar (hB : B.Follows C R) (h : Related R t u) (c : Char) :
    Follows (Related R) (t.putchar B S c) (u.putchar C S c) := by
  unfold Term.putchar
  simp only [h.context, h.runtime]
  exact .ite (.some (h.set _)) (.ite (h.escapeParse hB c) (.ite (h.selectCharset c) (h.character hB c)))

/-- **Strings**: a character after the other. -/
theorem putchars (hB : B.Follows C R) (h : Related R t u) (s : List Char) :
    Follows (Related R) (t.putchars B S s) (u.putchars C S s) :=
  .foldlM (fun c _ _ h => h.putchar hB c) s h

/-- **`term_write`**: over two backends that follow each other, the terminals do as well. -/
theorem write (hB : B.Follows C R) (h : Related R t u) (s : List Char) :
    Follows (Related R) (t.write B S s) (u.write C S s) := by
  refine (h.putchars hB s).bind fun t u h => ?_
  rw [h.autoflush]
  exact .ite (h.run hB _) (.some h)

end Related

end Term

end Scalux.Fbterm
