import Scalux.Fbterm.Screen
import Scalux.Lib.Partial

/-! # The escape sequences of the framebuffer terminal

`dev/fbterm/term.c`: `term_putchar` is given the bytes of a stream one by one.  It prints them, or does what a
control character, an escape sequence or a control sequence with parameters says.  What it does to the screen it
has done by its backend, which is `gterm.c`, or the page that this stands for.

* The terminal has been made ready by `term_vbe`.
* An access outside of `esc_values`, `charsets` or the colours returns `none`, and so does a loop that goes
  round more often than there are columns.
* A control sequence changes its parameters while it is carried out; they are set to zero before the next one
  reads them, and the change is not kept.
* What the callback is given is kept in a list, if there is a callback. -/

namespace Scalux.Fbterm

/-- `TERM_TABSIZE`. -/
def tabSize : ℕ := 8

/-- `MAX_ESC_VALUES`. -/
def maxEscValues : ℕ := 16

/-- `CHARSET_DEFAULT` and `CHARSET_DEC_SPECIAL`. -/
inductive Charset
  | default
  | decSpecial
  deriving DecidableEq

/-- A call of the callback, by its second argument, with what follows it. -/
inductive Callback
  | dec (values : List UInt32) (c : Char)
  | bell
  | privateId
  | statusReport
  | posReport (x y : ℕ)
  | kbdLeds (value : ℕ)
  | mode (values : List UInt32) (c : Char)
  | linux (values : List UInt32)
  deriving DecidableEq

/-- `struct term_context`.  The colour `(size_t)(-1)` is `none`. -/
structure TermContext where
  controlSequence : Bool
  csi : Bool
  escape : Bool
  rrr : Bool
  discardNext : Bool
  bold : Bool
  reverseVideo : Bool
  decPrivate : Bool
  insertMode : Bool
  gSelect : ℕ
  charsets : ℕ → Charset
  currentCharset : ℕ
  escapeOffset : ℕ
  escValuesI : ℕ
  savedCursorX : ℕ
  savedCursorY : ℕ
  currentPrimary : Option ℕ
  scrollTopMargin : ℕ
  scrollBottomMargin : ℕ
  escValues : ℕ → UInt32
  savedStateBold : Bool
  savedStateReverseVideo : Bool
  savedStateCurrentCharset : ℕ
  savedStateCurrentPrimary : Option ℕ

/-- `struct term_t` up to its backend: `callback` says whether there is a callback, and `calls` are its calls, the
last one first. -/
structure TermState where
  context : TermContext
  runtime : Bool
  autoflush : Bool
  callback : Bool
  calls : List Callback

/-- A terminal with its backend. -/
structure Term (β : Type*) extends TermState where
  backend : β

/-- What can be the backend: something with a cursor, and what the functions that are called do to it. -/
structure Backend (β : Type*) where
  context : β → GtermContext
  apply : ContextOp → β → β
  run : Op → β → Option β

/-- A `struct term_context` whose memory has been set to zero. -/
def TermContext.zero : TermContext where
  controlSequence := false
  csi := false
  escape := false
  rrr := false
  discardNext := false
  bold := false
  reverseVideo := false
  decPrivate := false
  insertMode := false
  gSelect := 0
  charsets _ := .default
  currentCharset := 0
  escapeOffset := 0
  escValuesI := 0
  savedCursorX := 0
  savedCursorY := 0
  currentPrimary := some 0
  scrollTopMargin := 0
  scrollBottomMargin := 0
  escValues _ := 0
  savedStateBold := false
  savedStateReverseVideo := false
  savedStateCurrentCharset := 0
  savedStateCurrentPrimary := some 0

namespace Setup

/-- The functions of `gterm.c`, for a terminal of type `VBE`. -/
def vbe (S : Setup) : Backend Gterm where
  context g := g.context
  apply o g := g.onContext (o.apply S)
  run o g := o.run S g

/-- The screen itself. -/
def page (S : Setup) : Backend Screen where
  context s := s.context
  apply o s := s.apply S (.context o)
  run o s := s.step S o

end Setup

/-- `term_dec_special_to_cp437`. -/
def decSpecialToCp437 : Char → Char
  | '\x60' => '\x04'
  | '0' => '\xDB'
  | '-' => '\x18'
  | ',' => '\x1B'
  | '.' => '\x19'
  | 'a' => '\xB1'
  | 'f' => '\xF8'
  | 'g' => '\xF1'
  | 'h' => '\xB0'
  | 'j' => '\xD9'
  | 'k' => '\xBF'
  | 'l' => '\xDA'
  | 'm' => '\xC0'
  | 'n' => '\xC5'
  | 'q' => '\xC4'
  | 's' => '\x5F'
  | 't' => '\xC3'
  | 'u' => '\xB4'
  | 'v' => '\xC1'
  | 'w' => '\xC2'
  | 'x' => '\xB3'
  | 'y' => '\xF3'
  | 'z' => '\xF2'
  | '~' => '\xFA'
  | '_' => '\xFF'
  | '+' => '\x1A'
  | '\x7b' => '\xE3'
  | '\x7d' => '\x9C'
  | c => c

namespace Term

variable {β : Type*} (B : Backend β) (S : Setup)

/-! ## The backend -/

/-- An assignment to the fields of the context. -/
def set (f : TermContext → TermContext) (t : Term β) : Term β := { t with context := f t.context }

/-- A function of the backend. -/
def run (o : Op) (t : Term β) : Option (Term β) := (B.run o t.backend).map fun b => { t with backend := b }

/-- A function of the backend that changes the cursor or the colours only. -/
def apply (o : ContextOp) (t : Term β) : Term β := { t with backend := B.apply o t.backend }

/-- The context after a change of it. -/
@[simp] theorem set_context (f : TermContext → TermContext) (t : Term β) : (t.set f).context = f t.context := rfl

variable {B} in
/-- An operation of the backend leaves the context. -/
@[simp] theorem apply_context (o : ContextOp) (t : Term β) : (t.apply B o).context = t.context := rfl

/-- A call of the callback, if there is one. -/
def call (cb : Callback) (t : Term β) : Term β := if t.callback then { t with calls := cb :: t.calls } else t

/-- `term_raw_putchar`. -/
def rawPutchar (c : Char) (t : Term β) : Option (Term β) :=
  t.run B (.putchar t.context.scrollTopMargin t.context.scrollBottomMargin c.toNat)

/-- `term_scroll`. -/
def scroll (t : Term β) : Option (Term β) :=
  t.run B (.scroll t.context.scrollTopMargin t.context.scrollBottomMargin)

/-- `term_revscroll`. -/
def revscroll (t : Term β) : Option (Term β) :=
  t.run B (.revscroll t.context.scrollTopMargin t.context.scrollBottomMargin)

/-- `term_clear`. -/
def clear (move : Bool) (t : Term β) : Option (Term β) := t.run B (.clear move)

/-- `term_move_character`. -/
def moveCharacter (newX newY oldX oldY : ℕ) (t : Term β) : Option (Term β) :=
  t.run B (.moveCharacter newX newY oldX oldY)

/-- `term_set_cursor_pos`. -/
def setCursorPos (x y : ℕ) (t : Term β) : Term β := t.apply B (.setCursorPos x y)

/-- `term_swap_palette`. -/
def swapPalette (t : Term β) : Term β := t.apply B .swapPalette

/-- `term_double_buffer_flush`. -/
def doubleBufferFlush (t : Term β) : Option (Term β) := t.run B .flush

/-- `*x` of `term_get_cursor_pos`. -/
def cursorX (t : Term β) : ℕ := (B.context t.backend).cursorX

/-- `*y` of `term_get_cursor_pos`. -/
def cursorY (t : Term β) : ℕ := (B.context t.backend).cursorY

/-- `term_set_text_fg`, `term_set_text_bg` and their bright counterparts, with an index into the colours. -/
def setColour (o : ℕ → ContextOp) (n : ℕ) (t : Term β) : Option (Term β) :=
  if n < 8 then some (t.apply B (o n)) else none

/-- `term_save_state`. -/
def saveState (t : Term β) : Term β :=
  (t.apply B .saveState).set fun k =>
    { k with
      savedStateBold := k.bold
      savedStateReverseVideo := k.reverseVideo
      savedStateCurrentCharset := k.currentCharset
      savedStateCurrentPrimary := k.currentPrimary }

/-- `term_restore_state`. -/
def restoreState (t : Term β) : Term β :=
  (t.set fun k =>
    { k with
      bold := k.savedStateBold
      reverseVideo := k.savedStateReverseVideo
      currentCharset := k.savedStateCurrentCharset
      currentPrimary := k.savedStateCurrentPrimary }).apply B .restoreState

/-- `term_reinit`. -/
def reinit (t : Term β) : Term β :=
  let t := t.set fun k =>
    { k with
      escapeOffset := 0
      controlSequence := false
      csi := false
      escape := false
      rrr := false
      discardNext := false
      bold := false
      reverseVideo := false
      decPrivate := false
      escValuesI := 0
      savedCursorX := 0
      savedCursorY := 0
      currentPrimary := none
      insertMode := false
      scrollTopMargin := 0
      scrollBottomMargin := S.rows
      currentCharset := 0
      gSelect := 0
      charsets := fun i => if i = 0 then .default else .decSpecial }
  { t with autoflush := true }

/-- A terminal after `term_init` and `term_vbe`, with a backend that has been set up. -/
def initial (callback : Bool) (b : β) : Term β :=
  Term.reinit S ⟨⟨.zero, false, false, callback, []⟩, b⟩

/-! ## Colours -/

/-- The label `set_fg` of `term_sgr`. -/
def setFg (n : ℕ) (t : Term β) : Option (Term β) :=
  if t.context.bold && !t.context.reverseVideo then t.setColour B .setTextFgBright n
  else t.setColour B .setTextFg n

/-- The label `set_bg` of `term_sgr`. -/
def setBg (n : ℕ) (t : Term β) : Option (Term β) :=
  if t.context.bold && t.context.reverseVideo then t.setColour B .setTextBgBright n
  else t.setColour B .setTextBg n

/-- `term_swap_palette`, in reverse video. -/
def swapIfReverse (t : Term β) : Term β := if t.context.reverseVideo then t.swapPalette B else t

/-- `reverse_video` is set, and the palette is swapped if it has not been set so before. -/
def setReverse (r : Bool) (t : Term β) : Term β :=
  if t.context.reverseVideo = r then t else (t.set fun k => { k with reverseVideo := r }).swapPalette B

/-- The label `def` of `term_sgr`. -/
def sgrDefault (t : Term β) : Term β :=
  (((t.setReverse B false).set fun k => { k with bold := false, currentPrimary := none }).apply B
    .setTextBgDefault).apply B .setTextFgDefault

/-- The colour of the text anew, when `bold` has changed. -/
def repaint (fg bg : ℕ → ContextOp) (t : Term β) : Option (Term β) :=
  match t.context.currentPrimary with
  | none => some t
  | some p => t.setColour B (if t.context.reverseVideo then bg else fg) p

/-- The body of the loop of `term_sgr`, for a parameter. -/
def sgrStep (t : Term β) (v : ℕ) : Option (Term β) :=
  if v = 0 then some (t.sgrDefault B)
  else if v = 1 then (t.set fun k => { k with bold := true }).repaint B .setTextFgBright .setTextBgBright
  else if v = 22 then (t.set fun k => { k with bold := false }).repaint B .setTextFg .setTextBg
  -- the colour of the text, and with reverse video that of the background
  else if 30 ≤ v ∧ v ≤ 37 then
    let t := t.set fun k => { k with currentPrimary := some (v - 30) }
    if t.context.reverseVideo then t.setBg B (v - 30) else t.setFg B (v - 30)
  else if 40 ≤ v ∧ v ≤ 47 then
    if t.context.reverseVideo then t.setFg B (v - 40) else t.setBg B (v - 40)
  -- the same in bright colours
  else if 90 ≤ v ∧ v ≤ 97 then
    let t := t.set fun k => { k with currentPrimary := some (v - 90) }
    t.setColour B (if t.context.reverseVideo then .setTextBgBright else .setTextFgBright) (v - 90)
  else if 100 ≤ v ∧ v ≤ 107 then
    t.setColour B (if t.context.reverseVideo then .setTextFgBright else .setTextBgBright) (v - 100)
  -- the defaults
  else if v = 39 then
    some ((((t.set fun k => { k with currentPrimary := none }).swapIfReverse B).apply B
      .setTextFgDefault).swapIfReverse B)
  else if v = 49 then some (((t.swapIfReverse B).apply B .setTextBgDefault).swapIfReverse B)
  -- reverse video
  else if v = 7 then some (t.setReverse B true)
  else if v = 27 then some (t.setReverse B false)
  else some t

/-- The parameters of the sequence that have been given. -/
def values (t : Term β) : List UInt32 := (List.range t.context.escValuesI).map t.context.escValues

/-- `term_sgr`. -/
def sgr (t : Term β) : Option (Term β) :=
  if t.context.escValuesI = 0 then some (t.sgrDefault B)
  else if t.context.escValuesI ≤ maxEscValues then t.values.foldlM (fun t v => t.sgrStep B v.toNat) t
  else none

/-! ## Modes -/

/-- `term_dec_private_parse`. -/
def decPrivateParse (c : Char) (t : Term β) : Term β :=
  let t := t.set fun k => { k with decPrivate := false }
  if t.context.escValuesI = 0 then t
  else if c = 'h' ∨ c = 'l' then
    if t.context.escValues 0 = 25 then t.apply B (if c = 'h' then .enableCursor else .disableCursor)
    else t.call (.dec t.values c)
  else t

/-- `term_linux_private_parse`. -/
def linuxPrivateParse (t : Term β) : Term β := if t.context.escValuesI = 0 then t else t.call (.linux t.values)

/-- `term_mode_toggle`. -/
def modeToggle (c : Char) (t : Term β) : Term β :=
  if t.context.escValuesI = 0 then t
  else if c = 'h' ∨ c = 'l' then
    if t.context.escValues 0 = 4 then t.set fun k => { k with insertMode := c = 'h' }
    else t.call (.mode t.values c)
  else t

/-! ## Control sequences

The cases of the second `switch` of `term_control_sequence_parse`: `x` and `y` are the cursor, and `n` is the first
parameter. -/

/-- Blanks at the cursor. -/
def blanks (n : ℕ) (t : Term β) : Option (Term β) := times (rawPutchar B ' ') n t

/-- The cases `F` and `A`. -/
def cursorUp (n x y : ℕ) (t : Term β) : Term β :=
  let top := t.context.scrollTopMargin
  let bottom := t.context.scrollBottomMargin
  let dest := sub64 y (if y < n then y else n)
  let inRegion := dest ≤ top ∧ top ≤ y ∨ dest ≤ bottom ∧ bottom ≤ y
  t.setCursorPos B x (if inRegion ∧ dest < top then top else dest)

/-- The cases `E`, `e` and `B`. -/
def cursorDown (n x y : ℕ) (t : Term β) : Term β :=
  let top := t.context.scrollTopMargin
  let bottom := t.context.scrollBottomMargin
  let dest := add64 y (if decr64 S.rows < add64 y n then sub64 (decr64 S.rows) y % 2 ^ 32 else n)
  let inRegion := y ≤ top ∧ top ≤ dest ∨ y ≤ bottom ∧ bottom ≤ dest
  t.setCursorPos B x (if inRegion ∧ bottom ≤ dest then decr64 bottom else dest)

/-- The cases `a` and `C`. -/
def cursorRight (n x y : ℕ) (t : Term β) : Term β :=
  t.setCursorPos B (add64 x (if decr64 S.cols < add64 x n then sub64 (decr64 S.cols) x % 2 ^ 32 else n)) y

/-- The case `D`. -/
def cursorLeft (n x y : ℕ) (t : Term β) : Term β := t.setCursorPos B (sub64 x (if x < n then x else n)) y

/-- A parameter less one, or the last row or column. -/
def position (v : UInt32) (limit : ℕ) : ℕ := if limit ≤ (v - 1).toNat then decr64 limit % 2 ^ 32 else (v - 1).toNat

/-- The case `n`. -/
def report (n x y : ℕ) (t : Term β) : Term β :=
  if n = 5 then t.call .statusReport else if n = 6 then t.call (.posReport (add64 x 1) (add64 y 1)) else t

/-- The loops of the case `J` with the parameter 1, for positions in their order. -/
def eraseTo (x y : ℕ) : List (ℕ × ℕ) → Term β → Option (Term β)
  | [], t => some t
  | p :: ps, t => (t.rawPutchar B ' ').bind fun t =>
      if p.1 = x ∧ p.2 = y then some (t.setCursorPos B x y) else eraseTo x y ps t

/-- The columns and rows, row by row. -/
def positions : List (ℕ × ℕ) := (List.range S.rows).flatMap fun y => (List.range S.cols).map fun x => (x, y)

/-- The case `J`. -/
def erasePage (n x y : ℕ) (t : Term β) : Option (Term β) :=
  if n = 0 then
    (t.blanks B ((sub64 S.rows (add64 y 1) * S.cols + sub64 S.cols (add64 x 1)) % 2 ^ 64)).map (setCursorPos B x y)
  else if n = 1 then (t.setCursorPos B 0 0).eraseTo B x y (positions S)
  else if n = 2 ∨ n = 3 then t.clear B false
  else some t

/-- The case `K`. -/
def eraseLine (n x y : ℕ) (t : Term β) : Option (Term β) :=
  if n = 0 then (t.blanks B (S.cols - x)).map (setCursorPos B x y)
  else if n = 1 then (t.setCursorPos B 0 y).blanks B x
  else if n = 2 then ((t.setCursorPos B 0 y).blanks B S.cols).map (setCursorPos B x y)
  else some t

/-- The case `@`. -/
def insertChars (n x y : ℕ) (t : Term β) : Option (Term β) :=
  (loopDown decr64 (fun i t => (t.moveCharacter B (add64 i n) y i y).bind fun t =>
    (t.setCursorPos B i y).rawPutchar B ' ') x S.cols (decr64 S.cols) t).map (setCursorPos B x y)

/-- The case `X`. -/
def eraseChars (n x y : ℕ) (t : Term β) : Option (Term β) := (t.blanks B n).map (setCursorPos B x y)

/-- The case `P`. -/
def deleteChars (n x y : ℕ) (t : Term β) : Option (Term β) :=
  ((List.range' (add64 x n) (S.cols - add64 x n)).foldlM
    (fun (t : Term β) i => t.moveCharacter B (sub64 i n) y i y) t).bind fun t =>
      (t.setCursorPos B (sub64 S.cols n) y).eraseChars B n x y

/-- The margins in the case `r`, the top one first. -/
def margins (t : Term β) : ℕ × ℕ :=
  let top := if 0 < t.context.escValuesI then (t.context.escValues 0 - 1).toNat else 0
  let bottom := if 1 < t.context.escValuesI then (t.context.escValues 1).toNat else S.rows
  if S.rows ≤ top ∨ S.rows < bottom ∨ decr64 bottom ≤ top then (0, S.rows) else (top, bottom)

/-- The case `r`. -/
def setMargins (t : Term β) : Term β :=
  (t.set fun k =>
    { k with scrollTopMargin := (t.margins S).1, scrollBottomMargin := (t.margins S).2 }).setCursorPos B 0 0

/-- The `switch` itself. -/
def command (c : Char) (x y : ℕ) (t : Term β) : Option (Term β) :=
  let n := (t.context.escValues 0).toNat
  match c with
  | 'F' => some (t.cursorUp B n 0 y)
  | 'A' => some (t.cursorUp B n x y)
  | 'E' => some (t.cursorDown B S n 0 y)
  | 'e' | 'B' => some (t.cursorDown B S n x y)
  | 'a' | 'C' => some (t.cursorRight B S n x y)
  | 'D' => some (t.cursorLeft B n x y)
  | 'c' => some (t.call .privateId)
  | 'd' => some (t.setCursorPos B x (position (t.context.escValues 0) S.rows))
  | 'G' | '\x60' => some (t.setCursorPos B (position (t.context.escValues 0) S.cols) y)
  | 'H' | 'f' =>
      some (t.setCursorPos B (position (t.context.escValues 1) S.cols) (position (t.context.escValues 0) S.rows))
  | 'n' => some (t.report n x y)
  | 'q' => some (t.call (.kbdLeds n))
  | 'J' => t.erasePage B S n x y
  | '@' => t.insertChars B S n x y
  | 'P' => t.deleteChars B S n x y
  | 'X' => t.eraseChars B n x y
  | 'm' => t.sgr B
  | 's' => some (t.set fun k => { k with savedCursorX := x, savedCursorY := y })
  | 'u' => some (t.setCursorPos B t.context.savedCursorX t.context.savedCursorY)
  | 'K' => t.eraseLine B S n x y
  | 'r' => some (t.setMargins B S)
  | 'l' | 'h' => some (t.modeToggle c)
  | ']' => some t.linuxPrivateParse
  | _ => some t

/-- The label `cleanup` of `term_control_sequence_parse`. -/
def cleanup (t : Term β) : Term β := t.set fun k => { k with controlSequence := false, escape := false }

/-- `esc_default`. -/
def escDefault (c : Char) : UInt32 := if c = 'J' ∨ c = 'K' ∨ c = 'q' then 0 else 1

/-- The parameters that have not been given have the default. -/
def fill (c : Char) (t : Term β) : Term β :=
  t.set fun k => { k with escValues := fun i => if k.escValuesI ≤ i then escDefault c else k.escValues i }

/-- `term_control_sequence_parse`, from where the parameters are complete. -/
def carryOut (c : Char) (t : Term β) : Option (Term β) :=
  let t := t.fill c
  if t.context.decPrivate then some (t.decPrivateParse B c).cleanup
  else
    let r := (B.context t.backend).scrollEnabled
    ((t.apply B .scrollDisable).command B S c (t.cursorX B) (t.cursorY B)).map fun t =>
      (if r then t.apply B .scrollEnable else t).cleanup

/-- A digit of a parameter. -/
def digit (c : Char) (t : Term β) : Option (Term β) :=
  let i := t.context.escValuesI
  if i = maxEscValues then some t
  else if i < maxEscValues then
    some (t.set fun k =>
      { k with
        rrr := true
        escValues := Function.update k.escValues i (k.escValues i * 10 + UInt32.ofNat (c.toNat - 48)) })
  else none

/-- The end of a parameter without digits. -/
def emptyValue (t : Term β) : Option (Term β) :=
  let i := t.context.escValuesI
  if i = maxEscValues then some t
  else if i < maxEscValues then
    some (t.set fun k => { k with escValues := Function.update k.escValues i 0, escValuesI := i + 1 })
  else none

/-- `term_control_sequence_parse`. -/
def controlSequenceParse (c : Char) (t : Term β) : Option (Term β) :=
  if t.context.escapeOffset = 2 ∧ c = '[' then some (t.set fun k => { k with discardNext := true }).cleanup
  else if t.context.escapeOffset = 2 ∧ c = '?' then some (t.set fun k => { k with decPrivate := true })
  else if '0' ≤ c ∧ c ≤ '9' then t.digit c
  else if t.context.rrr then
    let t := t.set fun k => { k with escValuesI := k.escValuesI + 1, rrr := false }
    if c = ';' then some t else t.carryOut B S c
  else if c = ';' then t.emptyValue
  else t.carryOut B S c

/-! ## Escape sequences -/

/-- The label `is_csi` of `term_escape_parse`. -/
def beginSequence (t : Term β) : Term β :=
  t.set fun k => { k with escValues := fun _ => 0, escValuesI := 0, rrr := false, controlSequence := true }

/-- The next line, at a column; the last one of the region scrolls. -/
def lineFeed (x : ℕ) (t : Term β) : Option (Term β) :=
  if t.cursorY B = decr64 t.context.scrollBottomMargin then (t.scroll B).map (setCursorPos B x (t.cursorY B))
  else some (t.setCursorPos B x (add64 (t.cursorY B) 1))

/-- The line before; the first one of the region scrolls. -/
def reverseLineFeed (t : Term β) : Option (Term β) :=
  if t.cursorY B = t.context.scrollTopMargin then (t.revscroll B).map (setCursorPos B 0 (t.cursorY B))
  else some (t.setCursorPos B 0 (decr64 (t.cursorY B)))

/-- The `switch` of `term_escape_parse`, up to the case `[`. -/
def escapeCommand (c : Char) (t : Term β) : Option (Term β) :=
  match c with
  | '7' => some (t.saveState B)
  | '8' => some (t.restoreState B)
  | 'c' => (t.reinit S).clear B true
  | 'D' => t.lineFeed B (t.cursorX B)
  | 'E' => t.lineFeed B 0
  | 'M' => t.reverseLineFeed B
  | 'Z' => some (t.call .privateId)
  | '(' => some (t.set fun k => { k with gSelect := 1 })
  | ')' => some (t.set fun k => { k with gSelect := 2 })
  -- an escape after an escape is printed, unless `term_runtime` is set
  | '\x1b' => if t.runtime then some t else t.rawPutchar B c
  | _ => some t

/-- `term_escape_parse`. -/
def escapeParse (c : Char) (t : Term β) : Option (Term β) :=
  let t := t.set fun k => { k with escapeOffset := add64 k.escapeOffset 1 }
  if t.context.controlSequence then t.controlSequenceParse B S c
  else if t.context.csi then some (t.set fun k => { k with csi := false }).beginSequence
  else if c = '[' then some t.beginSequence
  else (t.escapeCommand B S c).map (set fun k => { k with escape := false })

/-! ## Characters -/

/-- `term_putchar`, where `discard_next` is set. -/
def discard (t : Term β) : Term β :=
  t.set fun k =>
    { k with discardNext := false, escape := false, csi := false, controlSequence := false, gSelect := 0 }

/-- `term_putchar`, where `g_select` is set: the character names a character set. -/
def selectCharset (c : Char) (t : Term β) : Option (Term β) :=
  let g := t.context.gSelect - 1
  let t := t.set fun k => { k with gSelect := 0 }
  if g < 2 then
    match c with
    | 'B' => some (t.set fun k => { k with charsets := Function.update k.charsets g .default })
    | '0' => some (t.set fun k => { k with charsets := Function.update k.charsets g .decSpecial })
    | _ => some t
  else none

/-- The case of a tabulator. -/
def tab (t : Term β) : Term β :=
  let next := t.cursorX B / tabSize + 1
  if S.cols ≤ next then t.setCursorPos B (decr64 S.cols) (t.cursorY B)
  else t.setCursorPos B (next * tabSize % 2 ^ 64) (t.cursorY B)

/-- The end of `term_putchar`: a character that is printed. -/
def print (c : Char) (t : Term β) : Option (Term β) :=
  let x := t.cursorX B
  let y := t.cursorY B
  -- in insert mode the rest of the line moves to the right first
  (if t.context.insertMode then
      loopDown decr64 (fun i t => t.moveCharacter B (add64 i 1) y i y) x S.cols (decr64 S.cols) t
    else some t).bind fun t =>
      if t.context.currentCharset < 2 then
        match t.context.charsets t.context.currentCharset with
        | .default => t.rawPutchar B c
        | .decSpecial => t.rawPutchar B (decSpecialToCp437 c)
      else none

/-- The `switch` of `term_putchar`, and what follows it. -/
def character (c : Char) (t : Term β) : Option (Term β) :=
  match c with
  | '\x00' | '\x7f' => some t
  | '\x9b' => some (t.set fun k => { k with csi := true, escapeOffset := 0, escape := true })
  | '\x1b' => some (t.set fun k => { k with escapeOffset := 0, escape := true })
  | '\t' => some (t.tab B S)
  | '\x0b' | '\x0c' | '\n' => t.lineFeed B 0
  | '\x08' => some (t.setCursorPos B (decr64 (t.cursorX B)) (t.cursorY B))
  | '\r' => some (t.setCursorPos B 0 (t.cursorY B))
  | '\x07' => some (t.call .bell)
  | '\x0e' => some (t.set fun k => { k with currentCharset := 1 })
  | '\x0f' => some (t.set fun k => { k with currentCharset := 0 })
  | c => t.print B S c

/-- `term_putchar`. -/
def putchar (c : Char) (t : Term β) : Option (Term β) :=
  if t.context.discardNext ∨ t.runtime ∧ (c = '\x18' ∨ c = '\x1a') then some t.discard
  else if t.context.escape then t.escapeParse B S c
  else if t.context.gSelect ≠ 0 then t.selectCharset c
  else t.character B S c

/-- The loop of `term_write`. -/
def putchars (t : Term β) (s : List Char) : Option (Term β) := s.foldlM (fun t c => t.putchar B S c) t

/-- `term_write`, of fewer than `TERM_FULL_REFRESH` bytes. -/
def write (s : List Char) (t : Term β) : Option (Term β) :=
  (t.putchars B S s).bind fun t => if t.autoflush then t.doubleBufferFlush B else some t

/-- `putc` of `FBTerminal`. -/
def putc (c : Char) (t : Term β) : Option (Term β) :=
  (t.putchar B S c).bind fun t => if c = '\n' then t.doubleBufferFlush B else some t

end Term

end Scalux.Fbterm
