import Mathlib.Data.List.Basic
import Mathlib.Data.Option.Basic
import Scalux.Libkern.Nanoprintf

/-! # The text of a format

What `npf_vpprintf` prints depends on the format and its arguments only, and not on the function that it is printed
with: it is a text whose characters are put one after the other.

* **`formatText`**: this text.
* **`npfVpprintf_eq`**: what becomes of a context, and the number that is returned.
* **`npfVsnprintf_eq`**: what is left in a buffer of any size. -/

namespace Scalux.Npf

/-- The characters of what has been converted. -/
def Converted.text (c : Converted) : Option (List Char) :=
  c.precPad.bind fun precPad =>
  (c.fieldPad precPad).map fun fieldPad =>
    c.leading fieldPad.toNat ++ (c.payload precPad.toNat ++ c.trailing fieldPad.toNat)

/-- The characters of a directive, and the arguments behind its own. -/
def directiveText (fs : FormatSpec) (args : List Arg) : Option (List Char × List Arg) :=
  (starWidth fs args).bind fun y =>
  (starPrec y.1 y.2).bind fun y =>
  (convert y.1 y.2).bind fun y => y.1.text.map fun t => (t, y.2)

/-- **The text of a format**, with a bound on the characters and directives in it. -/
def formatText : ℕ → List Char → List Arg → Option (List Char)
  | _, [], _ => some []
  | 0, _ :: _, _ => none
  | n + 1, c :: cur, args =>
      if c ≠ '%' then (formatText n cur args).map (c :: ·)
      else (npfParseFormatSpec cur).bind fun
        | none => (formatText n cur args).map (c :: ·)
        | some (fs, cur) => (directiveText fs args).bind fun y => (formatText n cur y.2).map (y.1 ++ ·)

/-- The text of a format and its arguments. -/
def printed (format : List Char) (args : List Arg) : Option (List Char) := formatText format.length format args

section Putc

variable {σ : Type*} (pc : Char → σ → σ) {x : CntPutcCtx σ} {l l' : List Char}

/-- No character is put. -/
@[simp] theorem putAll_nil (x : CntPutcCtx σ) : putAll pc [] x = some x := rfl

/-- The first character is put first. -/
theorem putAll_cons (c : Char) (l : List Char) (x : CntPutcCtx σ) :
    putAll pc (c :: l) x = (npfPutcCnt pc c x).bind (putAll pc l) := List.foldlM_cons

/-- One text after another. -/
theorem putAll_append (l l' : List Char) (x : CntPutcCtx σ) :
    putAll pc (l ++ l') x = (putAll pc l x).bind (putAll pc l') := List.foldlM_append

/-- The characters are put, as far as they can be counted. -/
theorem putAll_eq (l : List Char) (hx : x.n < 2 ^ 31) : putAll pc l x =
    if x.n + l.length < 2 ^ 31 then some ⟨l.foldl (fun s c => pc c s) x.ctx, x.n + l.length⟩ else none := by
  induction l generalizing x with
  | nil =>
      rw [List.length_nil, Nat.add_zero, if_pos hx]
      rfl
  | cons c l ih =>
      have hadd : x.n + (l.length + 1) = x.n + 1 + l.length := by omega
      rw [putAll_cons, npfPutcCnt, List.length_cons, hadd]
      by_cases hlt : x.n + 1 < 2 ^ 31
      · rw [if_pos hlt]
        exact ih hlt
      · rw [if_neg hlt, if_neg (by omega)]
        rfl

/-- A conversion is put as its text, if that has a meaning. -/
theorem putConverted_eq (c : Converted) (x : CntPutcCtx σ) :
    putConverted pc c x = c.text.bind fun t => putAll pc t x := by
  unfold putConverted Converted.text
  cases c.precPad with
  | none => rfl
  | some precPad =>
      rw [Option.bind_some, Option.bind_some]
      cases c.fieldPad precPad with
      | none => rfl
      | some fieldPad =>
          rw [Option.bind_some, Option.map_some, Option.bind_some, putAll_append]
          exact Option.bind_congr fun x _ => (putAll_append pc _ _ x).symm

/-- A directive is put as its text, if that has a meaning. -/
theorem putDirective_eq (fs : FormatSpec) (args : List Arg) (x : CntPutcCtx σ) :
    putDirective pc fs args x = (directiveText fs args).bind fun y => (putAll pc y.1 x).map fun x => (x, y.2) := by
  unfold putDirective directiveText
  simp only [putConverted_eq, Option.bind_assoc, Option.map_bind, Option.bind_map, Function.comp_def]

/-- A text goes on with what is printed next. -/
theorem putAll_bind (t : Option (List Char)) (l : List Char) (x : CntPutcCtx σ) :
    ((putAll pc l x).bind fun x => t.bind fun t => putAll pc t x) = t.bind fun t => putAll pc (l ++ t) x := by
  cases t with
  | none => cases putAll pc l x <;> rfl
  | some t => exact (putAll_append pc l t x).symm

/-- **The loop puts the text of the format.** -/
theorem vpprintfLoop_eq (n : ℕ) (cur : List Char) (args : List Arg) (x : CntPutcCtx σ) :
    vpprintfLoop pc n cur args x = (formatText n cur args).bind fun t => putAll pc t x := by
  induction n generalizing cur args x with
  | zero => cases cur <;> rfl
  | succ n ih =>
      cases cur with
      | nil => rfl
      | cons c cur =>
          -- a character that stands for itself
          have hchar : ((npfPutcCnt pc c x).bind fun x => vpprintfLoop pc n cur args x) =
              ((formatText n cur args).map (c :: ·)).bind fun t => putAll pc t x := by
            have hone : putAll pc [c] x = npfPutcCnt pc c x := by
              rw [putAll_cons]
              exact Option.bind_fun_some _
            simp only [ih, Option.bind_map, Function.comp_def]
            exact hone ▸ putAll_bind pc (formatText n cur args) [c] x
          rw [vpprintfLoop, formatText]
          split
          · exact hchar
          · cases npfParseFormatSpec cur with
            | none => rfl
            | some y =>
                cases y with
                | none =>
                    -- a `%` with no directive does, too
                    exact hchar
                | some y =>
                    obtain ⟨fs, cur⟩ := y
                    simp only [Option.bind_some, putDirective_eq, ih, Option.bind_assoc, Option.bind_map,
                      Function.comp_def]
                    exact Option.bind_congr fun y _ => putAll_bind pc _ _ x

/-- **What is printed**: for every function that puts characters, every context, format and arguments, the function is
called for each character of the text, and their number is returned, if it is an `int`. -/
theorem npfVpprintf_eq (ctx : σ) (format : List Char) (args : List Arg) : npfVpprintf pc ctx format args =
    (printed format args).bind fun t =>
      if t.length < 2 ^ 31 then some ⟨t.foldl (fun s c => pc c s) ctx, t.length⟩ else none := by
  have hzero : (⟨ctx, 0⟩ : CntPutcCtx σ).n < 2 ^ 31 := Nat.two_pow_pos 31
  rw [npfVpprintf, vpprintfLoop_eq]
  refine Option.bind_congr fun t _ => ?_
  rw [putAll_eq pc t hzero, Nat.zero_add]

end Putc

section Buffer

variable {M : Type*} (store : M → ℕ → Char → M)

/-- Characters that are stored from an address on. -/
def storeAll (mem : M) (a : ℕ) : List Char → M
  | [] => mem
  | c :: l => storeAll (store mem a c) (a + 1) l

/-- The characters that are put into a buffer: those that there is room for are stored, and all are counted. -/
theorem foldl_bufputc (l : List Char) (bpc : BufputcCtx M) : l.foldl (fun s c => npfBufputc store c s) bpc =
    { bpc with
      mem := storeAll store bpc.mem (bpc.dst + bpc.cur) (l.take (bpc.len - bpc.cur))
      cur := bpc.cur + (l.take (bpc.len - bpc.cur)).length } := by
  induction l generalizing bpc with
  | nil =>
      rw [List.take_nil]
      rfl
  | cons c l ih =>
      rw [List.foldl_cons, ih]
      unfold npfBufputc
      split
      · next hlt =>
          obtain ⟨k, hk⟩ := Nat.exists_eq_add_of_lt hlt
          have hlen : bpc.len - bpc.cur = k + 1 := by omega
          have hrest : bpc.len - (bpc.cur + 1) = k := by omega
          simp only [hlen, hrest, List.take_succ_cons, storeAll, List.length_cons, Nat.add_assoc, Nat.add_comm 1]
      · next hge =>
          have hlen : bpc.len - bpc.cur = 0 := by omega
          rw [hlen, List.take_zero, List.take_zero]

/-- Without a buffer nothing is stored. -/
theorem foldl_bufputcNop (l : List Char) (bpc : BufputcCtx M) : l.foldl (fun s c => npfBufputcNop c s) bpc = bpc := by
  induction l with
  | nil => rfl
  | cons c l ih => exact ih

variable {mem : M} {buffer bufsz : ℕ} {format : List Char} {args : List Arg} {t : List Char}

/-- A format without a meaning is not printed. -/
theorem npfVsnprintf_of_none (h : printed format args = none) :
    npfVsnprintf store mem buffer bufsz format args = none := by
  unfold npfVsnprintf
  dsimp only
  rw [npfVpprintf_eq, h]
  rfl

/-- A text with more characters than an `int` counts. -/
theorem npfVsnprintf_of_long (h : printed format args = some t) (hlong : ¬ t.length < 2 ^ 31) :
    npfVsnprintf store mem buffer bufsz format args = none := by
  unfold npfVsnprintf
  dsimp only
  rw [npfVpprintf_eq, h, Option.bind_some, if_neg hlong]
  rfl

/-- A text that is printed: its length, and as much of it in the buffer as there is room for. -/
theorem npfVsnprintf_of_printed (h : printed format args = some t) (hlt : t.length < 2 ^ 31) :
    npfVsnprintf store mem buffer bufsz format args =
      some (t.length, if buffer = 0 then mem else storeAll store mem buffer ((t ++ ['\x00']).take bufsz)) := by
  unfold npfVsnprintf
  dsimp only
  rw [npfVpprintf_eq, h, Option.bind_some, if_pos hlt, Option.map_some]
  by_cases hnull : buffer = 0
  · simp only [hnull, ne_eq, not_true_eq_false, if_false, if_true, foldl_bufputcNop]
    rfl
  · simp only [hnull, ne_eq, not_false_eq_true, if_true, if_false]
    -- the terminator goes the same way as the text, and is not counted
    have hfold := foldl_bufputc store (t ++ ['\x00']) ⟨mem, buffer, bufsz, 0⟩
    rw [List.foldl_append] at hfold
    exact congrArg (fun bpc : BufputcCtx M => some (t.length, bpc.mem)) hfold

/-- **What is left in a buffer**: for every memory, buffer, size, format and arguments, the length of the text is
returned, whatever the size; and as much is stored of the text and its terminator as the size says, in a buffer
that is not null. -/
theorem npfVsnprintf_eq (mem : M) (buffer bufsz : ℕ) (format : List Char) (args : List Arg) :
    npfVsnprintf store mem buffer bufsz format args = (printed format args).bind fun t =>
      if t.length < 2 ^ 31 then
        some (t.length, if buffer = 0 then mem else storeAll store mem buffer ((t ++ ['\x00']).take bufsz))
      else none := by
  cases hprinted : printed format args with
  | none => exact npfVsnprintf_of_none store hprinted
  | some t =>
      rw [Option.bind_some]
      split
      · next hlt => exact npfVsnprintf_of_printed store hprinted hlt
      · next hlong => exact npfVsnprintf_of_long store hprinted hlong

end Buffer

end Scalux.Npf
