import Mathlib.Algebra.Order.Ring.Int
import Mathlib.Algebra.Order.Ring.Nat
import Mathlib.Data.Int.Notation
import Mathlib.Data.Nat.Notation

/-! # Formatted printing

`npf_vpprintf` of `libkern/nanoprintf.h`, which `kprintf`, `ksnprintf` and `kmem_vasprintf` rest on: it puts the
characters of a format one after the other, and what the directives in it make of the arguments.

* A `char` is a `Char` below 256, and a string is the list of the characters before its terminator.
* `none` stands for what C gives no meaning: an `int` that overflows, an argument of another type than the one that
  is asked for or none, and a store beyond the end of `cbuf_mem`.
* Directives are configured as in the header: with field widths, precisions, large and binary specifiers, and without
  floating point and write-back.
* The lock of the message buffer is held all the time. -/

namespace Scalux.Npf

/-- `npf_fmt_spec_opt_t`. -/
inductive FmtSpecOpt
  | none | literal | star
  deriving DecidableEq

/-- `npf_format_spec_length_modifier_t`. -/
inductive LengthModifier
  | none | short | longDouble | char | long | largeLongLong | largeIntmax | largeSizet | largePtrdifft
  deriving DecidableEq

/-- `npf_format_spec_conversion_t`. -/
inductive Conversion
  | percent | char | string | signedInt | binary | octal | hexInt | unsignedInt | pointer
  deriving DecidableEq

/-- `npf_format_spec_t`. -/
structure FormatSpec where
  prepend : Option Char
  altForm : Bool
  fieldWidthOpt : FmtSpecOpt
  fieldWidth : ℤ
  leftJustified : Bool
  leadingZeroPad : Bool
  precOpt : FmtSpecOpt
  prec : ℤ
  lengthModifier : LengthModifier
  convSpec : Conversion
  caseAdjust : ℕ
  deriving DecidableEq

/-- An `int`. -/
def int (v : ℤ) : Option ℤ := if -2 ^ 31 ≤ v ∧ v < 2 ^ 31 then some v else none

/-! ## Directives -/

/-- What is set before a directive is read; the other fields are set before they are used. -/
def FormatSpec.initial : FormatSpec where
  prepend := none
  altForm := false
  fieldWidthOpt := .none
  fieldWidth := 0
  leftJustified := false
  leadingZeroPad := false
  precOpt := .none
  prec := 0
  lengthModifier := .none
  convSpec := .percent
  caseAdjust := 'a'.toNat - 'A'.toNat

/-- An optional flag. -/
def parseFlag (fs : FormatSpec) (c : Char) : Option FormatSpec :=
  match c with
  | '-' => some { fs with leftJustified := true, leadingZeroPad := false }
  | '0' => some { fs with leadingZeroPad := !fs.leftJustified }
  | '+' => some { fs with prepend := some '+' }
  | ' ' => some { fs with prepend := fs.prepend <|> some ' ' }
  | '#' => some { fs with altForm := true }
  | _ => none

/-- The optional flags. -/
def parseFlags (fs : FormatSpec) : List Char → FormatSpec × List Char
  | [] => (fs, [])
  | c :: cur => match parseFlag fs c with
    | some fs => parseFlags fs cur
    | none => (fs, c :: cur)

/-- The digits of a number, of which there is `n` before. -/
def parseDigits (n : ℕ) : List Char → Option (ℕ × List Char)
  | [] => some (n, [])
  | c :: cur =>
      if c.isDigit then
        if n * 10 + (c.toNat - '0'.toNat) < 2 ^ 31 then parseDigits (n * 10 + (c.toNat - '0'.toNat)) cur
        else none
      else some (n, c :: cur)

/-- The field width. -/
def parseFieldWidth (fs : FormatSpec) : List Char → Option (FormatSpec × List Char)
  | '*' :: cur => some ({ fs with fieldWidthOpt := .star }, cur)
  | cur => (parseDigits 0 cur).map fun x =>
      ({ fs with
          fieldWidthOpt := if cur.head?.any Char.isDigit then .literal else .none
          fieldWidth := x.1 }, x.2)

/-- The precision. -/
def parsePrec (fs : FormatSpec) : List Char → Option (FormatSpec × List Char)
  | '.' :: '*' :: cur => some ({ fs with prec := 0, precOpt := .star }, cur)
  | '.' :: '-' :: cur => (parseDigits 0 cur).map fun x => ({ fs with prec := x.1, precOpt := .none }, x.2)
  | '.' :: cur => (parseDigits 0 cur).map fun x => ({ fs with prec := x.1, precOpt := .literal }, x.2)
  | cur => some ({ fs with prec := 0, precOpt := .none }, cur)

/-- The length modifier. -/
def parseLengthModifier : List Char → LengthModifier × List Char
  | 'h' :: 'h' :: cur => (.char, cur)
  | 'h' :: cur => (.short, cur)
  | 'l' :: 'l' :: cur => (.largeLongLong, cur)
  | 'l' :: cur => (.long, cur)
  | 'j' :: cur => (.largeIntmax, cur)
  | 'z' :: cur => (.largeSizet, cur)
  | 't' :: cur => (.largePtrdifft, cur)
  | cur => (.none, cur)

/-- The conversion specifier. -/
def parseConversion (fs : FormatSpec) (c : Char) : Option FormatSpec :=
  match c with
  | '%' => some { fs with convSpec := .percent, precOpt := .none }
  | 'c' => some { fs with convSpec := .char, precOpt := .none }
  | 's' => some { fs with convSpec := .string, leadingZeroPad := false }
  | 'i' => some { fs with convSpec := .signedInt }
  | 'd' => some { fs with convSpec := .signedInt }
  | 'o' => some { fs with convSpec := .octal }
  | 'u' => some { fs with convSpec := .unsignedInt }
  | 'X' => some { fs with convSpec := .hexInt, caseAdjust := 0 }
  | 'x' => some { fs with convSpec := .hexInt }
  | 'p' => some { fs with convSpec := .pointer, precOpt := .none }
  | 'B' => some { fs with convSpec := .binary, caseAdjust := 0 }
  | 'b' => some { fs with convSpec := .binary }
  | _ => none

/-- `npf_parse_format_spec`, from the character after the `%` on: the directive, and what is behind it.  The inner
`none` stands for the length 0, of what is no directive. -/
def npfParseFormatSpec (format : List Char) : Option (Option (FormatSpec × List Char)) :=
  let x := parseFlags .initial format
  (parseFieldWidth x.1 x.2).bind fun x =>
  (parsePrec x.1 x.2).bind fun x =>
  let y := parseLengthModifier x.2
  match y.2 with
  | [] => some none
  | c :: cur => some ((parseConversion { x.1 with lengthModifier := y.1 } c).map fun fs => (fs, cur))

/-! ## Numbers -/

/-- `(char)c`. -/
def toChar (c : ℕ) : Char := Char.ofNat (c % 256)

/-- `npf_itoa_rev`, with the sign of the number; it has 64 bits, which is enough for the rounds of the loop. -/
def itoaRevLoop (sign : ℤ) : ℕ → ℤ → List Char
  | 0, _ => []
  | n + 1, i =>
      toChar ('0'.toNat + (sign * i.tmod 10)).toNat ::
        if i.tdiv 10 = 0 then [] else itoaRevLoop sign n (i.tdiv 10)

/-- `npf_itoa_rev`. -/
def npfItoaRev (i : ℤ) : List Char := itoaRevLoop (if 0 ≤ i then 1 else -1) 64 i

/-- The loop of `npf_utoa_rev`. -/
def utoaRevLoop (base caseAdj : ℕ) : ℕ → ℕ → List Char
  | 0, _ => []
  | n + 1, i =>
      let d := i % base
      toChar (if d < 10 then '0'.toNat + d else 'A'.toNat + caseAdj + (d - 10)) ::
        if i / base = 0 then [] else utoaRevLoop base caseAdj n (i / base)

/-- `npf_utoa_rev`. -/
def npfUtoaRev (i base caseAdj : ℕ) : List Char := utoaRevLoop base caseAdj 64 i

/-- `npf_bin_len`. -/
def npfBinLen (u : ℕ) : ℕ := if u = 0 then 1 else Nat.log2 u + 1

/-! ## Arguments -/

/-- What `va_arg` finds: the bits of a number or of an address, or a string. -/
inductive Arg
  | word (w : BitVec 64)
  | string (s : List Char)

/-- `va_arg` of a type, cast to one of `n` bits. -/
def vaArg (n : ℕ) : List Arg → Option (BitVec n × List Arg)
  | .word w :: args => some (w.setWidth n, args)
  | _ => none

/-- The bits of the type that a length modifier stands for. -/
def LengthModifier.bits : LengthModifier → ℕ
  | .none => 32
  | .short => 16
  | .longDouble => 32
  | .char => 8
  | _ => 64

/-- The argument of a `*` for the width. -/
def starWidth (fs : FormatSpec) (args : List Arg) : Option (FormatSpec × List Arg) :=
  if fs.fieldWidthOpt = .star then
    (vaArg 32 args).bind fun x =>
      if x.1.toInt < 0 then
        (int (-x.1.toInt)).map fun w =>
          ({ fs with fieldWidthOpt := .literal, fieldWidth := w, leftJustified := true }, x.2)
      else some ({ fs with fieldWidthOpt := .literal, fieldWidth := x.1.toInt }, x.2)
  else some (fs, args)

/-- The argument of a `*` for the precision. -/
def starPrec (fs : FormatSpec) (args : List Arg) : Option (FormatSpec × List Arg) :=
  if fs.precOpt = .star then
    (vaArg 32 args).map fun x =>
      ({ fs with precOpt := if (0 : ℤ) ≤ x.1.toInt then .literal else .none, prec := x.1.toInt }, x.2)
  else some (fs, args)

/-! ## Conversions -/

/-- What a directive has been made of: the directive, with its precision as it is then, and the local variables of
`npf_vpprintf`.  The characters of a number in `cbuf` are in reverse order, and those of a binary one in `binval`. -/
structure Converted where
  fs : FormatSpec
  cbuf : List Char := []
  cbufLen : ℕ := cbuf.length
  binval : ℕ := 0
  signC : Option Char := none
  need0x : Option Char := none
  zero : Bool := false

/-- The value and the precision are zero. -/
def FormatSpec.skips (fs : FormatSpec) (val : ℤ) : Bool := val = 0 && fs.precOpt = .literal && fs.prec = 0

/-- `NPF_FMT_SPEC_CONV_SIGNED_INT`. -/
def convertSigned (fs : FormatSpec) (val : ℤ) : Converted where
  fs := fs
  cbuf := if fs.skips val then [] else npfItoaRev val
  signC := if val < 0 then some '-' else fs.prepend
  zero := val = 0

/-- The base of a number. -/
def Conversion.base : Conversion → ℕ
  | .octal => 8
  | .hexInt => 16
  | _ => 10

/-- `NPF_FMT_SPEC_CONV_BINARY`, `OCTAL`, `HEX_INT` and `UNSIGNED_INT`. -/
def convertUnsigned (fs : FormatSpec) (val : ℕ) : Converted :=
  let c : Converted :=
    if fs.skips val then
      -- a 0 of precision 0 has no digit, but with `#` in octal
      if fs.convSpec = .octal ∧ fs.altForm then { fs := { fs with prec := 1 } } else { fs := fs }
    else if fs.convSpec = .binary then { fs := fs, cbufLen := npfBinLen val, binval := val }
    else { fs := fs, cbuf := npfUtoaRev val fs.convSpec.base fs.caseAdjust }
  let c := { c with zero := val = 0 }
  -- `#`: a leading 0 in octal, a prefix in the other bases
  if val ≠ 0 ∧ fs.altForm then
    match fs.convSpec with
    | .octal => { c with cbuf := c.cbuf ++ ['0'], cbufLen := c.cbufLen + 1 }
    | .hexInt => { c with need0x := some (toChar ('X'.toNat + fs.caseAdjust)) }
    | .binary => { c with need0x := some (toChar ('B'.toNat + fs.caseAdjust)) }
    | _ => c
  else c

/-- `NPF_FMT_SPEC_CONV_POINTER`. -/
def convertPointer (fs : FormatSpec) (val : ℕ) : Converted where
  fs := fs
  cbuf := npfUtoaRev val 16 ('a'.toNat - 'A'.toNat)
  need0x := some 'x'

/-- `NPF_FMT_SPEC_CONV_STRING`. -/
def convertString (fs : FormatSpec) (s : List Char) : Converted where
  fs := fs
  cbuf := s
  cbufLen := if fs.precOpt = .literal then (min fs.prec s.length).toNat else s.length

/-- What is written to `cbuf_mem` fits. -/
def Converted.fits (c : Converted) : Option Converted := if c.cbuf.length ≤ 32 then some c else none

/-- The argument is extracted and converted. -/
def convert (fs : FormatSpec) (args : List Arg) : Option (Converted × List Arg) :=
  match fs.convSpec with
  | .percent => some ({ fs := fs, cbuf := ['%'] }, args)
  | .char => (vaArg 8 args).map fun x => ({ fs := fs, cbuf := [toChar x.1.toNat] }, x.2)
  | .string => match args with
    | .string s :: args => (int s.length).map fun _ => (convertString fs s, args)
    | _ => none
  | .signedInt => (vaArg fs.lengthModifier.bits args).bind fun x =>
      (convertSigned fs x.1.toInt).fits.map fun c => (c, x.2)
  | .pointer => (vaArg 64 args).bind fun x => (convertPointer fs x.1.toNat).fits.map fun c => (c, x.2)
  | _ => (vaArg fs.lengthModifier.bits args).bind fun x =>
      (convertUnsigned fs x.1.toNat).fits.map fun c => (c, x.2)

namespace Converted

/-- The character a field is padded with. -/
def padC (c : Converted) : Option Char :=
  if c.fs.fieldWidthOpt = .literal then
    if c.fs.leadingZeroPad then
      if c.fs.convSpec ≠ .string ∧ c.fs.convSpec ≠ .char ∧ c.fs.convSpec ≠ .percent then
        if c.fs.precOpt = .literal ∧ c.fs.prec = 0 ∧ c.zero then some ' ' else some '0'
      else none
    else some ' '
  else none

/-- The number of zeros before the digits. -/
def precPad (c : Converted) : Option ℤ :=
  if c.fs.convSpec ≠ .string then (int (c.fs.prec - c.cbufLen)).map (max 0) else some 0

/-- The number of characters a field is padded with.  What is taken off the width is not negative, so the last of
the differences is an `int` if and only if all of them are. -/
def fieldPad (c : Converted) (precPad : ℤ) : Option ℤ :=
  (int (c.fs.fieldWidth - c.cbufLen - (if c.signC.isSome then 1 else 0) - (if c.need0x.isSome then 2 else 0) -
    precPad)).map (max 0)

/-- `0x`, or the like. -/
def zeroX (c : Converted) : List Char := match c.need0x with
  | some x => ['0', x]
  | none => []

/-- The sign goes before the padding. -/
def signFirst (c : Converted) : Bool := !c.fs.leftJustified && c.padC = some '0'

/-- What comes before the payload. -/
def leading (c : Converted) (fieldPad : ℕ) : List Char :=
  match c.fs.leftJustified, c.padC with
  | false, some pad =>
      if pad = '0' then c.signC.toList ++ c.zeroX ++ List.replicate fieldPad pad
      else List.replicate fieldPad pad ++ c.zeroX
  | _, _ => c.zeroX

/-- The digits of a binary number, from the place `k` downwards. -/
def bits (binval : ℕ) : ℕ → List Char
  | 0 => []
  | k + 1 => toChar ('0'.toNat + (binval >>> k &&& 1)) :: bits binval k

/-- The payload. -/
def payload (c : Converted) (precPad : ℕ) : List Char :=
  if c.fs.convSpec = .string then c.cbuf.take c.cbufLen
  else
    (if c.signFirst then [] else c.signC.toList) ++ List.replicate precPad '0' ++
      if c.fs.convSpec = .binary then bits c.binval c.cbufLen else (c.cbuf.take c.cbufLen).reverse

/-- What comes behind it. -/
def trailing (c : Converted) (fieldPad : ℕ) : List Char :=
  match c.fs.leftJustified, c.padC with
  | true, some pad => List.replicate fieldPad pad
  | _, _ => []

end Converted

/-! ## Printing -/

/-- `npf_cnt_putc_ctx_t`. -/
structure CntPutcCtx (σ : Type*) where
  ctx : σ
  n : ℕ

section Putc

variable {σ : Type*} (pc : Char → σ → σ)

/-- `npf_putc_cnt`. -/
def npfPutcCnt (c : Char) (x : CntPutcCtx σ) : Option (CntPutcCtx σ) :=
  if x.n + 1 < 2 ^ 31 then some ⟨pc c x.ctx, x.n + 1⟩ else none

/-- `NPF_PUTC` of one character after the other. -/
def putAll (l : List Char) (x : CntPutcCtx σ) : Option (CntPutcCtx σ) :=
  l.foldlM (fun x c => npfPutcCnt pc c x) x

/-- The characters of what has been converted. -/
def putConverted (c : Converted) (x : CntPutcCtx σ) : Option (CntPutcCtx σ) :=
  c.precPad.bind fun precPad =>
  (c.fieldPad precPad).bind fun fieldPad =>
  (putAll pc (c.leading fieldPad.toNat) x).bind fun x =>
  (putAll pc (c.payload precPad.toNat) x).bind fun x =>
  putAll pc (c.trailing fieldPad.toNat) x

/-- A directive. -/
def putDirective (fs : FormatSpec) (args : List Arg) (x : CntPutcCtx σ) : Option (CntPutcCtx σ × List Arg) :=
  (starWidth fs args).bind fun y =>
  (starPrec y.1 y.2).bind fun y =>
  (convert y.1 y.2).bind fun y =>
  (putConverted pc y.1 x).map fun x => (x, y.2)

/-- The loop of `npf_vpprintf`, with a bound on its rounds. -/
def vpprintfLoop : ℕ → List Char → List Arg → CntPutcCtx σ → Option (CntPutcCtx σ)
  | _, [], _, x => some x
  | 0, _ :: _, _, _ => none
  | n + 1, c :: cur, args, x =>
      if c ≠ '%' then (npfPutcCnt pc c x).bind fun x => vpprintfLoop n cur args x
      else (npfParseFormatSpec cur).bind fun
        | none => (npfPutcCnt pc c x).bind fun x => vpprintfLoop n cur args x
        | some (fs, cur) => (putDirective pc fs args x).bind fun y => vpprintfLoop n cur y.2 y.1

/-- `npf_vpprintf`. -/
def npfVpprintf (ctx : σ) (format : List Char) (args : List Arg) : Option (CntPutcCtx σ) :=
  vpprintfLoop pc format.length format args ⟨ctx, 0⟩

end Putc

/-- `npf_bufputc_ctx_t`, with the memory that `dst` points into. -/
structure BufputcCtx (M : Type*) where
  mem : M
  dst : ℕ
  len : ℕ
  cur : ℕ

section Buffer

variable {M : Type*} (store : M → ℕ → Char → M)

/-- `npf_bufputc`, in a memory with a way to store a character. -/
def npfBufputc (c : Char) (bpc : BufputcCtx M) : BufputcCtx M :=
  if bpc.cur < bpc.len then { bpc with mem := store bpc.mem (bpc.dst + bpc.cur) c, cur := bpc.cur + 1 } else bpc

/-- `npf_bufputc_nop`. -/
def npfBufputcNop (_ : Char) (bpc : BufputcCtx M) : BufputcCtx M := bpc

/-- `npf_vsnprintf`. -/
def npfVsnprintf (mem : M) (buffer bufsz : ℕ) (format : List Char) (args : List Arg) : Option (ℕ × M) :=
  let pc := if buffer ≠ 0 then npfBufputc store else npfBufputcNop
  (npfVpprintf pc ⟨mem, buffer, bufsz, 0⟩ format args).map fun x => (x.n, (pc '\x00' x.ctx).mem)

end Buffer

end Scalux.Npf
