import Mathlib.Data.List.Basic
import Mathlib.Data.List.TakeWhile
import Scalux.Libkern.Nanoprintf

/-! # The directives of a format

A directive has flags, a field width, a precision, a length modifier and a specifier, in this order, and only the last
of them has to be there.

* **`Directive`**: its syntax, with the characters that it is written with and the `npf_format_spec_t` that it stands
  for.
* **`parse_directive`**: `npf_parse_format_spec` reads a directive up to its end.
* **`parse_iff`**: it reads nothing else. -/

namespace Scalux.Npf

/-! ## Syntax -/

/-- A flag. -/
inductive Flag
  | minus | zero | plus | space | hash
  deriving DecidableEq

/-- The character of a flag. -/
def Flag.char : Flag → Char
  | .minus => '-'
  | .zero => '0'
  | .plus => '+'
  | .space => ' '
  | .hash => '#'

/-- Digits, perhaps none. -/
structure Digits where
  chars : List Char
  isDigit : ∀ c ∈ chars, c.isDigit

/-- The number that they make. -/
def Digits.value (d : Digits) : ℕ := Nat.ofDigitChars 10 d.chars 0

/-- A field width, whose number has a first digit that is no flag. -/
inductive Width
  | none
  | star
  | number (d : Digits) (h : d.chars.head?.any (· ≠ '0'))

/-- A precision.  The number of a negative one is read, too. -/
inductive Precision
  | none
  | star
  | number (d : Digits)
  | negative (d : Digits)

/-- A conversion specifier. -/
inductive Specifier
  | percent | c | s | i | d | o | u | X | x | p | B | b
  deriving DecidableEq

/-- **A directive**, without the `%` before it. -/
structure Directive where
  flags : List Flag
  width : Width
  precision : Precision
  modifier : LengthModifier
  modifier_ne : modifier ≠ .longDouble
  specifier : Specifier

namespace Width

def chars : Width → List Char
  | none => []
  | star => ['*']
  | number d _ => d.chars

def opt : Width → FmtSpecOpt
  | none => .none
  | star => .star
  | number _ _ => .literal

def value : Width → ℕ
  | number d _ => d.value
  | _ => 0

end Width

namespace Precision

def chars : Precision → List Char
  | none => []
  | star => ['.', '*']
  | number d => '.' :: d.chars
  | negative d => '.' :: '-' :: d.chars

def opt : Precision → FmtSpecOpt
  | star => .star
  | number _ => .literal
  | _ => .none

def value : Precision → ℕ
  | number d => d.value
  | negative d => d.value
  | _ => 0

end Precision

/-- The characters of a length modifier. -/
def LengthModifier.chars : LengthModifier → List Char
  | .short => ['h']
  | .char => ['h', 'h']
  | .long => ['l']
  | .largeLongLong => ['l', 'l']
  | .largeIntmax => ['j']
  | .largeSizet => ['z']
  | .largePtrdifft => ['t']
  | _ => []

namespace Specifier

def char : Specifier → Char
  | percent => '%'
  | c => 'c'
  | s => 's'
  | i => 'i'
  | d => 'd'
  | o => 'o'
  | u => 'u'
  | X => 'X'
  | x => 'x'
  | p => 'p'
  | B => 'B'
  | b => 'b'

def conversion : Specifier → Conversion
  | percent => .percent
  | c => .char
  | s => .string
  | i | d => .signedInt
  | o => .octal
  | u => .unsignedInt
  | X | x => .hexInt
  | p => .pointer
  | B | b => .binary

/-- The digits, and the letter of the prefix, are upper-case. -/
def upper : Specifier → Bool
  | X | B => true
  | _ => false

/-- The precision is not looked at as one. -/
def dropsPrec : Specifier → Bool
  | percent | c | p => true
  | _ => false

end Specifier

namespace Directive

/-- The characters of a directive. -/
def chars (d : Directive) : List Char :=
  d.flags.map Flag.char ++ (d.width.chars ++ (d.precision.chars ++ (d.modifier.chars ++ [d.specifier.char])))

/-- **What a directive stands for.** -/
def spec (d : Directive) : FormatSpec where
  prepend := if .plus ∈ d.flags then some '+' else if .space ∈ d.flags then some ' ' else none
  altForm := .hash ∈ d.flags
  fieldWidthOpt := d.width.opt
  fieldWidth := d.width.value
  leftJustified := .minus ∈ d.flags
  leadingZeroPad := d.specifier != .s && (decide (.zero ∈ d.flags) && !decide (.minus ∈ d.flags))
  precOpt := if d.specifier.dropsPrec then .none else d.precision.opt
  prec := d.precision.value
  lengthModifier := d.modifier
  convSpec := d.specifier.conversion
  caseAdjust := if d.specifier.upper then 0 else 32

/-- The numbers of a directive have the type `int`. -/
def InRange (d : Directive) : Prop := d.width.value < 2 ^ 31 ∧ d.precision.value < 2 ^ 31

instance (d : Directive) : Decidable d.InRange := inferInstanceAs (Decidable (_ ∧ _))

end Directive

variable {fs fs' : FormatSpec} {F G : List Flag} {l r rest : List Char} {n : ℕ} {w : Width} {p : Precision}

/-- A text whose first character, if there is one, is not of some kind. -/
def Stops (P : Char → Bool) (l : List Char) : Prop := ∀ c ∈ l.head?, P c = false

/-- A text with a first character stops if the character is none of the kind. -/
theorem stops_cons {P : Char → Bool} {c : Char} : Stops P (c :: l) ↔ P c = false :=
  ⟨fun h => h c rfl, fun h _ hc => Option.some.inj hc ▸ h⟩

/-- What is left of a text when all characters of the kind have been dropped stops. -/
theorem stops_dropWhile (P : Char → Bool) (l : List Char) : Stops P (l.dropWhile P) := by
  intro c hc
  have h := List.head?_dropWhile_not P l
  rw [Option.mem_def.mp hc] at h
  simpa using h

/-- Characters of other kinds, as it is computed. -/
theorem forall_eq_false {P : Char → Bool} (h : (l.all fun c => !P c) = true) : ∀ c ∈ l, P c = false := fun c hc =>
  (Bool.not_eq_true' _).mp (List.all_eq_true.mp h c hc)

/-- Characters of one kind, and a text that begins with another. -/
theorem exists_stops (P : Char → Bool) (l : List Char) : ∃ t r, l = t ++ r ∧ (∀ c ∈ t, P c) ∧ Stops P r :=
  ⟨l.takeWhile P, l.dropWhile P, List.takeWhile_append_dropWhile.symm, fun _ h => List.mem_takeWhile_imp h,
    stops_dropWhile P l⟩

/-! ## Flags -/

/-- The flag of a character. -/
def Flag.ofChar : Char → Option Flag
  | '-' => some .minus
  | '0' => some .zero
  | '+' => some .plus
  | ' ' => some .space
  | '#' => some .hash
  | _ => none

/-- What the flags set. -/
def flagged (F : List Flag) : FormatSpec :=
  { FormatSpec.initial with
    prepend := if .plus ∈ F then some '+' else if .space ∈ F then some ' ' else none
    altForm := .hash ∈ F
    leftJustified := .minus ∈ F
    leadingZeroPad := decide (.zero ∈ F) && !decide (.minus ∈ F) }

/-- One flag more. -/
theorem parseFlag_flagged (F : List Flag) (f : Flag) : parseFlag (flagged F) f.char = some (flagged (F ++ [f])) := by
  cases f with
  | plus => simp [parseFlag, flagged, Flag.char]
  | space =>
      by_cases hplus : Flag.plus ∈ F
      · simp [parseFlag, flagged, Flag.char, hplus]
      · by_cases hspace : Flag.space ∈ F <;> simp [parseFlag, flagged, Flag.char, hplus, hspace]
  | _ => simp [parseFlag, flagged, Flag.char]

/-- A character that is no flag is not taken for one. -/
theorem parseFlag_eq_none (fs : FormatSpec) {c : Char} (h : Flag.ofChar c = none) : parseFlag fs c = none := by
  unfold parseFlag
  split <;> first | rfl | cases h

/-- A flag is found by its character. -/
theorem ofChar_eq_some {c : Char} {f : Flag} (h : Flag.ofChar c = some f) : f.char = c := by
  unfold Flag.ofChar at h
  split at h <;> cases h <;> rfl

/-- Flags are read one after another, up to a character that is none. -/
theorem parseFlags_flags (F G : List Flag) (h : Stops (fun c => (Flag.ofChar c).isSome) r) :
    parseFlags (flagged G) (F.map Flag.char ++ r) = (flagged (G ++ F), r) := by
  induction F generalizing G with
  | nil =>
      rw [List.map_nil, List.nil_append, List.append_nil]
      cases r with
      | nil => rfl
      | cons c r =>
          have hc := Option.not_isSome_iff_eq_none.mp (Bool.eq_false_iff.mp (stops_cons.mp h))
          rw [parseFlags, parseFlag_eq_none _ hc]
  | cons f F ih =>
      rw [List.map_cons, List.cons_append, parseFlags, parseFlag_flagged]
      dsimp only
      rw [ih, List.append_assoc]
      rfl

/-- Flags, and a text that begins with none. -/
theorem exists_flags (l : List Char) :
    ∃ (F : List Flag) (r : List Char), l = F.map Flag.char ++ r ∧ Stops (fun c => (Flag.ofChar c).isSome) r := by
  obtain ⟨t, r, rfl, ht, hr⟩ := exists_stops (fun c => (Flag.ofChar c).isSome) l
  refine ⟨t.filterMap Flag.ofChar, r, ?_, hr⟩
  congr 1
  induction t with
  | nil => rfl
  | cons c t ih =>
      obtain ⟨f, hf⟩ := Option.isSome_iff_exists.mp (ht c List.mem_cons_self)
      rw [List.filterMap_cons_some hf, List.map_cons, ofChar_eq_some hf,
        ← ih fun c hc => ht c (List.mem_cons_of_mem _ hc)]

/-! ## Numbers -/

/-- A number that is read on does not get smaller. -/
theorem le_ofDigitChars (l : List Char) (n : ℕ) : n ≤ Nat.ofDigitChars 10 l n := by
  induction l generalizing n with
  | nil => exact Nat.le_of_eq Nat.ofDigitChars_nil.symm
  | cons c l ih =>
      rw [Nat.ofDigitChars_cons]
      exact Nat.le_trans (by omega) (ih _)

/-- The digits of a number are read, as far as the number is an `int`. -/
theorem parseDigits_eq (h : ∀ c ∈ l, c.isDigit) (hr : Stops Char.isDigit r) (hn : n < 2 ^ 31) :
    parseDigits n (l ++ r) =
      if Nat.ofDigitChars 10 l n < 2 ^ 31 then some (Nat.ofDigitChars 10 l n, r) else none := by
  induction l generalizing n with
  | nil =>
      rw [List.nil_append, Nat.ofDigitChars_nil, if_pos hn]
      cases r with
      | nil => rfl
      | cons c r =>
          rw [parseDigits, if_neg]
          rw [stops_cons.mp hr]
          decide
  | cons c l ih =>
      rw [List.cons_append, parseDigits, if_pos (h c List.mem_cons_self), Nat.ofDigitChars_cons, Nat.mul_comm n]
      by_cases hlt : 10 * n + (c.toNat - '0'.toNat) < 2 ^ 31
      · rw [if_pos hlt]
        exact ih (fun c hc => h c (List.mem_cons_of_mem _ hc)) hlt
      · rw [if_neg hlt, if_neg]
        -- a number that is too large stays so with more digits
        exact fun hle => hlt (Nat.lt_of_le_of_lt (le_ofDigitChars l _) hle)

/-! ## The parts of a directive -/

/-- A text that does not go on with the field width before it. -/
def Width.Stops : Width → List Char → Prop
  | none, l => Npf.Stops (fun c => c = '*' || c.isDigit) l
  | star, _ => True
  | number _ _, l => Npf.Stops Char.isDigit l

/-- What the field width sets. -/
def Width.set (w : Width) (fs : FormatSpec) : FormatSpec := { fs with fieldWidthOpt := w.opt, fieldWidth := w.value }

/-- A width is read if it is an `int`. -/
theorem parseFieldWidth_width (w : Width) (hfs : fs.fieldWidth = 0) (h : w.Stops r) :
    parseFieldWidth fs (w.chars ++ r) = if w.value < 2 ^ 31 then some (w.set fs, r) else none := by
  cases w with
  | none =>
      have hdigit : Stops Char.isDigit r := fun c hc => (Bool.or_eq_false_iff.mp (h c hc)).2
      have hread := parseDigits_eq (l := []) nofun hdigit (n := 0) (by decide)
      have hhead : r.head?.any Char.isDigit = false := by
        cases r with
        | nil => rfl
        | cons c r => exact stops_cons.mp hdigit
      rw [List.nil_append, Nat.ofDigitChars_nil, if_pos (by decide)] at hread
      unfold parseFieldWidth
      rw [Width.chars, List.nil_append]
      split
      · next heq => exact absurd (stops_cons.mp h) (by decide)
      · rw [hread, hhead]
        rfl
  -- `*` takes the width from an argument, nothing is read here
  | star =>
      obtain ⟨⟩ := fs
      cases hfs
      rfl
  | number d hd =>
      obtain ⟨l, hl⟩ := d
      have hread := parseDigits_eq hl h (n := 0) (by decide)
      obtain ⟨c, l, rfl⟩ : ∃ c t, l = c :: t := by
        cases l with
        | nil => cases hd
        | cons c t => exact ⟨c, t, rfl⟩
      -- a number begins with a digit, which is not `*`
      have hc := hl c List.mem_cons_self
      unfold parseFieldWidth
      simp only [Width.chars, List.cons_append] at hread ⊢
      split
      · next heq =>
          cases heq
          cases hc
      · rw [hread, List.head?_cons, Option.any_some, if_pos hc]
        exact apply_ite (Option.map _) _ _ _

/-- A field width, and a text that does not go on with it. -/
theorem exists_width (h : Stops (fun c => (Flag.ofChar c).isSome) l) :
    ∃ (w : Width) (r : List Char), l = w.chars ++ r ∧ w.Stops r := by
  obtain ⟨t, r, rfl, ht, hr⟩ := exists_stops Char.isDigit l
  cases t with
  | nil =>
      rcases Decidable.em (r.head? = some '*') with hstar | hstar
      · obtain ⟨r, rfl⟩ := List.head?_eq_some_iff.mp hstar
        exact ⟨.star, r, rfl, trivial⟩
      · refine ⟨.none, r, rfl, fun c hc => ?_⟩
        have hne : c ≠ '*' := fun heq => hstar (heq ▸ hc)
        simp [hne, hr c hc]
  | cons c t =>
      refine ⟨.number ⟨c :: t, ht⟩ ?_, r, rfl, hr⟩
      have hc := h c rfl
      -- a 0 at the beginning would be a flag
      refine decide_eq_true ?_
      rintro rfl
      cases hc

/-- A text that does not go on with the precision before it. -/
def Precision.Stops : Precision → List Char → Prop
  | none, l => Npf.Stops (· = '.') l
  | star, _ => True
  | number d, l => Npf.Stops Char.isDigit l ∧ (d.chars = [] → Npf.Stops (fun c => c = '*' || c = '-') l)
  | negative _, l => Npf.Stops Char.isDigit l

/-- What the precision sets. -/
def Precision.set (p : Precision) (fs : FormatSpec) : FormatSpec := { fs with precOpt := p.opt, prec := p.value }

/-- A precision is read if it is an `int`. -/
theorem parsePrec_precision (p : Precision) (fs : FormatSpec) (h : p.Stops r) :
    parsePrec fs (p.chars ++ r) = if p.value < 2 ^ 31 then some (p.set fs, r) else none := by
  cases p with
  | none =>
      unfold parsePrec
      rw [Precision.chars, List.nil_append]
      split
      · exact absurd (stops_cons.mp h) (by decide)
      · exact absurd (stops_cons.mp h) (by decide)
      · exact absurd (stops_cons.mp h) (by decide)
      · rfl
  | star => rfl
  | number d =>
      obtain ⟨l, hl⟩ := d
      have hread := parseDigits_eq hl h.1 (n := 0) (by decide)
      -- the other branches need one of these behind the dot
      have hsign : ∀ c t, l ++ r = c :: t → c ≠ '*' ∧ c ≠ '-' := by
        intro c t heq
        cases l with
        | nil =>
            rw [List.nil_append] at heq
            have hc := stops_cons.mp (heq ▸ h.2 rfl)
            simpa using hc
        | cons c' l =>
            cases heq
            have hc := hl c List.mem_cons_self
            constructor <;> rintro rfl <;> cases hc
      unfold parsePrec
      rw [Precision.chars, List.cons_append]
      split
      · next heq => exact absurd rfl (hsign _ _ (List.cons.inj heq).2).1
      · next heq => exact absurd rfl (hsign _ _ (List.cons.inj heq).2).2
      · next heq =>
          rw [← (List.cons.inj heq).2, hread]
          exact apply_ite (Option.map _) _ _ _
      · next hno => exact absurd rfl (hno _)
  | negative d =>
      have hread := parseDigits_eq d.isDigit h (n := 0) (by decide)
      have hparse : parsePrec fs ((Precision.negative d).chars ++ r) =
          (parseDigits 0 (d.chars ++ r)).map fun x => ({ fs with prec := x.1, precOpt := .none }, x.2) := rfl
      rw [hparse, hread]
      exact apply_ite (Option.map _) _ _ _

/-- A precision, and a text that does not go on with it. -/
theorem exists_precision (l : List Char) : ∃ (p : Precision) (r : List Char), l = p.chars ++ r ∧ p.Stops r := by
  rcases Decidable.em (l.head? = some '.') with hdot | hdot
  · obtain ⟨l, rfl⟩ := List.head?_eq_some_iff.mp hdot
    obtain ⟨t, r, rfl, ht, hr⟩ := exists_stops Char.isDigit l
    cases t with
    | cons c t => exact ⟨.number ⟨c :: t, ht⟩, r, rfl, hr, nofun⟩
    | nil =>
        rcases Decidable.em (r.head? = some '*') with hstar | hstar
        · obtain ⟨r, rfl⟩ := List.head?_eq_some_iff.mp hstar
          exact ⟨.star, r, rfl, trivial⟩
        rcases Decidable.em (r.head? = some '-') with hminus | hminus
        · obtain ⟨r, rfl⟩ := List.head?_eq_some_iff.mp hminus
          obtain ⟨t, r, rfl, ht, hr⟩ := exists_stops Char.isDigit r
          exact ⟨.negative ⟨t, ht⟩, r, rfl, hr⟩
        · refine ⟨.number ⟨[], nofun⟩, r, rfl, hr, fun _ c hc => ?_⟩
          have hne : c ≠ '*' := fun heq => hstar (heq ▸ hc)
          have hne' : c ≠ '-' := fun heq => hminus (heq ▸ hc)
          simp [hne, hne']
  · refine ⟨.none, l, rfl, fun c hc => ?_⟩
    have hne : c ≠ '.' := fun heq => hdot (heq ▸ hc)
    simpa using hne

/-- A length modifier, and a text that does not go on with it. -/
theorem exists_modifier (l : List Char) :
    ∃ m r, m ≠ LengthModifier.longDouble ∧ l = m.chars ++ r ∧ parseLengthModifier l = (m, r) := by
  unfold parseLengthModifier
  split
  · exact ⟨.char, _, nofun, rfl, rfl⟩
  · exact ⟨.short, _, nofun, rfl, rfl⟩
  · exact ⟨.largeLongLong, _, nofun, rfl, rfl⟩
  · exact ⟨.long, _, nofun, rfl, rfl⟩
  · exact ⟨.largeIntmax, _, nofun, rfl, rfl⟩
  · exact ⟨.largeSizet, _, nofun, rfl, rfl⟩
  · exact ⟨.largePtrdifft, _, nofun, rfl, rfl⟩
  · exact ⟨.none, _, nofun, rfl, rfl⟩

/-- A length modifier is read, with the specifier behind it. -/
theorem parseLengthModifier_modifier {m : LengthModifier} (h : m ≠ .longDouble) (k : Specifier) (rest : List Char) :
    parseLengthModifier (m.chars ++ k.char :: rest) = (m, k.char :: rest) := by
  cases m <;> first | exact absurd rfl h | skip
  all_goals cases k <;> rfl

/-- What the specifier sets. -/
def Specifier.set (k : Specifier) (fs : FormatSpec) : FormatSpec :=
  { fs with
    leadingZeroPad := k != .s && fs.leadingZeroPad
    precOpt := if k.dropsPrec then .none else fs.precOpt
    convSpec := k.conversion
    caseAdjust := if k.upper then 0 else fs.caseAdjust }

/-- A specifier is read. -/
theorem parseConversion_specifier (fs : FormatSpec) (k : Specifier) : parseConversion fs k.char = some (k.set fs) := by
  cases k <;> rfl

/-- What is read as a conversion is the character of a specifier. -/
theorem parseConversion_eq_some {c : Char} (h : parseConversion fs c = some fs') :
    ∃ k : Specifier, c = k.char ∧ fs' = k.set fs := by
  have hk : ∃ k : Specifier, c = k.char := by
    unfold parseConversion at h
    split at h
    · exact ⟨.percent, rfl⟩
    · exact ⟨.c, rfl⟩
    · exact ⟨.s, rfl⟩
    · exact ⟨.i, rfl⟩
    · exact ⟨.d, rfl⟩
    · exact ⟨.o, rfl⟩
    · exact ⟨.u, rfl⟩
    · exact ⟨.X, rfl⟩
    · exact ⟨.x, rfl⟩
    · exact ⟨.p, rfl⟩
    · exact ⟨.B, rfl⟩
    · exact ⟨.b, rfl⟩
    · cases h
  obtain ⟨k, rfl⟩ := hk
  rw [parseConversion_specifier] at h
  exact ⟨k, rfl, (Option.some.inj h).symm⟩

/-! ## Directives -/

/-- What is read of the parts of a directive, whatever is behind them. -/
theorem parse_parts {m : LengthModifier} {t : List Char} (hF : Stops (fun c => (Flag.ofChar c).isSome) (w.chars ++ r))
    (hr : r = p.chars ++ t) (hw : w.Stops r) (hp : p.Stops t) (hm : parseLengthModifier t = (m, rest)) :
    npfParseFormatSpec (F.map Flag.char ++ (w.chars ++ r)) =
      if w.value < 2 ^ 31 ∧ p.value < 2 ^ 31 then
        match rest with
        | [] => some none
        | c :: rest => some ((parseConversion { p.set (w.set (flagged F)) with lengthModifier := m } c).map
            fun fs => (fs, rest))
      else none := by
  -- the parts in the order of the source, each one stops where the next begins
  have hflags := parseFlags_flags F [] hF
  have hwidth : parseFieldWidth (flagged F) (w.chars ++ r) =
      if w.value < 2 ^ 31 then some (w.set (flagged F), r) else none := parseFieldWidth_width w rfl hw
  have hprec := parsePrec_precision p (w.set (flagged F)) hp
  have hinit : flagged [] = .initial := rfl
  rw [hinit, List.nil_append] at hflags
  unfold npfParseFormatSpec
  rw [hflags]
  dsimp only
  rw [hwidth]
  by_cases hlt : w.value < 2 ^ 31
  · rw [if_pos hlt, Option.bind_some, hr]
    dsimp only
    rw [hprec]
    by_cases hlt' : p.value < 2 ^ 31
    · rewrite [if_pos hlt', if_pos ⟨hlt, hlt'⟩, Option.bind_some, hm]
      rfl
    · rw [if_neg hlt', if_neg fun h => hlt' h.2]
      rfl
  · rw [if_neg hlt, if_neg fun h => hlt h.1]
    rfl

namespace Directive

variable (d : Directive) (rest)

/-- The parts that a directive is written with, and what is behind it. -/
theorem chars_append : d.chars ++ rest = d.flags.map Flag.char ++
    (d.width.chars ++ (d.precision.chars ++ (d.modifier.chars ++ d.specifier.char :: rest))) := by
  simp only [chars, List.append_assoc, List.singleton_append]

/-- How a text may go on behind the precision. -/
theorem head_modifier {c : Char} (h : c ∈ (d.modifier.chars ++ d.specifier.char :: rest).head?) :
    c ∈ "hljzt%csidouXxpBb".toList := by
  have hmodifier : ∀ m : LengthModifier, m.chars ⊆ "hljzt%csidouXxpBb".toList := by
    intro m
    cases m <;> simp [LengthModifier.chars]
  have hspecifier : ∀ k : Specifier, k.char ∈ "hljzt%csidouXxpBb".toList := by
    intro k
    cases k <;> decide
  cases hm : d.modifier.chars with
  | nil =>
      rw [hm] at h
      exact Option.some.inj h ▸ hspecifier d.specifier
  | cons c' t =>
      rw [hm] at h
      exact Option.some.inj h ▸ hmodifier d.modifier (hm ▸ List.mem_cons_self)

/-- And behind the width. -/
theorem head_precision {c : Char}
    (h : c ∈ (d.precision.chars ++ (d.modifier.chars ++ d.specifier.char :: rest)).head?) :
    c ∈ ".hljzt%csidouXxpBb".toList := by
  have hmodifier := d.head_modifier rest (c := c)
  cases hp : d.precision with
  | none =>
      rw [hp] at h
      exact List.mem_cons_of_mem _ (hmodifier h)
  | _ =>
      rw [hp] at h
      exact Option.some.inj h ▸ List.mem_cons_self

/-- Behind a width there is no character of it. -/
theorem width_stops : d.width.Stops (d.precision.chars ++ (d.modifier.chars ++ d.specifier.char :: rest)) := by
  have hall : ∀ c ∈ ".hljzt%csidouXxpBb".toList, (decide (c = '*') || c.isDigit) = false :=
    forall_eq_false (by decide)
  cases hw : d.width with
  | none => exact fun c hc => hall c (d.head_precision rest hc)
  | star => trivial
  | number _ _ => exact fun c hc => (Bool.or_eq_false_iff.mp (hall c (d.head_precision rest hc))).2

/-- Behind a precision there is no character of it. -/
theorem precision_stops : d.precision.Stops (d.modifier.chars ++ d.specifier.char :: rest) := by
  have hall : ∀ c ∈ "hljzt%csidouXxpBb".toList, (c.isDigit || (decide (c = '.') ||
      (decide (c = '*') || decide (c = '-')))) = false := forall_eq_false (by decide)
  have hhead : ∀ c ∈ (d.modifier.chars ++ d.specifier.char :: rest).head?, c.isDigit = false ∧
      decide (c = '.') = false ∧ (decide (c = '*') || decide (c = '-')) = false := by
    intro c hc
    have hc := Bool.or_eq_false_iff.mp (hall c (d.head_modifier rest hc))
    exact ⟨hc.1, Bool.or_eq_false_iff.mp hc.2⟩
  cases hp : d.precision with
  | none => exact fun c hc => (hhead c hc).2.1
  | star => trivial
  | number _ => exact ⟨fun c hc => (hhead c hc).1, fun _ c hc => (hhead c hc).2.2⟩
  | negative _ => exact fun c hc => (hhead c hc).1

/-- Behind the flags there is none. -/
theorem flags_stop : Stops (fun c => (Flag.ofChar c).isSome)
    (d.width.chars ++ (d.precision.chars ++ (d.modifier.chars ++ d.specifier.char :: rest))) := by
  have hall : ∀ c ∈ ".hljzt%csidouXxpBb".toList, (Flag.ofChar c).isSome = false :=
    forall_eq_false (by decide)
  cases hw : d.width with
  | none => exact fun c hc => hall c (d.head_precision rest hc)
  | star => exact stops_cons.mpr rfl
  | number digits hd =>
      obtain ⟨l, hl⟩ := digits
      cases l with
      | nil => cases hd
      | cons c l =>
          have hc := hl c List.mem_cons_self
          have hne : c ≠ '0' := of_decide_eq_true hd
          refine stops_cons.mpr ?_
          unfold Flag.ofChar
          split <;> first | exact absurd rfl hne | cases hc | rfl

/-- What the parts of a directive set. -/
theorem spec_eq (d : Directive) : d.spec = d.specifier.set
    { d.precision.set (d.width.set (flagged d.flags)) with lengthModifier := d.modifier } := by
  obtain ⟨F, w, p, m, hm, k⟩ := d
  cases k <;> rfl

/-- **A directive is read up to its end**, if its numbers are not too large. -/
theorem parse_directive :
    npfParseFormatSpec (d.chars ++ rest) = if d.InRange then some (some (d.spec, rest)) else none := by
  rw [chars_append, parse_parts (d.flags_stop rest) rfl (d.width_stops rest) (d.precision_stops rest)
    (parseLengthModifier_modifier d.modifier_ne d.specifier rest)]
  unfold InRange
  dsimp only
  rw [parseConversion_specifier, Option.map_some, ← spec_eq]
  rfl

end Directive

/-- What is read is a directive. -/
theorem exists_directive (h : npfParseFormatSpec l = some (some (fs, rest))) :
    ∃ d : Directive, l = d.chars ++ rest := by
  -- each part goes as far as it can
  obtain ⟨F, l₁, rfl, hF⟩ := exists_flags l
  obtain ⟨w, l₂, rfl, hw⟩ := exists_width hF
  obtain ⟨p, l₃, rfl, hp⟩ := exists_precision l₂
  obtain ⟨m, l₄, hm, rfl, hparse⟩ := exists_modifier l₃
  rw [parse_parts hF rfl hw hp hparse] at h
  split at h
  · cases l₄ with
    | nil => cases h
    | cons c l₅ =>
        obtain ⟨⟨fs', rest'⟩, hconv, heq⟩ := Option.map_eq_some_iff.mp (Option.some.inj h)
        cases heq
        obtain ⟨k, rfl, -⟩ := parseConversion_eq_some hconv
        let d : Directive := ⟨F, w, p, m, hm, k⟩
        exact ⟨d, (d.chars_append _).symm⟩
  · cases h

/-- **Directives are what `npf_parse_format_spec` reads**: for every text behind a `%`, it returns a directive and
where it ends, if and only if the text begins with one and its numbers have the type `int`. -/
theorem parse_iff : npfParseFormatSpec l = some (some (fs, rest)) ↔
    ∃ d : Directive, d.InRange ∧ l = d.chars ++ rest ∧ fs = d.spec := by
  constructor
  · intro h
    obtain ⟨d, rfl⟩ := exists_directive h
    rw [d.parse_directive rest] at h
    split at h
    · next hrange =>
        cases h
        exact ⟨d, hrange, rfl, rfl⟩
    · cases h
  · rintro ⟨d, hrange, rfl, rfl⟩
    rw [d.parse_directive rest, if_pos hrange]

end Scalux.Npf
