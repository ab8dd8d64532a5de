import Mathlib.Algebra.Order.Ring.Int
import Mathlib.Algebra.Order.Ring.Nat
import Scalux.Lib.Numerals
import Scalux.Libkern.NanoprintfDirective
import Scalux.Libkern.NanoprintfText

/-! # Numbers in a text

The conversions for integers print a number in their base, and it can be read back from the text, whatever the flags,
the width, the precision and the length modifier are.

* **`npfUtoaRev_reverse`**, **`npfItoaRev_reverse`**, **`bits_npfBinLen`**: the digits of a number.
* **`convert_integer`**: what is written to `cbuf_mem` fits.
* **`number_reads`**: the number that is read in the text of a directive. -/

namespace Scalux.Npf

variable {b n k d : ℕ} {upper : Bool}

/-! ## Digits -/

/-- The character that `npf_utoa_rev` computes for a digit. -/
theorem toChar_digit (upper : Bool) (hd : d < 16) :
    toChar (if d < 10 then '0'.toNat + d else 'A'.toNat + (if upper then 0 else 32) + (d - 10)) = digitOf upper d := by
  have h : ∀ upper, ∀ d < 16, toChar (if d < 10 then '0'.toNat + d else 'A'.toNat + (if upper then 0 else 32) +
      (d - 10)) = digitOf upper d := by decide
  exact h upper d hd

/-- The loop writes the digits of the numeral, from the end. -/
theorem utoaRevLoop_reverse (upper : Bool) (hb : 1 < b) (hb' : b ≤ 16) (h : n < b ^ (k + 1)) :
    (utoaRevLoop b (if upper then 0 else 32) (k + 1) n).reverse = numeral upper b n := by
  induction k generalizing n with
  | zero =>
      rw [Nat.zero_add, Nat.pow_one] at h
      rw [utoaRevLoop, Nat.mod_eq_of_lt h, if_pos (Nat.div_eq_of_lt h), numeral_of_lt upper h]
      exact congrArg (fun c => [c]) (toChar_digit upper (Nat.lt_of_lt_of_le h hb'))
  | succ k ih =>
      have hmod : n % b < b := Nat.mod_lt _ (by omega)
      rw [utoaRevLoop, toChar_digit upper (Nat.lt_of_lt_of_le hmod hb'), List.reverse_cons]
      -- the last round is that of the first digit
      rcases Nat.lt_or_ge n b with hlt | hge
      · rw [if_pos (Nat.div_eq_of_lt hlt), numeral_of_lt upper hlt, Nat.mod_eq_of_lt hlt]
        rfl
      · have hpos : n / b ≠ 0 := (Nat.div_pos hge (by omega)).ne'
        have hdiv : n / b < b ^ (k + 1) := by
          rw [Nat.div_lt_iff_lt_mul (by omega), ← Nat.pow_succ]
          exact h
        rw [if_neg hpos, ih hdiv, numeral_of_le upper hb hge]

/-- The digits of a number of 64 bits, in any base that is printed. -/
theorem npfUtoaRev_reverse (upper : Bool) (hb : 1 < b) (hb' : b ≤ 16) (h : n < 2 ^ 64) :
    (npfUtoaRev n b (if upper then 0 else 32)).reverse = numeral upper b n :=
  utoaRevLoop_reverse upper hb hb' (Nat.lt_of_lt_of_le h (Nat.pow_le_pow_left hb 64))

/-- Rounds of `npf_itoa_rev`, on a number or what is below 0 by it, are rounds of `npf_utoa_rev`. -/
theorem itoaRevLoop_eq {s : ℤ} (hs : s = 1 ∨ s = -1) (k n : ℕ) :
    itoaRevLoop s k (s * n) = utoaRevLoop 10 32 k n := by
  induction k generalizing n with
  | zero => rfl
  | succ k ih =>
      -- quotients are rounded towards 0 on both sides of it
      have hdiv : (s * (n : ℤ)).tdiv 10 = s * ((n / 10 : ℕ) : ℤ) := by
        rcases hs with rfl | rfl
        · rw [Int.one_mul, Int.one_mul]
          rfl
        · rw [Int.neg_one_mul, Int.neg_one_mul, Int.neg_tdiv]
          rfl
      have hmod : s * (s * (n : ℤ)).tmod 10 = ((n % 10 : ℕ) : ℤ) := by
        rcases hs with rfl | rfl
        · rw [Int.one_mul, Int.one_mul]
          rfl
        · rw [Int.neg_one_mul, Int.neg_one_mul, Int.neg_tmod, Int.neg_neg]
          rfl
      have hzero : s * ((n / 10 : ℕ) : ℤ) = 0 ↔ n / 10 = 0 := by
        rcases hs with rfl | rfl <;> omega
      have hlt : n % 10 < 10 := Nat.mod_lt _ (by decide)
      rw [itoaRevLoop, utoaRevLoop, hdiv, hmod, ih, if_pos hlt]
      congr 1
      exact if_congr hzero rfl rfl

/-- The digits of a number of 64 bits with a sign. -/
theorem npfItoaRev_reverse {i : ℤ} (h : i.natAbs < 2 ^ 64) :
    (npfItoaRev i).reverse = numeral false 10 i.natAbs := by
  have hdigits : (utoaRevLoop 10 32 64 i.natAbs).reverse = numeral false 10 i.natAbs :=
    npfUtoaRev_reverse false (by decide) (by decide) h
  rw [← hdigits]
  unfold npfItoaRev
  split
  · have heq := itoaRevLoop_eq (.inl rfl) 64 i.natAbs
    rw [Int.one_mul, Int.natAbs_of_nonneg ‹_›] at heq
    rw [heq]
  · have hneg : (-1 : ℤ) * (i.natAbs : ℤ) = i := by omega
    have heq := itoaRevLoop_eq (.inr rfl) 64 i.natAbs
    rw [hneg] at heq
    rw [heq]

/-- As many bits are written as there are. -/
theorem length_bits (v k : ℕ) : (Converted.bits v k).length = k := by
  induction k with
  | zero => rfl
  | succ k ih => rw [Converted.bits, List.length_cons, ih]

/-- The last digit of a binary number. -/
theorem bits_succ (v k : ℕ) (upper : Bool) :
    Converted.bits v (k + 1) = Converted.bits (v / 2) k ++ [digitOf upper (v % 2)] := by
  induction k with
  | zero =>
      have hdigit : ∀ upper, ∀ d < 2, toChar ('0'.toNat + d) = digitOf upper d := by decide
      have hbit : v >>> 0 &&& 1 = v % 2 := Nat.and_one_is_mod v
      change [toChar ('0'.toNat + (v >>> 0 &&& 1))] = [digitOf upper (v % 2)]
      rw [hbit, hdigit upper _ (Nat.mod_lt _ (by decide))]
  | succ k ih =>
      have hshift : v >>> (k + 1) = (v / 2) >>> k := by
        rw [Nat.shiftRight_add, Nat.shiftRight_eq_div_pow, Nat.shiftRight_eq_div_pow, Nat.shiftRight_eq_div_pow,
          Nat.div_div_eq_div_mul, Nat.div_div_eq_div_mul, Nat.mul_comm]
      rw [Converted.bits, hshift, ih, Converted.bits]
      rfl

/-- The digits of a binary number. -/
theorem bits_npfBinLen (upper : Bool) (v : ℕ) : Converted.bits v (npfBinLen v) = numeral upper 2 v := by
  induction v using numeral_induction (b := 2) (by decide) with
  | hlt v hv =>
      have hone : ∀ upper, ∀ v < 2, Converted.bits v (npfBinLen v) = [digitOf upper v] := by decide
      rw [numeral_of_lt upper hv, hone upper v hv]
  | hle v hv ih =>
      have hlen : npfBinLen v = npfBinLen (v / 2) + 1 := by
        have hne : v / 2 ≠ 0 := by omega
        unfold npfBinLen
        rw [if_neg (by omega), if_neg hne, Nat.log2_def, if_pos hv]
      rw [hlen, bits_succ v _ upper, ih, numeral_of_le upper (by decide) hv]

/-! ## Conversions -/

/-- The conversions that print an integer. -/
def Conversion.isInteger : Conversion → Bool
  | .signedInt | .binary | .octal | .hexInt | .unsignedInt => true
  | _ => false

/-- The base that a conversion prints in. -/
def Conversion.radix : Conversion → ℕ
  | .binary => 2
  | c => c.base

/-- **The value of an argument**, as a number of the type that the length modifier stands for. -/
def FormatSpec.value (fs : FormatSpec) (w : BitVec 64) : ℤ :=
  if fs.convSpec = .signedInt then (w.setWidth fs.lengthModifier.bits).toInt
  else (w.setWidth fs.lengthModifier.bits).toNat

/-- The digits that are put. -/
def Converted.digits (c : Converted) : List Char :=
  if c.fs.convSpec = .binary then Converted.bits c.binval c.cbufLen else (c.cbuf.take c.cbufLen).reverse

/-- What is made of an integer: its digits, which are all there are unless nothing is printed, and what goes before
them. -/
structure Prints (fs : FormatSpec) (v : ℤ) (c : Converted) : Prop where
  spec : c.fs = { fs with prec := c.fs.prec }
  prec : c.fs.prec = fs.prec ∨ c.fs.prec = 1
  fits : c.cbuf.length ≤ 32
  length : c.digits.length = c.cbufLen
  length_le : c.cbufLen ≤ 64
  isDigit : ∀ x ∈ c.digits, isDigitIn fs.convSpec.radix x
  value : ofNumeral fs.convSpec.radix c.digits = v.natAbs
  zero : c.zero = decide (v = 0)
  nil : c.digits = [] → fs.skips v ∧ (fs.convSpec = .octal ∧ fs.altForm → c.fs.prec = 1)
  head : Head fs.convSpec.radix (if v < 0 then -1 else 1) (c.zeroX ++ c.signC.toList)
  single : c.zeroX = [] ∨ c.signC = none

variable {fs : FormatSpec} {w : BitVec 64} {args rest : List Arg} {c : Converted} {v : ℤ} {n : ℕ}

/-- No length modifier is for more than 64 bits. -/
theorem bits_le (m : LengthModifier) : m.bits ≤ 64 := by cases m <;> decide

/-- A number of 64 bits has at most 22 digits, to base 8 or more. -/
theorem length_numeral_le_22 {b : ℕ} (upper : Bool) (hb : 8 ≤ b) (h : n < 2 ^ 64) :
    (numeral upper b n).length ≤ 22 := by
  refine length_numeral_le upper (by omega) (by decide) (Nat.lt_of_lt_of_le h ?_)
  exact Nat.le_trans (by decide) (Nat.pow_le_pow_left hb 22)

/-- A signed integer. -/
theorem prints_signed (hconv : fs.convSpec = .signedInt) (hsign : ∀ x ∈ fs.prepend, x = '+' ∨ x = ' ')
    (hv : v.natAbs < 2 ^ 64) : Prints fs v (convertSigned fs v) := by
  have hrev := npfItoaRev_reverse hv
  have hlen := length_numeral_le_22 false (show 8 ≤ 10 by decide) hv
  have hlen' : (npfItoaRev v).length ≤ 22 := by
    rw [← List.length_reverse, hrev]
    exact hlen
  have hradix : fs.convSpec.radix = 10 := by rw [hconv]; rfl
  have hdigits : (convertSigned fs v).digits = if fs.skips v then [] else numeral false 10 v.natAbs := by
    unfold Converted.digits convertSigned
    rw [if_neg (by rw [hconv]; decide), List.take_length]
    split
    · rfl
    · exact hrev
  -- nothing is put only for 0
  have hvalue : fs.skips v → v.natAbs = 0 := by
    intro hs
    unfold FormatSpec.skips at hs
    simp only [Bool.and_eq_true, decide_eq_true_eq] at hs
    rw [hs.1.1]
    rfl
  refine ⟨rfl, .inl rfl, ?_, ?_, ?_, ?_, ?_, rfl, ?_, ?_, .inl rfl⟩
  · unfold convertSigned
    dsimp only
    split
    · exact Nat.zero_le _
    · omega
  · rw [hdigits]
    unfold convertSigned
    dsimp only
    split
    · rfl
    · rw [← hrev, List.length_reverse]
  · unfold convertSigned
    dsimp only
    split
    · exact Nat.zero_le _
    · omega
  · rw [hdigits, hradix]
    split
    · exact fun _ hx => absurd hx List.not_mem_nil
    · exact fun x hx => isDigitIn_of_mem (by decide) (by decide) hx
  · rw [hdigits, hradix]
    split
    · next hs => exact (hvalue hs).symm
    · exact ofNumeral_numeral false (by decide) (by decide) _
  · rw [hdigits]
    intro hnil
    split at hnil
    · next hs => exact ⟨hs, fun ho => by rw [hconv] at ho; cases ho.1⟩
    · exact absurd hnil (numeral_ne_nil _ _ _)
  · unfold convertSigned Converted.zeroX
    dsimp only
    rw [List.nil_append]
    split
    · exact .minus
    · cases hp : fs.prepend with
      | none => exact .plain
      | some x =>
          rcases hsign x hp with rfl | rfl
          · exact .plus
          · exact .blank

/-- A number that is skipped. -/
theorem convertUnsigned_skips (h : fs.skips n) : convertUnsigned fs n =
    { fs := if fs.convSpec = .octal ∧ fs.altForm then { fs with prec := 1 } else fs, cbuf := [], cbufLen := 0,
      zero := true } := by
  have hn : n = 0 := by
    unfold FormatSpec.skips at h
    simp only [Bool.and_eq_true, decide_eq_true_eq] at h
    exact_mod_cast h.1.1
  subst hn
  unfold convertUnsigned
  simp only [h, if_true, ne_eq, not_true_eq_false, false_and, if_false, decide_true]
  split <;> rfl

/-- What is made of a number whose digits are written to `cbuf_mem`, with `l` behind the last one. -/
def writtenDigits (fs : FormatSpec) (n : ℕ) (l : List Char) (need0x : Option Char) : Converted where
  fs := fs
  cbuf := npfUtoaRev n fs.convSpec.base fs.caseAdjust ++ l
  need0x := need0x
  zero := n = 0

/-- What is made of a number whose digits are in `binval`. -/
def binaryDigits (fs : FormatSpec) (n : ℕ) (need0x : Option Char) : Converted where
  fs := fs
  cbufLen := npfBinLen n
  binval := n
  need0x := need0x
  zero := n = 0

/-- Digits that are written with zeros before them print the number. -/
theorem prints_writtenDigits {upper : Bool} (hbin : fs.convSpec ≠ .binary)
    (hcase : fs.caseAdjust = if upper then 0 else 32) (hn : n < 2 ^ 64)
    {l : List Char} {need0x : Option Char} (hl : l = [] ∨ l = ['0'])
    (hx : need0x = none ∨ ∃ x, need0x = some x ∧ isPrefixOf fs.convSpec.radix x) :
    Prints fs n (writtenDigits fs n l need0x) := by
  have hradix : fs.convSpec.radix = fs.convSpec.base := by
    cases hc : fs.convSpec <;> first | rfl | exact absurd hc hbin
  have hbase : 8 ≤ fs.convSpec.base ∧ fs.convSpec.base ≤ 16 := by
    cases fs.convSpec <;> decide
  -- the buffer holds the digits from the last to the first
  have hrev : (npfUtoaRev n fs.convSpec.base fs.caseAdjust).reverse = numeral upper fs.convSpec.base n := by
    rw [hcase]
    exact npfUtoaRev_reverse upper (by omega) hbase.2 hn
  have hlen : (npfUtoaRev n fs.convSpec.base fs.caseAdjust).length ≤ 22 := by
    rw [← List.length_reverse, hrev]
    exact length_numeral_le_22 upper hbase.1 hn
  have hll : l.length ≤ 1 := by rcases hl with rfl | rfl <;> decide
  have hlr : l.reverse = l := by rcases hl with rfl | rfl <;> rfl
  -- the zero of the alternate octal form stands before the numeral
  have hdigits : (writtenDigits fs n l need0x).digits = l ++ numeral upper fs.convSpec.base n := by
    unfold Converted.digits writtenDigits
    rw [if_neg hbin, List.take_length, List.reverse_append, hrev, hlr]
  have hsum : (writtenDigits fs n l need0x).cbufLen ≤ 23 := by
    change (npfUtoaRev n fs.convSpec.base fs.caseAdjust ++ l).length ≤ 23
    rw [List.length_append]
    omega
  refine ⟨rfl, .inl rfl, Nat.le_trans hsum (by decide), ?_, Nat.le_trans hsum (by decide), ?_, ?_, ?_, ?_, ?_, .inr rfl⟩
  · rw [hdigits, ← hrev, List.length_append, List.length_reverse, Nat.add_comm]
    exact List.length_append.symm
  · rw [hdigits, hradix]
    intro x hx
    rcases List.mem_append.mp hx with hx | hx
    · rcases hl with rfl | rfl
      · cases hx
      · have hzero : isDigitIn fs.convSpec.base (digitOf false 0) := isDigitIn_digitOf false hbase.2 (by omega)
        rw [List.mem_singleton.mp hx]
        exact hzero
    · exact isDigitIn_of_mem (by omega) hbase.2 hx
  · rw [hdigits, hradix, Int.natAbs_natCast]
    rcases hl with rfl | rfl
    · exact ofNumeral_numeral upper (by omega) hbase.2 n
    · exact (ofNumeral_zeros _ 1 _).trans (ofNumeral_numeral upper (by omega) hbase.2 n)
  · exact decide_eq_decide.mpr Int.natCast_eq_zero.symm
  · rw [hdigits]
    exact fun hnil => absurd (List.append_eq_nil_iff.mp hnil).2 (numeral_ne_nil _ _ _)
  · rw [if_neg (by omega)]
    rcases hx with rfl | ⟨x, rfl, hx⟩
    · exact .plain
    · exact .basePrefix x hx

/-- The bits of a number print it. -/
theorem prints_binaryDigits (hconv : fs.convSpec = .binary) (hn : n < 2 ^ 64) {need0x : Option Char}
    (hx : need0x = none ∨ ∃ x, need0x = some x ∧ isPrefixOf fs.convSpec.radix x) :
    Prints fs n (binaryDigits fs n need0x) := by
  have hradix : fs.convSpec.radix = 2 := by rw [hconv]; rfl
  have hdigits : (binaryDigits fs n need0x).digits = numeral false 2 n := by
    unfold Converted.digits binaryDigits
    rw [if_pos hconv]
    exact bits_npfBinLen false n
  have hlen : (binaryDigits fs n need0x).digits.length = npfBinLen n := by
    rw [hdigits, ← bits_npfBinLen false n, length_bits]
  -- the digits are the numeral of radix 2, at most 64 of them
  refine ⟨rfl, .inl rfl, Nat.zero_le _, hlen, ?_, ?_, ?_, ?_, ?_, ?_, .inr rfl⟩
  · change npfBinLen n ≤ 64
    rw [← hlen, hdigits]
    exact length_numeral_le false (by decide) (by decide) hn
  · rw [hdigits, hradix]
    exact fun x hx => isDigitIn_of_mem (by decide) (by decide) hx
  · rw [hdigits, hradix, Int.natAbs_natCast]
    exact ofNumeral_numeral false (by decide) (by decide) n
  · exact decide_eq_decide.mpr Int.natCast_eq_zero.symm
  · rw [hdigits]
    exact fun hnil => absurd hnil (numeral_ne_nil _ _ _)
  · rw [if_neg (by omega)]
    rcases hx with rfl | ⟨x, rfl, hx⟩
    · exact .plain
    · exact .basePrefix x hx

/-- A number that is not skipped. -/
theorem convertUnsigned_eq (hskip : ¬ fs.skips n) : convertUnsigned fs n =
    match fs.convSpec with
    | .binary => binaryDigits fs n (if n ≠ 0 ∧ fs.altForm then some (toChar ('B'.toNat + fs.caseAdjust)) else none)
    | .octal => writtenDigits fs n (if n ≠ 0 ∧ fs.altForm then ['0'] else []) none
    | .hexInt => writtenDigits fs n [] (if n ≠ 0 ∧ fs.altForm then some (toChar ('X'.toNat + fs.caseAdjust)) else none)
    | _ => writtenDigits fs n [] none := by
  unfold convertUnsigned writtenDigits binaryDigits
  rw [if_neg hskip]
  cases h : fs.convSpec <;> by_cases ha : n ≠ 0 ∧ fs.altForm <;> simp [ha]

/-- A zero that is not written at all prints zero. -/
theorem prints_skips (hskip : fs.skips n) : Prints fs n (convertUnsigned fs n) := by
  have hn : n = 0 := by
    have hs := hskip
    unfold FormatSpec.skips at hs
    simp only [Bool.and_eq_true, decide_eq_true_eq] at hs
    exact_mod_cast hs.1.1
  rw [convertUnsigned_skips hskip]
  subst hn
  have hdigits : ∀ fs' : FormatSpec,
      ({ fs := fs', cbuf := [], cbufLen := 0, zero := true } : Converted).digits = [] := by
    intro fs'
    unfold Converted.digits
    split <;> rfl
  by_cases ho : fs.convSpec = .octal ∧ fs.altForm
  · rw [if_pos ho]
    exact ⟨rfl, .inr rfl, Nat.zero_le _, by rw [hdigits]; rfl, Nat.zero_le _, by rw [hdigits]; nofun,
      by rw [hdigits]; rfl, rfl, fun _ => ⟨hskip, fun _ => rfl⟩, .plain, .inl rfl⟩
  · rw [if_neg ho]
    exact ⟨rfl, .inl rfl, Nat.zero_le _, by rw [hdigits]; rfl, Nat.zero_le _, by rw [hdigits]; nofun,
      by rw [hdigits]; rfl, rfl, fun _ => ⟨hskip, fun h => absurd h ho⟩, .plain, .inl rfl⟩

/-- An integer without a sign. -/
theorem prints_unsigned {upper : Bool} (hconv : fs.convSpec.isInteger) (hsigned : fs.convSpec ≠ .signedInt)
    (hcase : fs.caseAdjust = if upper then 0 else 32) (hn : n < 2 ^ 64) : Prints fs n (convertUnsigned fs n) := by
  by_cases hskip : fs.skips n
  · exact prints_skips hskip
  have hX : isPrefixOf 16 (toChar ('X'.toNat + fs.caseAdjust)) := by
    rw [hcase]
    cases upper <;> decide
  have hB : isPrefixOf 2 (toChar ('B'.toNat + fs.caseAdjust)) := by
    rw [hcase]
    cases upper <;> decide
  rw [convertUnsigned_eq hskip]
  -- the alternative form of each radix: a prefix for 2 and 16, a leading 0 for 8
  cases hc : fs.convSpec with
  | binary =>
      refine prints_binaryDigits hc hn ?_
      split
      · exact .inr ⟨_, rfl, by rw [hc]; exact hB⟩
      · exact .inl rfl
  | octal =>
      refine prints_writtenDigits (by rw [hc]; nofun) hcase hn ?_ (.inl rfl)
      split
      · exact .inr rfl
      · exact .inl rfl
  | hexInt =>
      refine prints_writtenDigits (by rw [hc]; nofun) hcase hn (.inl rfl) ?_
      split
      · exact .inr ⟨_, rfl, by rw [hc]; exact hX⟩
      · exact .inl rfl
  | unsignedInt => exact prints_writtenDigits (by rw [hc]; nofun) hcase hn (.inl rfl) (.inl rfl)
  | _ => first | exact absurd hc hsigned | (rw [hc] at hconv; cases hconv)

/-- **What is written to `cbuf_mem` fits**, and is what is printed: for every integer conversion, length modifier and
argument. -/
theorem convert_integer {upper : Bool} (hconv : fs.convSpec.isInteger) (hcase : fs.caseAdjust = if upper then 0 else 32)
    (hsign : ∀ x ∈ fs.prepend, x = '+' ∨ x = ' ') (w : BitVec 64) (rest : List Arg) :
    ∃ c, convert fs (.word w :: rest) = some (c, rest) ∧ Prints fs (fs.value w) c := by
  have hbits := bits_le fs.lengthModifier
  have hlt : (w.setWidth fs.lengthModifier.bits).toNat < 2 ^ 64 :=
    Nat.lt_of_lt_of_le (BitVec.isLt _) (Nat.pow_le_pow_right (by decide) hbits)
  by_cases hsigned : fs.convSpec = .signedInt
  · have hv : fs.value w = (w.setWidth fs.lengthModifier.bits).toInt := if_pos hsigned
    -- an integer of at most 64 bits has an absolute value that fits in one
    have habs : (fs.value w).natAbs < 2 ^ 64 := by
      have hlo := BitVec.le_toInt (w.setWidth fs.lengthModifier.bits)
      have hhi := BitVec.toInt_lt (x := w.setWidth fs.lengthModifier.bits)
      have hpow : (2 : ℤ) ^ (fs.lengthModifier.bits - 1) ≤ 2 ^ 63 := pow_le_pow_right₀ (by decide) (by omega)
      rw [hv]
      omega
    have hprints := prints_signed hsigned hsign habs
    refine ⟨_, ?_, hprints⟩
    unfold convert
    rw [hsigned]
    simp only [vaArg, Option.bind_some, Converted.fits, ← hv]
    rw [if_pos hprints.fits]
    rfl
  · have hv : fs.value w = (w.setWidth fs.lengthModifier.bits).toNat := if_neg hsigned
    rw [hv]
    have hprints := prints_unsigned hconv hsigned hcase hlt
    refine ⟨_, ?_, hprints⟩
    unfold convert
    cases hc : fs.convSpec <;> rw [hc] at hconv <;> cases hconv <;> first | exact absurd hc hsigned | skip
    all_goals
      simp only [vaArg, Option.bind_some, Converted.fits]
      rw [if_pos hprints.fits]
      rfl

/-! ## Reading -/

/-- What a conversion of a number consists of: the sign, zeros and the digits. -/
theorem payload_eq (hconv : c.fs.convSpec ≠ .string) (n : ℕ) : c.payload n =
    (if c.signFirst then [] else c.signC.toList) ++ (List.replicate n '0' ++ c.digits) := by
  unfold Converted.payload Converted.digits
  rw [if_neg hconv, List.append_assoc]

/-- The padding is none, a blank or a zero. -/
theorem padC_eq (c : Converted) : c.padC = none ∨ c.padC = some ' ' ∨
    c.padC = some '0' ∧ c.fs.leadingZeroPad ∧ ¬ (c.fs.precOpt = .literal ∧ c.fs.prec = 0 ∧ c.zero) := by
  unfold Converted.padC
  split
  · split
    · split
      · split
        · exact .inr (.inl rfl)
        · exact .inr (.inr ⟨rfl, ‹_›, ‹_›⟩)
      · exact .inl rfl
    · exact .inr (.inl rfl)
  · exact .inl rfl

/-- The number that is put reads as the value, wherever it is in its field and whatever it is padded with, but for
zeros behind it. -/
theorem Prints.reads (h : Prints fs v c) (hconv : fs.convSpec.isInteger)
    (hzero : ¬ (fs.leftJustified ∧ fs.leadingZeroPad)) (hskip : ¬ fs.skips v ∨ fs.convSpec = .octal ∧ fs.altForm)
    {p : ℤ} (hp : c.precPad = some p) (f : ℕ) :
    readNumber fs.convSpec.radix (c.leading f ++ (c.payload p.toNat ++ c.trailing f)) = some v := by
  have hc : c.fs.convSpec = fs.convSpec := by rw [h.spec]
  have hleft : c.fs.leftJustified = fs.leftJustified := by rw [h.spec]
  have hlead : c.fs.leadingZeroPad = fs.leadingZeroPad := by rw [h.spec]
  have hstring : c.fs.convSpec ≠ .string := by
    rintro heq
    rw [hc] at heq
    rw [heq] at hconv
    cases hconv
  have hradix : 1 < fs.convSpec.radix ∧ fs.convSpec.radix ≤ 16 := by
    cases fs.convSpec <;> decide
  have hzeros : ∀ n, ∀ x ∈ List.replicate n '0' ++ c.digits, isDigitIn fs.convSpec.radix x := by
    intro n x hx
    rcases List.mem_append.mp hx with hx | hx
    · have hdigit : isDigitIn fs.convSpec.radix (digitOf false 0) := isDigitIn_digitOf false hradix.2 (by omega)
      rw [List.eq_of_mem_replicate hx]
      exact hdigit
    · exact h.isDigit x hx
  -- where no digits are put, the precision of the alternative form puts one
  have hnil : List.replicate p.toNat '0' ++ c.digits ≠ [] := by
    intro heq
    obtain ⟨hrep, hdigits⟩ := List.append_eq_nil_iff.mp heq
    obtain ⟨hs, hprec⟩ := h.nil hdigits
    have hone := hprec (hskip.resolve_left (not_not_intro hs))
    have hlen : c.cbufLen = 0 := by rw [← h.length, hdigits]; rfl
    unfold Converted.precPad at hp
    rw [if_pos hstring, hone, hlen] at hp
    cases hp
    cases hrep
  have hvalue : ∀ n,
      (if v < 0 then -1 else 1 : ℤ) * ofNumeral fs.convSpec.radix (List.replicate n '0' ++ c.digits) = v := by
    intro n
    rw [ofNumeral_zeros, h.value]
    split <;> omega
  -- what is read where the zeros of the padding go with those of the precision
  have hread : ∀ k l m, List.replicate l '0' ++ c.digits ≠ [] →
      readNumber fs.convSpec.radix (List.replicate k ' ' ++
        (c.zeroX ++ c.signC.toList ++ (List.replicate l '0' ++ c.digits) ++ List.replicate m ' ')) = some v := by
    intro k l m hne
    rw [readNumber_eq h.head hne (hzeros l), hvalue l]
  have hswap : c.signC.toList ++ c.zeroX = c.zeroX ++ c.signC.toList := by
    rcases h.single with hx | hx <;> rw [hx] <;> simp
  rw [payload_eq hstring]
  rcases padC_eq c with hpad | hpad | ⟨hpad, hz, hprec⟩
  · -- no padding
    have hfirst : c.signFirst = false := by simp [Converted.signFirst, hpad]
    have hleading : c.leading f = c.zeroX := by
      unfold Converted.leading
      rw [hpad]
      cases c.fs.leftJustified <;> rfl
    have htrailing : c.trailing f = [] := by
      unfold Converted.trailing
      rw [hpad]
      cases c.fs.leftJustified <;> rfl
    rw [hfirst, hleading, htrailing]
    simpa using hread 0 p.toNat 0 hnil
  · -- blanks, on either side
    have hfirst : c.signFirst = false := by simp [Converted.signFirst, hpad]
    cases hl : c.fs.leftJustified with
    | false =>
        have hleading : c.leading f = List.replicate f ' ' ++ c.zeroX := by
          simp [Converted.leading, hl, hpad]
        have htrailing : c.trailing f = [] := by simp [Converted.trailing, hl]
        rw [hfirst, hleading, htrailing]
        simpa using hread f p.toNat 0 hnil
    | true =>
        have hleading : c.leading f = c.zeroX := by simp [Converted.leading, hl]
        have htrailing : c.trailing f = List.replicate f ' ' := by simp [Converted.trailing, hl, hpad]
        rw [hfirst, hleading, htrailing]
        simpa using hread 0 p.toNat f hnil
  · -- zeros, which go with those of the precision
    have hl : c.fs.leftJustified = false := by
      rw [hleft]
      exact Bool.eq_false_iff.mpr fun hl => hzero ⟨hl, hlead ▸ hz⟩
    have hfirst : c.signFirst = true := by simp [Converted.signFirst, hl, hpad]
    have hleading : c.leading f = c.zeroX ++ c.signC.toList ++ List.replicate f '0' := by
      rw [← hswap]
      simp [Converted.leading, hl, hpad]
    have htrailing : c.trailing f = [] := by simp [Converted.trailing, hl]
    have hadd : List.replicate (f + p.toNat) '0' = List.replicate f '0' ++ List.replicate p.toNat '0' :=
      List.replicate_add ..
    have hne : List.replicate (f + p.toNat) '0' ++ c.digits ≠ [] := by
      rw [hadd, List.append_assoc]
      exact fun heq => hnil (List.append_eq_nil_iff.mp heq).2
    have hnumber := hread 0 (f + p.toNat) 0 hne
    rw [hadd] at hnumber
    simp only [List.replicate_zero, List.nil_append, List.append_nil, List.append_assoc] at hnumber
    rw [hfirst, hleading, htrailing]
    simp only [if_true, List.nil_append, List.append_nil, List.append_assoc]
    exact hnumber

/-! ## Directives -/

/-- The arguments of the `*` of a directive. -/
def starArgs (fs : FormatSpec) (args : List Arg) : Option (FormatSpec × List Arg) :=
  (starWidth fs args).bind fun y => starPrec y.1 y.2

variable {fs' : FormatSpec} {args' : List Arg}

/-- The text of a directive, once the widths that are arguments have been read. -/
theorem directiveText_eq (h : starArgs fs args = some (fs', args')) :
    directiveText fs args = (convert fs' args').bind fun y => y.1.text.map fun t => (t, y.2) := by
  obtain ⟨y, hwidth, hprec⟩ := Option.bind_eq_some_iff.mp h
  unfold directiveText
  rw [hwidth, Option.bind_some, hprec, Option.bind_some]

/-- The fields that a `*` leaves as they are, and the width. -/
structure Keeps (fs fs' : FormatSpec) : Prop where
  prepend : fs'.prepend = fs.prepend
  convSpec : fs'.convSpec = fs.convSpec
  caseAdjust : fs'.caseAdjust = fs.caseAdjust
  width : 0 ≤ fs'.fieldWidth ∧ fs'.fieldWidth < 2 ^ 31

/-- A width that is an argument changes the width and the flag for the left only. -/
theorem starWidth_keeps (hw : 0 ≤ fs.fieldWidth ∧ fs.fieldWidth < 2 ^ 31) (h : starWidth fs args = some (fs', args')) :
    Keeps fs fs' := by
  unfold starWidth at h
  split at h
  · obtain ⟨x, -, h⟩ := Option.bind_eq_some_iff.mp h
    have hlt := BitVec.toInt_lt (x := x.1)
    split at h
    · next hneg =>
        obtain ⟨v, hint, h⟩ := Option.map_eq_some_iff.mp h
        unfold int at hint
        split at hint
        · cases hint
          cases h
          exact ⟨rfl, rfl, rfl, by dsimp only; omega⟩
        · cases hint
    · cases h
      exact ⟨rfl, rfl, rfl, by dsimp only; omega⟩
  · cases h
    exact ⟨rfl, rfl, rfl, hw⟩

/-- Widths and precisions that are arguments change nothing else. -/
theorem starArgs_keeps (hw : 0 ≤ fs.fieldWidth ∧ fs.fieldWidth < 2 ^ 31) (h : starArgs fs args = some (fs', args')) :
    Keeps fs fs' := by
  obtain ⟨⟨fs₁, args₁⟩, hwidth, hprec⟩ := Option.bind_eq_some_iff.mp h
  have hkeeps := starWidth_keeps hw hwidth
  unfold starPrec at hprec
  split at hprec
  · obtain ⟨x, -, heq⟩ := Option.map_eq_some_iff.mp hprec
    cases heq
    exact ⟨hkeeps.prepend, hkeeps.convSpec, hkeeps.caseAdjust, hkeeps.width⟩
  · cases hprec
    exact hkeeps

/-- What is computed of the width and the precision are numbers of the type `int`. -/
theorem Prints.pads (h : Prints fs v c) (hconv : fs.convSpec ≠ .string)
    (hw : 0 ≤ fs.fieldWidth ∧ fs.fieldWidth < 2 ^ 31) (hp : -2 ^ 31 + 128 ≤ fs.prec ∧ fs.prec ≤ 2 ^ 31 - 128) :
    ∃ p f, c.precPad = some p ∧ c.fieldPad p = some f := by
  have hc : c.fs.convSpec = fs.convSpec := by rw [h.spec]
  have hwidth : c.fs.fieldWidth = fs.fieldWidth := by rw [h.spec]
  have hlen := h.length_le
  -- all the terms are far from the bounds of an int, so no sum overflows
  have hprec : -2 ^ 31 + 128 ≤ c.fs.prec ∧ c.fs.prec ≤ 2 ^ 31 - 128 := by
    rcases h.prec with heq | heq <;> rw [heq] <;> omega
  have hsign : (if c.signC.isSome then 1 else 0 : ℤ) ≤ 1 ∧ 0 ≤ (if c.signC.isSome then 1 else 0 : ℤ) := by
    split <;> decide
  have hx : (if c.need0x.isSome then 2 else 0 : ℤ) ≤ 2 ∧ 0 ≤ (if c.need0x.isSome then 2 else 0 : ℤ) := by
    split <;> decide
  have hpad : c.precPad = some (max 0 (c.fs.prec - c.cbufLen)) := by
    unfold Converted.precPad int
    rw [hc, if_pos hconv, if_pos (by omega)]
    rfl
  have hfield : ∃ f, c.fieldPad (max 0 (c.fs.prec - c.cbufLen)) = some f := by
    unfold Converted.fieldPad int
    rw [hwidth, if_pos (by omega)]
    exact ⟨_, rfl⟩
  obtain ⟨f, hf⟩ := hfield
  exact ⟨_, f, hpad, hf⟩

/-- **Numbers are printed in full**: for every directive for integers, with any flags, width, precision and length
modifier, and any arguments, the text that is printed reads as the value of the argument in the base of the directive.
The exceptions are a value and a precision that are both zero, and a `0` flag with a negative width from the
arguments. -/
theorem number_reads (d : Directive) (hrange : d.InRange) (hint : d.specifier.conversion.isInteger)
    (hstar : starArgs d.spec args = some (fs, .word w :: rest)) (hzero : ¬ (fs.leftJustified ∧ fs.leadingZeroPad))
    (hskip : ¬ fs.skips (fs.value w) ∨ fs.convSpec = .octal ∧ fs.altForm)
    (hprec : -2 ^ 31 + 128 ≤ fs.prec ∧ fs.prec ≤ 2 ^ 31 - 128) :
    ∃ t, printed ('%' :: d.chars) args = some t ∧
      readNumber d.specifier.conversion.radix t = some (fs.value w) := by
  have hwidth : 0 ≤ d.spec.fieldWidth ∧ d.spec.fieldWidth < 2 ^ 31 :=
    ⟨Int.natCast_nonneg _, by have := hrange.1; unfold Directive.spec; dsimp only; omega⟩
  have hkeeps := starArgs_keeps hwidth hstar
  have hconv : fs.convSpec = d.specifier.conversion := hkeeps.convSpec
  have hinteger : fs.convSpec.isInteger := hconv ▸ hint
  have hstring : fs.convSpec ≠ .string := by
    intro heq
    rw [heq] at hinteger
    cases hinteger
  have hsign : ∀ x ∈ fs.prepend, x = '+' ∨ x = ' ' := by
    intro x hx
    rw [hkeeps.prepend] at hx
    unfold Directive.spec at hx
    dsimp only at hx
    split at hx
    · exact .inl (Option.some.inj hx).symm
    · split at hx
      · exact .inr (Option.some.inj hx).symm
      · cases hx
  have hcase : fs.caseAdjust = if d.specifier.upper then 0 else 32 := hkeeps.caseAdjust
  -- the value is converted, padded and then read back
  obtain ⟨c, hconvert, hprints⟩ := convert_integer hinteger hcase hsign w rest
  obtain ⟨p, f, hp, hf⟩ := hprints.pads hstring hkeeps.width hprec
  -- the padding before it, the number, the padding behind it
  have htext : c.text = some (c.leading f.toNat ++ (c.payload p.toNat ++ c.trailing f.toNat)) := by
    unfold Converted.text
    rw [hp, Option.bind_some, hf]
    rfl
  have hparse := d.parse_directive []
  rw [List.append_nil, if_pos hrange] at hparse
  refine ⟨_, ?_, hconv ▸ hprints.reads hinteger hzero hskip hp f.toNat⟩
  unfold printed
  rw [List.length_cons, formatText, if_neg (by decide), hparse]
  simp only [Option.bind_some, directiveText_eq hstar, hconvert, htext, Option.map_some, formatText, List.append_nil]

/-- `%#010lX` -/
def hexDirective : Directive where
  flags := [.hash, .zero]
  width := .number ⟨['1', '0'], List.all_eq_true.mp rfl⟩ rfl
  precision := .none
  modifier := .long
  modifier_ne := nofun
  specifier := .X

/-- A number in base 16, with its prefix before the zeros. -/
theorem number_reads_hex : ∃ t, printed ('%' :: hexDirective.chars) [.word 0xbeef] = some t ∧
    readNumber 16 t = some 0xbeef :=
  number_reads hexDirective (by decide) rfl
    (show starArgs hexDirective.spec _ = some (hexDirective.spec, [.word 0xbeef]) from rfl) (by decide)
    (.inl (by decide)) (by decide)

/-- With a `0` flag and a negative width there are zeros behind the digits. -/
example : (printed "%0*d".toList [.word (-5), .word 42]).bind (readNumber 10) = some 42000 := by decide

end Scalux.Npf
