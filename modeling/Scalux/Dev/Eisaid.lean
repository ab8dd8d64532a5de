import Mathlib.Data.Vector.Basic
import Scalux.Lib.Fields

/-! # EISA identifiers

`i2hex`, `hex2i`, `eisaid_to_string` and `string_to_eisaid` of `dev/acpi/AcpiPC.m`: an identifier is a word of
32 bits, most significant byte last, with three letters of five bits and four hexadecimal digits; devices are
matched by its text.

* A `char` and an `int` are integers; the terminator is in the text.
* `none` stands for the assertion of `hex2i`.

* **`eisaidToString_eq`**, **`stringToEisaid_text`**: both go by the same fields.
* **`eisaid_round_trip`**: they are inverse to each other. -/

namespace Scalux.Eisaid

open Scalux.Fields

/-- `bswap_32`. -/
def bswap32 (num : ℕ) : ℕ :=
  (num &&& 0xff) <<< 24 ||| (num >>> 8 &&& 0xff) <<< 16 ||| (num >>> 16 &&& 0xff) <<< 8 |||
    (num >>> 24 &&& 0xff)

/-- The character of a digit. -/
def hexChar (digit : ℕ) : ℤ := if digit < 0xa then '0'.toNat + digit else 'A'.toNat + (digit - 10)

/-- `i2hex`. -/
def i2hex (val pos : ℕ) : ℤ := hexChar (val >>> pos &&& 0xf)

/-- `hex2i`. -/
def hex2i (character : ℤ) : Option ℤ :=
  if character ≤ '9'.toNat then some (character - '0'.toNat)
  else if 'A'.toNat ≤ character ∧ character ≤ 'F'.toNat then some (character - 'A'.toNat + 10)
  else none

/-- `v << s`, as the `uint32_t` that it is joined to. -/
def shl (v : ℤ) (s : ℕ) : ℕ := (v * 2 ^ s % 2 ^ 32).toNat

/-- `eisaid_to_string`. -/
def eisaidToString (num : ℕ) : Vector ℤ 8 :=
  let num := bswap32 num
  #v[0x40 + (num >>> 26 &&& 0x1F : ℕ), 0x40 + (num >>> 21 &&& 0x1F : ℕ), 0x40 + (num >>> 16 &&& 0x1F : ℕ),
    i2hex num 12, i2hex num 8, i2hex num 4, i2hex num 0, 0]

/-- `string_to_eisaid`. -/
def stringToEisaid (id : Vector ℤ 8) : Option ℕ := do
  let out := shl (id[0] - 0x40) 26
  let out := out ||| shl (id[1] - 0x40) 21
  let out := out ||| shl (id[2] - 0x40) 16
  let out := out ||| shl (← hex2i id[3]) 12
  let out := out ||| shl (← hex2i id[4]) 8
  let out := out ||| shl (← hex2i id[5]) 4
  let out := out ||| shl (← hex2i id[6]) 0
  return bswap32 out

/-- A digit of `0-9A-F`. -/
def IsHexDigit (c : ℤ) : Prop :=
  ('0'.toNat ≤ c ∧ c ≤ '9'.toNat) ∨ ('A'.toNat ≤ c ∧ c ≤ 'F'.toNat)

/-- The text of an identifier: three letters and four digits. -/
structure IsEisaid (s : Vector ℤ 8) : Prop where
  letters : ∀ i : Fin 8, i < 3 → 0x40 ≤ s[i] ∧ s[i] ≤ 0x5F
  digits : ∀ i : Fin 8, 3 ≤ i → i < 7 → IsHexDigit s[i]
  terminator : s[7] = 0

/-- The widths of the fields of an identifier. -/
abbrev widths : List ℕ := [5, 5, 5, 4, 4, 4, 4]

/-- The text with some values in its fields. -/
def text (a b c d e f g : ℕ) : Vector ℤ 8 :=
  #v[0x40 + (a : ℤ), 0x40 + (b : ℤ), 0x40 + (c : ℤ), hexChar d, hexChar e, hexChar f, hexChar g, 0]

variable {num a b c d e f g : ℕ} {s : Vector ℤ 8} {x : ℤ}

/-! ## Bytes -/

/-- The bytes of a word, in the other order. -/
theorem bswap32_eq (num : ℕ) : bswap32 num = pack [8, 8, 8, 8] (unpack [8, 8, 8, 8] num).reverse := by
  simp only [bswap32, unpack, pack, List.reverse_cons, List.reverse_nil, List.nil_append, List.cons_append,
    List.sum_cons, List.sum_nil, Nat.or_assoc, Nat.shiftRight_zero, Nat.shiftLeft_zero, Nat.or_zero]
  rfl

/-- Each byte of a number has 8 bits, from either end. -/
theorem fit_reverse (num : ℕ) : Fit [8, 8, 8, 8] (unpack [8, 8, 8, 8] num).reverse :=
  List.rel_reverse (fit_unpack [8, 8, 8, 8] num)

/-- A swapped number is one of 32 bits. -/
theorem bswap32_lt (num : ℕ) : bswap32 num < 2 ^ 32 := by
  rw [bswap32_eq]
  exact pack_lt (fit_reverse num)

/-- Twice in the other order. -/
theorem bswap32_bswap32 (h : num < 2 ^ 32) : bswap32 (bswap32 num) = num := by
  rw [bswap32_eq (bswap32 num), bswap32_eq num, unpack_pack (fit_reverse num), List.reverse_reverse,
    pack_unpack h]

/-! ## Digits -/

/-- A digit is read as it was written. -/
theorem hex2i_hexChar (h : d < 16) : hex2i (hexChar d) = some (d : ℤ) := by
  unfold hex2i hexChar
  simp only [Char.reduceToNat, Nat.cast_ofNat]
  split
  · rw [if_pos (by omega), Option.some.injEq]
    omega
  · rw [if_neg (by omega), if_pos (by omega), Option.some.injEq]
    omega

/-- Every digit is written for a value. -/
theorem exists_hexChar (h : IsHexDigit x) : ∃ d < 16, hexChar d = x := by
  unfold IsHexDigit at h
  simp only [Char.reduceToNat, Nat.cast_ofNat] at h
  rcases h with ⟨hlo, hhi⟩ | ⟨hlo, hhi⟩
  · refine ⟨(x - 48).toNat, by omega, ?_⟩
    rw [hexChar, if_pos (by omega)]
    simp only [Char.reduceToNat, Nat.cast_ofNat]
    omega
  · refine ⟨(x - 65).toNat + 10, by omega, ?_⟩
    rw [hexChar, if_neg (by omega)]
    simp only [Char.reduceToNat, Nat.cast_ofNat]
    omega

/-- A value that has room. -/
theorem shl_natCast {n k : ℕ} (h : n <<< k < 2 ^ 32) : shl n k = n <<< k := by
  rw [Nat.shiftLeft_eq] at *
  unfold shl
  have hcast : (n : ℤ) * 2 ^ k = ((n * 2 ^ k : ℕ) : ℤ) := by push_cast; rfl
  rw [hcast]
  omega

/-! ## Fields -/

/-- The text has the fields of the word. -/
theorem eisaidToString_eq (num : ℕ) (h : unpack widths (bswap32 num) = [a, b, c, d, e, f, g]) :
    eisaidToString num = text a b c d e f g := by
  simp only [unpack, List.sum_cons, List.sum_nil, List.cons.injEq, and_true] at h
  obtain ⟨rfl, rfl, rfl, rfl, rfl, rfl, rfl⟩ := h
  rfl

/-- A field that is shifted to its place. -/
theorem shl_field {v w k : ℕ} (hv : v < 2 ^ w) (hw : w + k ≤ 32) : shl v k = v <<< k := by
  refine shl_natCast ?_
  rw [Nat.shiftLeft_eq]
  calc v * 2 ^ k < 2 ^ w * 2 ^ k := Nat.mul_lt_mul_of_pos_right hv (Nat.pow_pos (by decide))
    _ = 2 ^ (w + k) := (Nat.pow_add 2 w k).symm
    _ ≤ 2 ^ 32 := Nat.pow_le_pow_right (by decide) hw

/-- The word has the fields of the text. -/
theorem stringToEisaid_text (h : Fit widths [a, b, c, d, e, f, g]) :
    stringToEisaid (text a b c d e f g) = some (bswap32 (pack widths [a, b, c, d, e, f, g])) := by
  simp only [Fit, List.forall₂_cons, List.forall₂_nil_left_iff, and_true] at h
  obtain ⟨ha, hb, hc, hd, he, hf, hg⟩ := h
  have hletter : ∀ x : ℤ, 0x40 + x - 0x40 = x := fun x => by omega
  have hword : pack widths [a, b, c, d, e, f, g] = (((((shl a 26 ||| shl b 21) ||| shl c 16) ||| shl d 12) |||
      shl e 8) ||| shl f 4) ||| shl g 0 := by
    rw [shl_field ha (by decide), shl_field hb (by decide), shl_field hc (by decide),
      shl_field hd (by decide), shl_field he (by decide), shl_field hf (by decide),
      shl_field hg (by decide)]
    simp only [pack, List.sum_cons, List.sum_nil, Nat.or_assoc, Nat.or_zero]
    rfl
  -- the characters of the text
  have h₀ : (text a b c d e f g)[0] - 0x40 = a := hletter a
  have h₁ : (text a b c d e f g)[1] - 0x40 = b := hletter b
  have h₂ : (text a b c d e f g)[2] - 0x40 = c := hletter c
  have h₃ : (text a b c d e f g)[3] = hexChar d := rfl
  have h₄ : (text a b c d e f g)[4] = hexChar e := rfl
  have h₅ : (text a b c d e f g)[5] = hexChar f := rfl
  have h₆ : (text a b c d e f g)[6] = hexChar g := rfl
  simp only [stringToEisaid, h₀, h₁, h₂, h₃, h₄, h₅, h₆, hex2i_hexChar hd, hex2i_hexChar he,
    hex2i_hexChar hf, hex2i_hexChar hg, Option.bind_eq_bind, Option.bind_some, hword]
  rfl

/-- An identifier is the text of its fields. -/
theorem IsEisaid.exists_text (h : IsEisaid s) :
    ∃ a b c d e f g, Fit widths [a, b, c, d, e, f, g] ∧ s = text a b c d e f g := by
  -- three letters of 5 bits each and four hexadecimal digits make the seven fields
  have hletter : ∀ i : Fin 8, i < 3 → ∃ v : ℕ, v < 2 ^ 5 ∧ s[i] = 0x40 + (v : ℤ) := fun i hi =>
    ⟨(s[i] - 0x40).toNat, by have := h.letters i hi; omega, by have := h.letters i hi; omega⟩
  obtain ⟨a, ha, h₀⟩ := hletter 0 (by decide)
  obtain ⟨b, hb, h₁⟩ := hletter 1 (by decide)
  obtain ⟨c, hc, h₂⟩ := hletter 2 (by decide)
  obtain ⟨d, hd, h₃⟩ := exists_hexChar (h.digits 3 (by decide) (by decide))
  obtain ⟨e, he, h₄⟩ := exists_hexChar (h.digits 4 (by decide) (by decide))
  obtain ⟨f, hf, h₅⟩ := exists_hexChar (h.digits 5 (by decide) (by decide))
  obtain ⟨g, hg, h₆⟩ := exists_hexChar (h.digits 6 (by decide) (by decide))
  refine ⟨a, b, c, d, e, f, g, ?_, ?_⟩
  · exact .cons ha (.cons hb (.cons hc (.cons hd (.cons he (.cons hf (.cons hg .nil))))))
  · ext i hi
    match i, hi with
    | 0, _ => exact h₀
    | 1, _ => exact h₁
    | 2, _ => exact h₂
    | 3, _ => exact h₃.symm
    | 4, _ => exact h₄.symm
    | 5, _ => exact h₅.symm
    | 6, _ => exact h₆.symm
    | 7, _ => exact h.terminator

/-- The fields of a word, one by one. -/
theorem exists_unpack (num : ℕ) : ∃ a b c d e f g, unpack widths num = [a, b, c, d, e, f, g] :=
  ⟨_, _, _, _, _, _, _, rfl⟩

/-! ## Round trips -/

/-- **The round trips.** A word whose swapped top bit is clear is read from its text, and a text of three
letters and four digits is written for the word that is read from it. -/
theorem eisaid_round_trip :
    (∀ num < 2 ^ 32, (bswap32 num).testBit 31 = false → stringToEisaid (eisaidToString num) = some num) ∧
      ∀ s, IsEisaid s → ∃ num < 2 ^ 32, stringToEisaid s = some num ∧ eisaidToString num = s := by
  constructor
  · intro num hnum htop
    have hlt : bswap32 num < 2 ^ widths.sum := by
      have hword := bswap32_lt num
      rw [Nat.testBit_eq_decide_div_mod_eq, decide_eq_false_iff_not] at htop
      show bswap32 num < 2 ^ 31
      omega
    obtain ⟨a, b, c, d, e, f, g, hfields⟩ := exists_unpack (bswap32 num)
    have hfit : Fit widths [a, b, c, d, e, f, g] := hfields ▸ fit_unpack widths _
    rw [eisaidToString_eq num hfields, stringToEisaid_text hfit, ← hfields, pack_unpack hlt,
      bswap32_bswap32 hnum]
  · intro s hs
    obtain ⟨a, b, c, d, e, f, g, hfit, rfl⟩ := hs.exists_text
    have hlt : pack widths [a, b, c, d, e, f, g] < 2 ^ 32 := (pack_lt hfit).trans (by decide)
    refine ⟨_, bswap32_lt _, stringToEisaid_text hfit, eisaidToString_eq _ ?_⟩
    rw [bswap32_bswap32 hlt, unpack_pack hfit]

/-- `PNP0A03`, a PCI host bridge. -/
theorem eisaid_round_trip_pnp :
    stringToEisaid (eisaidToString 0x030ad041) = some 0x030ad041 ∧
      eisaidToString 0x030ad041 = #v[0x50, 0x4e, 0x50, 0x30, 0x41, 0x30, 0x33, 0] :=
  ⟨eisaid_round_trip.1 0x030ad041 (by decide) (by decide), by decide⟩

end Scalux.Eisaid
