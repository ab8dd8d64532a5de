import Mathlib.Data.List.Basic
import Mathlib.Data.List.TakeWhile
import Mathlib.Data.Int.Notation
import Mathlib.Algebra.Order.Ring.Nat

/-! # Numerals

Numbers in a base up to 16, with lower-case or upper-case digits, and how they are read: past blanks, a sign, and the
prefix of the base, which is what `strtol` does.

* **`numeral`**, **`ofNumeral`**: the digits of a number, and the number of digits.
* **`readNumber`**: the number in a text that has blanks around it.
* **`readNumber_eq`**: what is read of a number that is laid out in a field. -/

namespace Scalux

/-- The value of a digit. -/
def digitValue (c : Char) : Option ℕ :=
  if c.isDigit then some (c.toNat - '0'.toNat)
  else if 'a' ≤ c ∧ c ≤ 'z' then some (c.toNat - 'a'.toNat + 10)
  else if 'A' ≤ c ∧ c ≤ 'Z' then some (c.toNat - 'A'.toNat + 10)
  else none

/-- A digit in a base. -/
def isDigitIn (b : ℕ) (c : Char) : Bool := (digitValue c).any (· < b)

/-- The digits of a number. -/
def numeral (upper : Bool) (b n : ℕ) : List Char :=
  if upper then (Nat.toDigits b n).map Char.toUpper else Nat.toDigits b n

/-- A digit. -/
def digitOf (upper : Bool) (d : ℕ) : Char := if upper then d.digitChar.toUpper else d.digitChar

/-- The number of digits. -/
def ofNumeral (b : ℕ) (l : List Char) : ℕ := l.foldl (fun n c => b * n + (digitValue c).getD 0) 0

variable {b n m k d : ℕ} {upper : Bool} {c : Char} {l l' : List Char}

/-! ## Digits -/

/-- The value of the digit for `d` is `d`. -/
theorem digitValue_digitOf (upper : Bool) (hd : d < 16) : digitValue (digitOf upper d) = some d := by
  have h : ∀ upper, ∀ d < 16, digitValue (digitOf upper d) = some d := by decide
  exact h upper d hd

/-- The digit for a `d` below the base is one of the base. -/
theorem isDigitIn_digitOf (upper : Bool) (hb : b ≤ 16) (hd : d < b) : isDigitIn b (digitOf upper d) := by
  rw [isDigitIn, digitValue_digitOf upper (Nat.lt_of_lt_of_le hd hb)]
  exact decide_eq_true hd

/-- A number below the base is one digit. -/
theorem numeral_of_lt (upper : Bool) (h : n < b) : numeral upper b n = [digitOf upper n] := by
  unfold numeral digitOf
  rw [Nat.toDigits_of_lt_base h]
  split <;> rfl

/-- Another number is the numeral of `n / b`, and then the digit for `n % b`. -/
theorem numeral_of_le (upper : Bool) (hb : 1 < b) (h : b ≤ n) :
    numeral upper b n = numeral upper b (n / b) ++ [digitOf upper (n % b)] := by
  unfold numeral digitOf
  rw [Nat.toDigits_of_base_le hb h]
  split
  · rw [List.map_append, List.map_singleton]
  · rfl

/-- Induction over the digits of a number. -/
theorem numeral_induction {P : ℕ → Prop} (hb : 1 < b) (hlt : ∀ n < b, P n)
    (hle : ∀ n, b ≤ n → P (n / b) → P n) (n : ℕ) : P n := by
  induction n using Nat.strong_induction_on with
  | h n ih =>
      rcases Nat.lt_or_ge n b with h | h
      · exact hlt n h
      · exact hle n h (ih _ (Nat.div_lt_self (by omega) hb))

/-- The numeral is as long as the one with the other letters: `Nat.toDigits`. -/
theorem length_numeral (upper : Bool) (b n : ℕ) : (numeral upper b n).length = (Nat.toDigits b n).length := by
  unfold numeral
  split
  · exact List.length_map _
  · rfl

/-- A number below `b ^ k` has at most `k` digits. -/
theorem length_numeral_le (upper : Bool) (hb : 1 < b) (hk : 0 < k) (h : n < b ^ k) :
    (numeral upper b n).length ≤ k := by
  rw [length_numeral]
  exact (Nat.length_toDigits_le_iff hb hk).mpr h

/-- Every number has a digit. -/
theorem numeral_ne_nil (upper : Bool) (b n : ℕ) : numeral upper b n ≠ [] := by
  have hpos : 0 < (Nat.toDigits b n).length := Nat.length_toDigits_pos
  rw [← length_numeral upper] at hpos
  exact List.ne_nil_of_length_pos hpos

/-- The numeral of 0 is `0`. -/
@[simp] theorem numeral_zero (upper : Bool) (b : ℕ) : numeral upper b 0 = ['0'] := by
  unfold numeral
  rw [Nat.toDigits_zero]
  split <;> rfl

/-- The characters of a numeral are digits of its base. -/
theorem isDigitIn_of_mem (hb : 1 < b) (hb' : b ≤ 16) (h : c ∈ numeral upper b n) : isDigitIn b c := by
  induction n using numeral_induction hb with
  | hlt n hn =>
      rw [numeral_of_lt upper hn, List.mem_singleton] at h
      exact h ▸ isDigitIn_digitOf upper hb' hn
  | hle n hn ih =>
      rw [numeral_of_le upper hb hn, List.mem_append, List.mem_singleton] at h
      rcases h with h | rfl
      · exact ih h
      · exact isDigitIn_digitOf upper hb' (Nat.mod_lt _ (by omega))

/-! ## The number of digits -/

/-- The value of a text is found from left to right: that of `l` first, and then the digits of `l'`. -/
theorem ofNumeral_append (b : ℕ) (l l' : List Char) :
    ofNumeral b (l ++ l') = l'.foldl (fun n c => b * n + (digitValue c).getD 0) (ofNumeral b l) :=
  List.foldl_append

/-- Zeros before a numeral do not change its value. -/
theorem ofNumeral_zeros (b n : ℕ) (l : List Char) : ofNumeral b (List.replicate n '0' ++ l) = ofNumeral b l := by
  have hzeros : ofNumeral b (List.replicate n '0') = 0 := by
    induction n with
    | zero => rfl
    | succ n ih =>
        rw [List.replicate_succ', ofNumeral_append, ih]
        rfl
  rw [ofNumeral_append, hzeros]
  rfl

/-- **Digits of a number make the number.** -/
theorem ofNumeral_numeral (upper : Bool) (hb : 1 < b) (hb' : b ≤ 16) (n : ℕ) :
    ofNumeral b (numeral upper b n) = n := by
  induction n using numeral_induction hb with
  | hlt n hn =>
      rw [numeral_of_lt upper hn, ofNumeral, List.foldl_cons, digitValue_digitOf upper (Nat.lt_of_lt_of_le hn hb')]
      exact Nat.zero_add n
  | hle n hn ih =>
      have hmod : n % b < b := Nat.mod_lt _ (by omega)
      rw [numeral_of_le upper hb hn, ofNumeral_append, ih, List.foldl_cons,
        digitValue_digitOf upper (Nat.lt_of_lt_of_le hmod hb')]
      exact Nat.div_add_mod n b

/-! ## Reading -/

/-- The prefix of a base. -/
def isPrefixOf (b : ℕ) (c : Char) : Bool := b = 16 && (c = 'x' || c = 'X') || b = 2 && (c = 'b' || c = 'B')

/-- The sign of a number, and what is behind it. -/
def readSign : List Char → ℤ × List Char
  | '-' :: l => (-1, l)
  | '+' :: l => (1, l)
  | l => (1, l)

/-- What is behind the prefix. -/
def skipPrefix (b : ℕ) : List Char → List Char
  | '0' :: c :: l => if isPrefixOf b c then l else '0' :: c :: l
  | l => l

/-- **The number** in a text with blanks around it. -/
def readNumber (b : ℕ) (l : List Char) : Option ℤ :=
  let x := readSign (l.dropWhile (· = ' '))
  let l := skipPrefix b x.2
  if l.takeWhile (isDigitIn b) ≠ [] ∧ (l.dropWhile (isDigitIn b)).all (· = ' ') then
    some (x.1 * ofNumeral b (l.takeWhile (isDigitIn b)))
  else none

/-- What may be before the digits of a number. -/
inductive Head (b : ℕ) : ℤ → List Char → Prop
  | plain : Head b 1 []
  | minus : Head b (-1) ['-']
  | plus : Head b 1 ['+']
  | blank : Head b 1 [' ']
  | basePrefix (x : Char) (h : isPrefixOf b x) : Head b 1 ['0', x]

/-- The letter of a prefix, `x` or `b`, is no digit. -/
theorem not_isDigitIn_of_isPrefixOf (h : isPrefixOf b c) : isDigitIn b c = false := by
  unfold isPrefixOf at h
  simp only [Bool.or_eq_true, Bool.and_eq_true, decide_eq_true_eq] at h
  rcases h with ⟨rfl, rfl | rfl⟩ | ⟨rfl, rfl | rfl⟩ <;> decide

/-- A blank is no digit. -/
theorem not_isDigitIn_blank (b : ℕ) : isDigitIn b ' ' = false := rfl

/-- A text of digits has no prefix to skip: its second character is none of a prefix. -/
theorem skipPrefix_of_digits (h : ∀ c ∈ l, isDigitIn b c) (m : ℕ) :
    skipPrefix b (l ++ List.replicate m ' ') = l ++ List.replicate m ' ' := by
  have hno : ∀ {c : Char}, c = ' ' ∨ isDigitIn b c → ¬ isPrefixOf b c := by
    rintro c (rfl | hc) hp
    · simp [isPrefixOf] at hp
    · rw [not_isDigitIn_of_isPrefixOf hp] at hc
      cases hc
  unfold skipPrefix
  split
  · next c l' heq =>
      have hc : c ∈ l ++ List.replicate m ' ' := by
        rw [heq]
        simp
      refine (if_neg (hno ?_)).trans heq.symm
      rcases List.mem_append.mp hc with hc | hc
      · exact .inr (h c hc)
      · exact .inl (List.eq_of_mem_replicate hc)
  · rfl

/-- A text of digits has no sign. -/
theorem readSign_of_digits (hne : l ≠ []) (h : ∀ c ∈ l, isDigitIn b c) (l' : List Char) :
    readSign (l ++ l') = (1, l ++ l') := by
  obtain ⟨c, l, rfl⟩ := List.exists_cons_of_ne_nil hne
  have hc := h c List.mem_cons_self
  rw [List.cons_append]
  unfold readSign
  split
  · next heq =>
      cases heq
      cases hc
  · next heq =>
      cases heq
      cases hc
  · rfl

/-- The digits are read. -/
theorem readDigits (h : ∀ c ∈ l, isDigitIn b c) (m : ℕ) :
    (l ++ List.replicate m ' ').takeWhile (isDigitIn b) = l ∧
      (l ++ List.replicate m ' ').dropWhile (isDigitIn b) = List.replicate m ' ' := by
  rw [List.takeWhile_append_of_pos h, List.dropWhile_append_of_pos h]
  cases m with
  | zero => exact ⟨List.append_nil l, rfl⟩
  | succ m =>
      rw [List.replicate_succ, List.takeWhile_cons_of_neg (by simp [not_isDigitIn_blank]),
        List.dropWhile_cons_of_neg (by simp [not_isDigitIn_blank])]
      exact ⟨List.append_nil l, rfl⟩

/-- **A number in a field** is read: with blanks, a sign or a prefix before its digits, and blanks behind them. -/
theorem readNumber_eq {s : ℤ} (hs : Head b s l') (hne : l ≠ []) (h : ∀ c ∈ l, isDigitIn b c) (n m : ℕ) :
    readNumber b (List.replicate n ' ' ++ (l' ++ l ++ List.replicate m ' ')) = some (s * ofNumeral b l) := by
  obtain ⟨hd, hr⟩ := readDigits h m
  have hblank : (List.replicate m ' ').all (· = ' ') := by simp
  -- what is behind the sign and the prefix
  have hread : readSign ((l' ++ l ++ List.replicate m ' ').dropWhile (· = ' ')) =
        (s, l ++ List.replicate m ' ') ∨
      ∃ c, isPrefixOf b c ∧ readSign ((l' ++ l ++ List.replicate m ' ').dropWhile (· = ' ')) =
        (s, '0' :: c :: (l ++ List.replicate m ' ')) := by
    obtain ⟨c, t, rfl⟩ := List.exists_cons_of_ne_nil hne
    have hc : c ≠ ' ' := by
      rintro rfl
      exact absurd (h ' ' List.mem_cons_self) (by simp [not_isDigitIn_blank])
    have hdrop : (c :: t ++ List.replicate m ' ').dropWhile (· = ' ') = c :: t ++ List.replicate m ' ' :=
      List.dropWhile_cons_of_neg (by simpa using hc)
    cases hs with
    | plain =>
        left
        rw [List.nil_append, hdrop]
        exact readSign_of_digits hne h _
    | minus => exact .inl rfl
    | plus => exact .inl rfl
    | blank =>
        left
        have hstep : ([' '] ++ c :: t ++ List.replicate m ' ').dropWhile (· = ' ') =
            (c :: t ++ List.replicate m ' ').dropWhile (· = ' ') := List.dropWhile_cons_of_pos (by decide)
        rw [hstep, hdrop]
        exact readSign_of_digits hne h _
    | basePrefix x hp => exact .inr ⟨x, hp, rfl⟩
  have hskip : ∃ x, readSign ((List.replicate n ' ' ++ (l' ++ l ++ List.replicate m ' ')).dropWhile (· = ' ')) =
      (s, x) ∧ skipPrefix b x = l ++ List.replicate m ' ' := by
    rw [List.dropWhile_append_of_pos (fun c hc => by simpa using List.eq_of_mem_replicate hc)]
    rcases hread with hread | ⟨c, hp, hread⟩
    · exact ⟨_, hread, skipPrefix_of_digits h m⟩
    · exact ⟨_, hread, if_pos hp⟩
  obtain ⟨x, hx, hskip⟩ := hskip
  unfold readNumber
  simp only [hx, hskip, hd, hr]
  exact if_pos ⟨hne, hblank⟩

end Scalux
