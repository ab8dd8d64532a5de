import Mathlib.Algebra.Order.Ring.Int
import Mathlib.Algebra.Order.Ring.Nat
import Mathlib.Logic.Function.Basic
import Scalux.Lib.Rows

/-! # Memory and strings

The functions of `libkern/klib.c` on memory and on strings, which go from one byte to the next.

* Loops that go on up to a terminator have a bound on their rounds.

* **`memmove_eq`**: `memmove` copies for every overlap.
* **`strcmp_spec`**: `strcmp` orders strings by the first byte in which they differ.
* **`strcpy_spec`**: `strcpy` copies a string and its terminator, and returns the address behind that. -/

namespace Scalux.Klib

section Memory

variable {α : Type*} {mem : ℕ → α} {t f a n : ℕ}

/-- `*t++ = *f++`, `n` times. -/
def copyUp (mem : ℕ → α) (t f : ℕ) : ℕ → ℕ → α
  | 0 => mem
  | n + 1 => copyUp (Function.update mem t (mem f)) (t + 1) (f + 1) n

/-- `*--t = *--f`, `n` times. -/
def copyDown (mem : ℕ → α) (t f : ℕ) : ℕ → ℕ → α
  | 0 => mem
  | n + 1 => copyDown (Function.update mem (t - 1) (mem (f - 1))) (t - 1) (f - 1) n

/-- `memcpy`. -/
def memcpy (mem : ℕ → α) (dstv srcv len : ℕ) : ℕ → α := copyUp mem dstv srcv len

/-- `memmove`. -/
def memmove (mem : ℕ → α) (dst src n : ℕ) : ℕ → α :=
  if src < dst then copyDown mem (dst + n) (src + n) n else copyUp mem dst src n

/-- What is there after `n` values have been copied at once. -/
def copied (mem : ℕ → α) (t f n : ℕ) : ℕ → α := fun a =>
  if t ≤ a ∧ a < t + n then mem (f + (a - t)) else mem a

/-- From below, values are read before they are written to, or are not written to. -/
theorem copyUp_eq (h : t ≤ f ∨ f + n ≤ t) : copyUp mem t f n = copied mem t f n := by
  induction n generalizing mem t f with
  | zero =>
      funext a
      exact (if_neg (by omega)).symm
  | succ n ih =>
      rw [copyUp, ih (by omega)]
      funext a
      unfold copied
      by_cases hin : t + 1 ≤ a ∧ a < t + 1 + n
      · -- what is read there has not been written to
        have hsrc : f + 1 + (a - (t + 1)) = f + (a - t) := by omega
        rw [if_pos hin, if_pos (by omega), hsrc, Function.update_of_ne (by omega)]
      · rw [if_neg hin]
        by_cases hfirst : a = t
        · subst hfirst
          rw [if_pos (by omega), Function.update_self, Nat.sub_self, Nat.add_zero]
        · rw [if_neg (by omega), Function.update_of_ne hfirst]

/-- From above too, where they are moved upwards. -/
theorem copyDown_eq (h : f ≤ t) : copyDown mem (t + n) (f + n) n = copied mem t f n := by
  induction n generalizing mem with
  | zero =>
      funext a
      exact (if_neg (by omega)).symm
  | succ n ih =>
      rw [copyDown, Nat.add_succ_sub_one, Nat.add_succ_sub_one, ih]
      funext a
      unfold copied
      by_cases hin : t ≤ a ∧ a < t + n
      · -- nor here, as the source is below
        rw [if_pos hin, if_pos (by omega), Function.update_of_ne (by omega)]
      · rw [if_neg hin]
        by_cases hlast : a = t + n
        · subst hlast
          rw [if_pos (by omega), Function.update_self, Nat.add_sub_cancel_left]
        · rw [if_neg (by omega), Function.update_of_ne hlast]

/-- **`memmove` copies for every overlap**, as if all values were read before any is written. -/
theorem memmove_eq (mem : ℕ → α) (dst src n : ℕ) : memmove mem dst src n = copied mem dst src n := by
  unfold memmove
  split
  · next hlt => exact copyDown_eq hlt.le
  · next hge => exact copyUp_eq (.inl (Nat.not_lt.mp hge))

/-- `memcpy` does so where no value is overwritten before it is read. -/
theorem memcpy_eq (h : t ≤ f ∨ f + n ≤ t) : memcpy mem t f n = memmove mem t f n :=
  (copyUp_eq h).trans (memmove_eq mem t f n).symm

end Memory

/-! ## Strings -/

/-- `strcmp`. -/
def strcmp (mem : ℕ → UInt8) : ℕ → ℕ → ℕ → Option ℤ
  | 0, _, _ => none
  | n + 1, s1, s2 =>
      if mem s1 = mem s2 then if mem s1 = 0 then some 0 else strcmp mem n (s1 + 1) (s2 + 1)
      else some ((mem s1).toNat - (mem s2).toNat)

/-- `strcpy`. -/
def strcpy : ℕ → (ℕ → UInt8) → ℕ → ℕ → Option (ℕ × (ℕ → UInt8))
  | 0, _, _, _ => none
  | n + 1, mem, dst, src =>
      if mem src ≠ 0 then strcpy n (Function.update mem dst (mem src)) (dst + 1) (src + 1)
      else some (dst + 1, Function.update mem dst (mem src))

/-- A string is in memory. -/
def StringAt (mem : ℕ → UInt8) (s : ℕ) (l : List UInt8) : Prop := 0 ∉ l ∧ RowAt mem s (l ++ [0])

/-- Bytes are ordered as numbers without a sign. -/
def ByteLt (b b' : UInt8) : Prop := b.toNat < b'.toNat

variable {mem : ℕ → UInt8} {s s1 s2 dst src n : ℕ} {b : UInt8} {l l' : List UInt8}

/-- The empty string is a terminator. -/
theorem StringAt.nil (h : StringAt mem s []) : mem s = 0 := h.2 0 Nat.one_pos

/-- A string is its first character and the rest. -/
theorem StringAt.cons (h : StringAt mem s (b :: l)) : mem s = b ∧ b ≠ 0 ∧ StringAt mem (s + 1) l := by
  refine ⟨h.2 0 (Nat.succ_pos _), fun hb => h.1 (hb ▸ List.mem_cons_self), fun hl => h.1 (List.mem_cons_of_mem b hl),
    fun i hi => ?_⟩
  have hrow := h.2 (i + 1) (Nat.succ_lt_succ hi)
  rw [Nat.add_assoc, Nat.add_comm 1]
  exact hrow

/-- **`strcmp` orders strings**: it returns 0 for strings that are equal, and a negative number if the first is
less than the second in the first byte in which they differ. -/
theorem strcmp_spec (h : StringAt mem s1 l) (h' : StringAt mem s2 l') (hn : l.length < n) :
    ∃ d, strcmp mem n s1 s2 = some d ∧ (d = 0 ↔ l = l') ∧ (d < 0 ↔ List.Lex ByteLt l l') := by
  -- along the first string; the fuel is larger than its length
  induction l generalizing l' s1 s2 n with
  | nil =>
      obtain ⟨n, rfl⟩ := Nat.exists_eq_succ_of_ne_zero (Nat.ne_of_gt hn)
      cases l' with
      | nil => exact ⟨0, by rw [strcmp, h.nil, h'.nil]; rfl, iff_of_true rfl rfl,
          iff_of_false (by decide) List.not_lex_nil⟩
      | cons b' l' =>
          obtain ⟨hb', hne, -⟩ := h'.cons
          have hpos : 0 < b'.toNat := Nat.pos_of_ne_zero fun hz => hne (UInt8.toNat_inj.mp hz)
          refine ⟨((0 : UInt8).toNat : ℤ) - b'.toNat, ?_, ?_, ?_⟩
          · rw [strcmp, h.nil, hb', if_neg hne.symm]
          · exact iff_of_false (by simp; omega) (List.cons_ne_nil b' l').symm
          · exact iff_of_true (by simp; omega) .nil
  | cons b l ih =>
      obtain ⟨n, rfl⟩ := Nat.exists_eq_succ_of_ne_zero (Nat.ne_zero_of_lt hn)
      obtain ⟨hb, hne, htail⟩ := h.cons
      have hpos : 0 < b.toNat := Nat.pos_of_ne_zero fun hz => hne (UInt8.toNat_inj.mp hz)
      cases l' with
      | nil =>
          refine ⟨(b.toNat : ℤ) - (0 : UInt8).toNat, ?_, ?_, ?_⟩
          · rw [strcmp, h'.nil, hb, if_neg hne]
          · exact iff_of_false (by simp; omega) (List.cons_ne_nil b l)
          · exact iff_of_false (by simp) List.not_lex_nil
      | cons b' l' =>
          obtain ⟨hb', hne', htail'⟩ := h'.cons
          by_cases heq : b = b'
          · -- not yet the terminator, and no difference
            subst heq
            obtain ⟨d, hd, hzero, hneg⟩ := ih htail htail' (Nat.lt_of_succ_lt_succ hn)
            refine ⟨d, ?_, ?_, ?_⟩
            · rw [strcmp, hb, hb', if_pos rfl, if_neg hne, hd]
            · rw [hzero, List.cons.injEq, and_iff_right rfl]
            · rw [hneg]
              refine ⟨.cons, fun hlex => ?_⟩
              cases hlex with
              | cons hlex => exact hlex
              | rel hlt => exact absurd hlt (Nat.lt_irrefl _)
          · -- the first byte in which they differ
            refine ⟨(b.toNat : ℤ) - b'.toNat, ?_, ?_, ?_⟩
            · rw [strcmp, hb, hb', if_neg heq]
            · have hnat : b.toNat ≠ b'.toNat := fun hz => heq (UInt8.toNat_inj.mp hz)
              exact iff_of_false (by omega) fun hcons => heq (List.cons.inj hcons).1
            · constructor
              · exact fun hlt => .rel (show b.toNat < b'.toNat by omega)
              · intro hlex
                cases hlex with
                | cons hlex => exact absurd rfl heq
                | rel hlt =>
                    have hlt : b.toNat < b'.toNat := hlt
                    omega

/-- Two words that begin with the same byte. -/
def twoWords : ℕ → UInt8 := assignRow (assignRow (fun _ => 0) 8 [0x64, 0x6b]) 16 [0x64, 0x63]

/-- The words differ in the second byte. -/
theorem strcmp_spec_word : ∃ d, strcmp twoWords 3 8 16 = some d ∧
    (d = 0 ↔ [0x64, 0x6b] = ([0x64, 0x63] : List UInt8)) ∧ (d < 0 ↔ List.Lex ByteLt [0x64, 0x6b] [0x64, 0x63]) := by
  have hfirst : StringAt twoWords 8 [0x64, 0x6b] := ⟨by decide, by unfold RowAt; decide⟩
  have hsecond : StringAt twoWords 16 [0x64, 0x63] := ⟨by decide, by unfold RowAt; decide⟩
  exact strcmp_spec hfirst hsecond (by decide)

/-- A string copied with its terminator is that string. -/
theorem StringAt.copied (h : StringAt mem src l) (dst : ℕ) : StringAt (copied mem dst src (l.length + 1)) dst l := by
  refine ⟨h.1, fun i hi => ?_⟩
  have hlt : i < l.length + 1 := by rwa [List.length_append] at hi
  rw [Klib.copied, if_pos ⟨Nat.le_add_right dst i, Nat.add_lt_add_left hlt dst⟩, Nat.add_sub_cancel_left]
  exact h.2 i hi

/-- A string stays where another byte is assigned. -/
theorem StringAt.update (h : StringAt mem s l) {a : ℕ} (ha : a < s ∨ s + l.length < a) (v : UInt8) :
    StringAt (Function.update mem a v) s l := by
  refine ⟨h.1, h.2.congr fun i hlo hhi => Function.update_of_ne ?_ v mem⟩
  rw [List.length_append, List.length_singleton] at hhi
  omega

/-- **`strcpy` copies a string** and its terminator to where it does not overwrite what it has not yet read; and the
address that it returns is not that of the copy, but the one behind it. -/
theorem strcpy_spec (h : StringAt mem src l) (hover : dst ≤ src ∨ src + l.length < dst) (hn : l.length < n) :
    ∃ mem', strcpy n mem dst src = some (dst + l.length + 1, mem') ∧ mem' = copied mem dst src (l.length + 1) ∧
      StringAt mem' dst l := by
  refine ⟨_, ?_, rfl, h.copied dst⟩
  induction l generalizing mem dst src n with
  | nil =>
      obtain ⟨n, rfl⟩ := Nat.exists_eq_succ_of_ne_zero (Nat.ne_of_gt hn)
      have hcopied : copied mem dst src 1 = copyUp mem dst src 1 := (copyUp_eq (by omega)).symm
      rw [strcpy, if_neg (not_not_intro h.nil)]
      exact congrArg (fun mem' => some (dst + 1, mem')) hcopied.symm
  | cons b l ih =>
      obtain ⟨n, rfl⟩ := Nat.exists_eq_succ_of_ne_zero (Nat.ne_zero_of_lt hn)
      rw [List.length_cons] at hover hn ⊢
      obtain ⟨hb, hne, htail⟩ := h.cons
      have hcopied : copied mem dst src (l.length + 1 + 1) =
          copied (Function.update mem dst (mem src)) (dst + 1) (src + 1) (l.length + 1) := by
        rw [← copyUp_eq (by omega), ← copyUp_eq (by omega), copyUp]
      -- the rest of the string is still there
      have htail' : StringAt (Function.update mem dst (mem src)) (src + 1) l := htail.update (by omega) (mem src)
      have hrest : strcpy n (Function.update mem dst (mem src)) (dst + 1) (src + 1) = some (dst + 1 + l.length + 1,
          copied (Function.update mem dst (mem src)) (dst + 1) (src + 1) (l.length + 1)) :=
        ih htail' (by omega) (Nat.lt_of_succ_lt_succ hn)
      rw [strcpy, if_pos (hb ▸ hne), hrest, hcopied, Nat.add_right_comm dst 1]
      rfl

/-- A word that is moved down by one byte. -/
theorem strcpy_spec_word : ∃ mem', strcpy 3 (assignRow (fun _ => 0) 8 [0x64, 0x63]) 7 8 = some (10, mem') ∧
    mem' = copied (assignRow (fun _ => 0) 8 [0x64, 0x63]) 7 8 3 ∧ StringAt mem' 7 [0x64, 0x63] := by
  have hword : StringAt (assignRow (fun _ => 0) 8 [0x64, 0x63]) 8 [0x64, 0x63] :=
    ⟨by decide, by unfold RowAt; decide⟩
  exact strcpy_spec hword (by decide) (by decide)

end Scalux.Klib
