import Mathlib.Algebra.BigOperators.Group.List.Basic
import Mathlib.Algebra.Order.Ring.Nat
import Mathlib.Data.List.Forall2

/-! # Fields of a word

A word that is made of fields of given widths, most significant first: `pack` shifts each value to its place
and joins them, and `unpack` shifts each field to the right and masks it.

* **`unpack_pack`**, **`pack_unpack`**: they are inverse to each other.
* **`pack_lt`**: a word has as many bits as its fields. -/

namespace Scalux.Fields

/-- The word with some values in its fields. -/
def pack : List ℕ → List ℕ → ℕ
  | _ :: ws, v :: vs => v <<< ws.sum ||| pack ws vs
  | _, _ => 0

/-- The values of the fields of a word. -/
def unpack : List ℕ → ℕ → List ℕ
  | [], _ => []
  | w :: ws, n => (n >>> ws.sum &&& 2 ^ w - 1) :: unpack ws n

variable {w v n k : ℕ} {ws vs : List ℕ}

/-- A value for each field, that it has room for. -/
abbrev Fit (ws vs : List ℕ) : Prop := List.Forall₂ (fun w v => v < 2 ^ w) ws vs

/-- A word has as many bits as its fields. -/
theorem pack_lt (h : Fit ws vs) : pack ws vs < 2 ^ ws.sum := by
  induction h with
  | nil => exact Nat.one_pos
  | @cons w v ws vs hv _ ih =>
      rw [pack, List.sum_cons]
      refine Nat.or_lt_two_pow ?_ (ih.trans_le (Nat.pow_le_pow_right (by decide) (Nat.le_add_left _ _)))
      rw [Nat.shiftLeft_eq, Nat.pow_add]
      exact Nat.mul_lt_mul_of_pos_right hv (Nat.pow_pos (by decide))

/-- The fields do not overlap. -/
theorem pack_cons (h : Fit ws vs) : pack (w :: ws) (v :: vs) = 2 ^ ws.sum * v + pack ws vs := by
  rw [pack, ← Nat.shiftLeft_add_eq_or_of_lt (pack_lt h), Nat.shiftLeft_eq, Nat.mul_comm]

/-- A field is a part of the word's digits. -/
theorem unpack_cons : unpack (w :: ws) n = n / 2 ^ ws.sum % 2 ^ w :: unpack ws n := by
  rw [unpack, Nat.and_two_pow_sub_one_eq_mod, Nat.shiftRight_eq_div_pow]

/-- The fields of a word have room for their values. -/
theorem fit_unpack (ws : List ℕ) (n : ℕ) : Fit ws (unpack ws n) := by
  induction ws with
  | nil => exact .nil
  | cons w ws ih =>
      rw [unpack_cons]
      exact .cons (Nat.mod_lt _ (Nat.pow_pos (by decide))) ih

/-- The fields depend on the bits below their widths. -/
theorem unpack_mod (hk : ws.sum ≤ k) : unpack ws (n % 2 ^ k) = unpack ws n := by
  induction ws with
  | nil => rfl
  | cons w ws ih =>
      rw [List.sum_cons] at hk
      obtain ⟨j, rfl⟩ := Nat.exists_eq_add_of_le hk
      rw [unpack_cons, unpack_cons, ih (by omega)]
      -- the digits above the field are taken away twice
      have hsplit : w + ws.sum + j = ws.sum + (w + j) := by omega
      rw [hsplit, Nat.pow_add, Nat.mod_mul_right_div_self, Nat.pow_add 2 w j, Nat.mod_mul_right_mod]

/-- **What was packed is unpacked.** -/
theorem unpack_pack (h : Fit ws vs) : unpack ws (pack ws vs) = vs := by
  induction h with
  | nil => rfl
  | @cons w v ws vs hv htail ih =>
      have hlow : (2 ^ ws.sum * v + pack ws vs) % 2 ^ ws.sum = pack ws vs := by
        rw [Nat.mul_add_mod, Nat.mod_eq_of_lt (pack_lt htail)]
      rw [pack_cons htail, unpack_cons, Nat.mul_add_div (Nat.pow_pos (by decide)),
        Nat.div_eq_of_lt (pack_lt htail), Nat.add_zero, Nat.mod_eq_of_lt hv,
        ← unpack_mod (Nat.le_refl ws.sum), hlow, ih]

/-- **What was unpacked is packed.** -/
theorem pack_unpack (h : n < 2 ^ ws.sum) : pack ws (unpack ws n) = n := by
  induction ws generalizing n with
  | nil =>
      rw [List.sum_nil, Nat.pow_zero, Nat.lt_one_iff] at h
      exact h.symm
  | cons w ws ih =>
      rw [List.sum_cons, Nat.add_comm, Nat.pow_add] at h
      rw [unpack_cons, pack_cons (fit_unpack ws n), Nat.mod_eq_of_lt (Nat.div_lt_of_lt_mul h),
        ← unpack_mod (Nat.le_refl ws.sum), ih (Nat.mod_lt _ (Nat.pow_pos (by decide)))]
      exact Nat.div_add_mod n _

end Scalux.Fields
