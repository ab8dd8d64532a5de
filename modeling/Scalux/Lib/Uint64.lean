import Mathlib.Data.Nat.Bitwise

/-! # Unsigned numbers of 64 and of 32 bits

The values of a `size_t`, a `uintptr_t` and an `unsigned int` are natural numbers, and what the operators of C do
with them is reduced modulo `2 ^ 64` or `2 ^ 32`.

* **`add64`**, **`sub64`**, **`incr64`**, **`decr64`**, **`sub32`**: the operators, with what each of them is when
  nothing wraps.
* **`roundUp`**: the mask that rounds up.  **`roundUp_eq`**: to a power of two it is a rounding, and to another
  number it is not. -/

namespace Scalux

variable {a b k : ℕ}

/-- `a + b`. -/
def add64 (a b : ℕ) : ℕ := (a + b) % 2 ^ 64

/-- `a - b`. -/
def sub64 (a b : ℕ) : ℕ := (a + (2 ^ 64 - b % 2 ^ 64)) % 2 ^ 64

/-- `a + 1`. -/
def incr64 (a : ℕ) : ℕ := (a + 1) % 2 ^ 64

/-- `a - 1`. -/
def decr64 (a : ℕ) : ℕ := (a + (2 ^ 64 - 1)) % 2 ^ 64

/-- `a - b`, as an `unsigned int`. -/
def sub32 (a b : ℕ) : ℕ := (a + (2 ^ 32 - b % 2 ^ 32)) % 2 ^ 32

/-- A sum that does not wrap: `a + b`. -/
theorem add64_eq (h : a + b < 2 ^ 64) : add64 a b = a + b := Nat.mod_eq_of_lt h

/-- A difference that does not wrap: `a - b`. -/
theorem sub64_eq (hle : b ≤ a) (hlt : a - b < 2 ^ 64) : sub64 a b = a - b := by
  unfold sub64
  omega

/-- A number that is not `0`, less one. -/
theorem decr64_eq (hpos : 0 < a) (hlt : a < 2 ^ 64) : decr64 a = a - 1 := by
  unfold decr64
  omega

/-- A difference of 32 bits that does not wrap: `a - b`. -/
theorem sub32_eq (hle : b ≤ a) (hlt : a < 2 ^ 32) : sub32 a b = a - b := by
  unfold sub32
  omega

/-! ## Rounding up by a mask -/

/-- `ROUNDUP`: `(a + align - 1) & ~(align - 1)`. -/
def roundUp (a align : ℕ) : ℕ := (a + align - 1) % 2 ^ 64 &&& (2 ^ 64 - 1 - (align - 1))

/-- The complement of `2 ^ k - 1` keeps the bits from `k` on: `a & ~(2 ^ k - 1) = a / 2 ^ k * 2 ^ k`. -/
theorem and_mask (ha : a < 2 ^ 64) (hk : k ≤ 64) : a &&& (2 ^ 64 - 1 - (2 ^ k - 1)) = a / 2 ^ k * 2 ^ k := by
  have hmask : 2 ^ 64 - 1 - (2 ^ k - 1) = (2 ^ (64 - k) - 1) * 2 ^ k := by
    rw [Nat.sub_mul, Nat.one_mul, ← Nat.pow_add, Nat.sub_add_cancel hk]
    have hpos := Nat.two_pow_pos k
    omega
  refine Nat.eq_of_testBit_eq fun i => ?_
  rw [hmask, Nat.testBit_and, Nat.testBit_mul_two_pow, Nat.testBit_mul_two_pow, Nat.testBit_two_pow_sub_one,
    Nat.testBit_div_two_pow]
  rcases Nat.lt_or_ge i k with hlt | hge
  · -- A bit below `k`: neither side has it.
    simp [Nat.not_le.mpr hlt]
  · rw [Nat.sub_add_cancel hge]
    rcases Nat.lt_or_ge i 64 with h64 | h64
    · have hin : i - k < 64 - k := by omega
      simp [hge, hin]
    · -- `a` has no bit from 64 on.
      rw [Nat.testBit_lt_two_pow (Nat.lt_of_lt_of_le ha (Nat.pow_le_pow_right (by decide) h64))]
      simp

/-- **To a power of two** the mask rounds up: `(a + (2 ^ k - 1)) / 2 ^ k * 2 ^ k`, as long as the sum does not
wrap. -/
theorem roundUp_eq (a : ℕ) (hk : k ≤ 64) :
    roundUp a (2 ^ k) = (a + (2 ^ k - 1)) % 2 ^ 64 / 2 ^ k * 2 ^ k := by
  rw [← Nat.add_sub_assoc (Nat.one_le_two_pow)]
  exact and_mask (Nat.mod_lt _ (Nat.two_pow_pos 64)) hk

/-- To a number that is no power of two it does not: `ROUNDUP(1, 511)` is `1`. -/
example : roundUp 1 511 = 1 := by decide

end Scalux
