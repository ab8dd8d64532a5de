import Mathlib.Algebra.Group.Nat.Defs
import Mathlib.Data.Nat.ModEq

/-! # Positions in a ring

Both sides of a ring of `n` slots count what they have put in and taken out.  The slot of the `i`-th
element is `i % n`, and the parity of its lap is `lap n i`.

* **`slot_succ`**, **`lap_succ`**: a position that goes back to the first slot after the last one.
* **`slot_ne`**: elements that are less than a lap apart have different slots. -/

namespace Scalux.Ring

variable {n i j : ℕ}

/-- The parity of the lap of the `i`-th element. -/
def lap (n i : ℕ) : ℕ := i / n % 2

/-- The slot and the lap of the element after the last one of a lap. -/
theorem succ_of_last (h : i % n + 1 = n) : i + 1 = n * (i / n + 1) := by
  have hi := Nat.div_add_mod i n
  rw [Nat.mul_add, Nat.mul_one]
  omega

/-- The element after another one of a lap. -/
theorem succ_of_inner (i n : ℕ) : i + 1 = n * (i / n) + (i % n + 1) := by
  have hi := Nat.div_add_mod i n
  omega

/-- The next slot: after the last slot it is the first one. -/
theorem slot_succ (hn : 0 < n) (i : ℕ) : (i + 1) % n = if i % n + 1 = n then 0 else i % n + 1 := by
  have hlt := Nat.mod_lt i hn
  split
  · rename_i hlast
    rw [succ_of_last hlast, Nat.mul_mod_right]
  · rw [succ_of_inner i n, Nat.mul_add_mod]
    exact Nat.mod_eq_of_lt (by omega)

/-- The next lap. -/
theorem lap_succ (hn : 0 < n) (i : ℕ) :
    lap n (i + 1) = if i % n + 1 = n then 1 - lap n i else lap n i := by
  have hlt := Nat.mod_lt i hn
  unfold lap
  split
  · rename_i hlast
    rw [succ_of_last hlast, Nat.mul_div_cancel_left _ hn]
    omega
  · have hinner : (i % n + 1) / n = 0 := Nat.div_eq_of_lt (by omega)
    have hdiv : (i + 1) / n = i / n := by
      rw [succ_of_inner i n, Nat.mul_add_div hn, hinner, Nat.add_zero]
    rw [hdiv]

/-- A lap later. -/
theorem lap_add_self (hn : 0 < n) (i : ℕ) : lap n (i + n) = 1 - lap n i := by
  unfold lap
  rw [Nat.add_div_right i hn]
  omega

/-- A lap is even or odd. -/
theorem lap_lt_two (n i : ℕ) : lap n i < 2 := Nat.mod_lt _ (by decide)

/-- Elements less than a lap apart have different slots. -/
theorem slot_ne (hij : i < j) (hj : j < i + n) : i % n ≠ j % n := by
  intro heq
  have hdvd : n ∣ j - i := (Nat.modEq_iff_dvd' (Nat.le_of_lt hij)).mp heq
  exact absurd (Nat.le_of_dvd (by omega) hdvd) (by omega)

end Scalux.Ring
