import Mathlib.Data.Nat.Notation
import Mathlib.Data.List.Basic
import Mathlib.Logic.Function.Basic
import Mathlib.Algebra.Order.Ring.Nat
import Mathlib.Tactic.Ring

/-! # Bytes in a memory of words

A memory maps the address of a word of eight bytes to its value, least byte first.

* **`byteAt`**, **`storeByte`**: one byte.  **`loadBytes`**, **`storeBytes`**: some bytes in a row.
* **`byteAt_storeBytes`**, **`byteAt_storeBytes_of_out`**: what is read after a store. -/

namespace Scalux

/-- The address of the word of a byte. -/
def wordOf (a : ℕ) : ℕ := a / 8 * 8

/-- A byte of a memory. -/
def byteAt (mem : ℕ → ℕ) (a : ℕ) : ℕ := mem (wordOf a) / 256 ^ (a % 8) % 256

/-- A word with another byte `i`. -/
def setByte (w i v : ℕ) : ℕ := w / 256 ^ (i + 1) * 256 ^ (i + 1) + (v * 256 ^ i + w % 256 ^ i)

/-- Assigning a byte. -/
def storeByte (mem : ℕ → ℕ) (a v : ℕ) : ℕ → ℕ :=
  Function.update mem (wordOf a) (setByte (mem (wordOf a)) (a % 8) v)

/-- Some bytes in a row. -/
def loadBytes (mem : ℕ → ℕ) (a n : ℕ) : List ℕ := (List.range n).map fun i => byteAt mem (a + i)

/-- Assigning bytes in a row. -/
def storeBytes (mem : ℕ → ℕ) (a : ℕ) : List ℕ → ℕ → ℕ
  | [] => mem
  | v :: l => storeBytes (storeByte mem a v) (a + 1) l

variable {mem : ℕ → ℕ} {a b v w i j : ℕ} {l : List ℕ}

/-! ## One byte of a word -/

/-- The bytes below the one that is set are as before. -/
theorem setByte_mod (w i v : ℕ) : setByte w i v % 256 ^ i = w % 256 ^ i := by
  have hsplit : setByte w i v = 256 ^ i * (w / 256 ^ (i + 1) * 256 + v) + w % 256 ^ i := by
    unfold setByte
    rw [pow_succ]
    ring
  rw [hsplit, Nat.mul_add_mod, Nat.mod_mod]

/-- So are those above it. -/
theorem setByte_div (hv : v < 256) : setByte w i v / 256 ^ (i + 1) = w / 256 ^ (i + 1) := by
  have hpos : 0 < 256 ^ i := Nat.pow_pos (by decide)
  have hlow : v * 256 ^ i + w % 256 ^ i < 256 ^ (i + 1) := by
    have hmod : w % 256 ^ i < 256 ^ i := Nat.mod_lt _ hpos
    have hmul : (v + 1) * 256 ^ i ≤ 256 * 256 ^ i := Nat.mul_le_mul_right _ hv
    rw [Nat.succ_mul] at hmul
    rw [pow_succ]
    omega
  unfold setByte
  rw [Nat.mul_comm, Nat.mul_add_div (Nat.pow_pos (by decide)), Nat.div_eq_of_lt hlow, Nat.add_zero]

/-- The byte that is set. -/
theorem setByte_self (hv : v < 256) : setByte w i v / 256 ^ i % 256 = v := by
  have hpos : 0 < 256 ^ i := Nat.pow_pos (by decide)
  have hsplit : setByte w i v = 256 ^ i * (256 * (w / 256 ^ (i + 1)) + v) + w % 256 ^ i := by
    unfold setByte
    rw [pow_succ]
    ring
  rw [hsplit, Nat.mul_add_div hpos, Nat.div_eq_of_lt (Nat.mod_lt _ hpos), Nat.add_zero, Nat.mul_add_mod,
    Nat.mod_eq_of_lt hv]

/-- Any other byte. -/
theorem setByte_of_ne (hv : v < 256) (hij : i ≠ j) :
    setByte w i v / 256 ^ j % 256 = w / 256 ^ j % 256 := by
  rcases Nat.lt_or_gt_of_ne hij with hlt | hgt
  · obtain ⟨d, rfl⟩ := Nat.exists_eq_add_of_lt hlt
    have hpow : 256 ^ (i + d + 1) = 256 ^ (i + 1) * 256 ^ d := by
      rw [← pow_add]
      congr 1
      omega
    rw [hpow, ← Nat.div_div_eq_div_mul, ← Nat.div_div_eq_div_mul, setByte_div hv]
  · have hdvd : 256 ^ (j + 1) ∣ 256 ^ i := pow_dvd_pow _ hgt
    have hmod : setByte w i v % 256 ^ (j + 1) = w % 256 ^ (j + 1) := by
      rw [← Nat.mod_mod_of_dvd _ hdvd, setByte_mod, Nat.mod_mod_of_dvd _ hdvd]
    rw [pow_succ] at hmod
    rw [← Nat.mod_mul_right_div_self, ← Nat.mod_mul_right_div_self, hmod]

/-! ## Bytes of a memory -/

/-- The byte that has been stored is there. -/
theorem byteAt_storeByte_self (mem : ℕ → ℕ) (a : ℕ) (hv : v < 256) : byteAt (storeByte mem a v) a = v := by
  unfold byteAt storeByte
  rw [Function.update_self, setByte_self hv]

/-- Every other byte is as before. -/
theorem byteAt_storeByte_of_ne (mem : ℕ → ℕ) (hv : v < 256) (hne : b ≠ a) :
    byteAt (storeByte mem a v) b = byteAt mem b := by
  unfold byteAt storeByte
  by_cases hword : wordOf b = wordOf a
  · have hij : a % 8 ≠ b % 8 := by
      unfold wordOf at hword
      omega
    rw [hword, Function.update_self, setByte_of_ne hv hij]
  · rw [Function.update_of_ne hword]

/-- A byte outside of those that are assigned. -/
theorem byteAt_storeBytes_of_out (hl : ∀ v ∈ l, v < 256) (hb : b < a ∨ a + l.length ≤ b) :
    byteAt (storeBytes mem a l) b = byteAt mem b := by
  induction l generalizing mem a with
  | nil => rfl
  | cons v l ih =>
      rw [List.length_cons] at hb
      rw [storeBytes, ih (fun v hv => hl v (List.mem_cons_of_mem _ hv)) (by omega)]
      exact byteAt_storeByte_of_ne mem (hl v List.mem_cons_self) (by omega)

/-- The bytes that are assigned. -/
theorem byteAt_storeBytes (hl : ∀ v ∈ l, v < 256) (hi : i < l.length) :
    byteAt (storeBytes mem a l) (a + i) = l[i] := by
  induction l generalizing mem a i with
  | nil => exact absurd hi (Nat.not_lt_zero i)
  | cons v l ih =>
      have hl' : ∀ v ∈ l, v < 256 := fun v hv => hl v (List.mem_cons_of_mem _ hv)
      rw [storeBytes]
      cases i with
      | zero =>
          rw [Nat.add_zero, byteAt_storeBytes_of_out hl' (by omega)]
          exact byteAt_storeByte_self mem a (hl v List.mem_cons_self)
      | succ i =>
          have hidx : a + (i + 1) = a + 1 + i := by omega
          rw [hidx]
          exact ih hl' (Nat.lt_of_succ_lt_succ hi)

/-- What holds of a memory and of it after each byte holds after all. -/
theorem storeBytes_induction {P : (ℕ → ℕ) → Prop} (h : P mem)
    (hstep : ∀ mem b v, a ≤ b → b < a + l.length → P mem → P (storeByte mem b v)) :
    P (storeBytes mem a l) := by
  induction l generalizing mem a with
  | nil => exact h
  | cons v l ih =>
      rw [List.length_cons] at hstep
      refine ih (hstep mem a v (Nat.le_refl a) (by omega) h) fun mem b v hlo hhi hp => ?_
      exact hstep mem b v (by omega) (by omega) hp

/-- As many bytes are loaded as are asked for. -/
theorem length_loadBytes (mem : ℕ → ℕ) (a n : ℕ) : (loadBytes mem a n).length = n := by
  rw [loadBytes, List.length_map, List.length_range]

/-- What is loaded are bytes: less than 256. -/
theorem loadBytes_lt (mem : ℕ → ℕ) (a n : ℕ) : ∀ v ∈ loadBytes mem a n, v < 256 := by
  intro v hv
  obtain ⟨i, -, rfl⟩ := List.mem_map.mp hv
  exact Nat.mod_lt _ (by decide)

/-- Bytes in a row that have been copied. -/
theorem byteAt_copy (mem' : ℕ → ℕ) (src : ℕ) {n : ℕ} (hi : i < n) :
    byteAt (storeBytes mem a (loadBytes mem' src n)) (a + i) = byteAt mem' (src + i) := by
  rw [byteAt_storeBytes (loadBytes_lt mem' src n) (by rw [length_loadBytes]; exact hi)]
  simp [loadBytes]

end Scalux
