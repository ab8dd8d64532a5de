import Mathlib.Data.List.TakeDrop
import Mathlib.Data.List.GetD
import Mathlib.Order.Lattice
import Mathlib.Order.Nat

/-! # Lists as arrays

A list as an array that is read and written at an offset.  A write past the end makes the list longer, and
what lies between the old end and the write is filled with a default.

* **`getD_writeAt`**, **`length_writeAt`**: what a write does.
* **`readAt_eq_map`**: what a read returns.
* **`getElem?_flatMap_block`**: an element of a list in blocks of one length. -/

namespace Scalux

variable {α : Type*}

/-- The list `f` with `buf` at the offset `off`. -/
def writeAt (d : α) (f buf : List α) (off : ℕ) : List α :=
  match buf with
  | [] => f
  | _ :: _ => f.takeD off d ++ buf ++ f.drop (off + buf.length)

/-- At most `n` elements of the list at the offset `off`. -/
def readAt (f : List α) (n off : ℕ) : List α := (f.drop off).take n

/-- A list that is made `n` long: the elements that there are, and then the default. -/
theorem getD_takeD (f : List α) (d : α) (n i : ℕ) :
    (f.takeD n d).getD i d = if i < n then f.getD i d else d := by
  induction n generalizing f i with
  | zero => simp
  | succ n ih =>
      cases f with
      | nil =>
          cases i with
          | zero => simp
          | succ i => simp
      | cons x f =>
          cases i with
          | zero => simp
          | succ i => simpa using ih f i

/-- An element after a write: from the buffer in its range, and as before elsewhere. -/
theorem getD_writeAt (d : α) (f buf : List α) (off i : ℕ) : (writeAt d f buf off).getD i d
    = if off ≤ i ∧ i < off + buf.length then buf.getD (i - off) d else f.getD i d := by
  cases buf with
  | nil =>
      rw [writeAt, if_neg]
      rintro ⟨hle, hlt⟩
      rw [List.length_nil] at hlt
      omega
  | cons b buf =>
      have hlen : (f.takeD off d).length = off := List.takeD_length _ _ _
      rw [writeAt]
      rcases Nat.lt_or_ge i off with hlt | hge
      · rw [if_neg (by omega), List.append_assoc, List.getD_append _ _ _ _ (by omega), getD_takeD,
          if_pos hlt]
      · rw [List.append_assoc, List.getD_append_right _ _ _ _ (by omega), hlen]
        rcases Nat.lt_or_ge i (off + (b :: buf).length) with hlt | hge'
        · rw [if_pos ⟨hge, hlt⟩, List.getD_append _ _ _ _ (by omega)]
        · rw [if_neg (by omega), List.getD_append_right _ _ _ _ (by omega), List.getD_eq_getElem?_getD,
            List.getElem?_drop, List.getD_eq_getElem?_getD]
          congr 2
          omega

/-- The length after a write: `max f.length (off + buf.length)`, unless nothing is written. -/
theorem length_writeAt (d : α) (f buf : List α) (off : ℕ) : (writeAt d f buf off).length
    = if buf = [] then f.length else max f.length (off + buf.length) := by
  cases buf with
  | nil => rfl
  | cons b buf =>
      rw [writeAt, if_neg (List.cons_ne_nil _ _), List.length_append, List.length_append,
        List.takeD_length, List.length_drop]
      omega

/-- A read, element by element. -/
theorem readAt_eq_map (d : α) (f : List α) (n off : ℕ) :
    readAt f n off = (List.range (min n (f.length - off))).map fun k => f.getD (off + k) d := by
  refine List.ext_getElem ?_ fun i h₁ h₂ => ?_
  · simp [readAt]
  · have hi : off + i < f.length := by
      rw [readAt, List.length_take, List.length_drop] at h₁
      omega
    simp [readAt, List.getElem?_eq_getElem hi]

/-! ## Lists in blocks of one length

A list that is the concatenation of blocks of one length `n`: its element `i` is the element `i % n` of the
block `i / n`. -/

section Blocks

variable {β : Type*} {f : α → List β} {n : ℕ}

/-- An element of a list of blocks of one length. -/
theorem getElem?_flatMap_block (hf : ∀ a, (f a).length = n) (hn : 0 < n) (l : List α) (i : ℕ) :
    (l.flatMap f)[i]? = (l[i / n]?).bind fun a => (f a)[i % n]? := by
  induction l generalizing i with
  | nil => simp
  | cons a l ih =>
      rw [List.flatMap_cons]
      rcases Nat.lt_or_ge i n with hlt | hge
      · rw [List.getElem?_append_left (by rw [hf]; exact hlt), Nat.div_eq_of_lt hlt,
          Nat.mod_eq_of_lt hlt]
        rfl
      · have hdiv : i / n = (i - n) / n + 1 := by
          rw [Nat.div_eq_sub_div hn hge]
        rw [List.getElem?_append_right (by rw [hf]; exact hge), hf, ih, hdiv, Nat.mod_eq_sub_mod hge,
          List.getElem?_cons_succ]

/-- The length of a list of blocks. -/
theorem length_flatMap_block (hf : ∀ a, (f a).length = n) (l : List α) :
    (l.flatMap f).length = l.length * n := by
  induction l with
  | nil => simp
  | cons a l ih =>
      rw [List.flatMap_cons, List.length_append, hf, ih, List.length_cons, Nat.succ_mul, Nat.add_comm]

end Blocks

end Scalux
