import Mathlib.Data.List.Basic
import Mathlib.Data.List.Nodup

/-! # Tail queues as lists

The operations of a doubly linked tail queue on the list of its elements, head first.  In a queue
an element is linked once, so every operation is determined by how the list splits at the element:
`l ++ x :: r` with `x` in neither part.  Each lemma evaluates one operation at such a split. -/

namespace Scalux.Queue

variable {α : Type*} [DecidableEq α] {x y : α} {l r : List α}

/-- Insert `y` directly before `x`. -/
def insertBefore (x y : α) : List α → List α
  | [] => []
  | a :: l => if a = x then y :: a :: l else a :: insertBefore x y l

/-- Insert `y` directly after `x`. -/
def insertAfter (x y : α) : List α → List α
  | [] => []
  | a :: l => if a = x then a :: y :: l else a :: insertAfter x y l

/-- The element directly after `x`. -/
def nextOf (x : α) : List α → Option α
  | [] => none
  | a :: l => if a = x then l.head? else nextOf x l

/-- The element directly before `x`. -/
def prevOf (x : α) : List α → Option α
  | [] => none
  | a :: l => if l.head? = some x then some a else prevOf x l

/-- An insertion before the element at the split: `l ++ y :: x :: r`. -/
theorem insertBefore_split (hl : x ∉ l) :
    insertBefore x y (l ++ x :: r) = l ++ y :: x :: r := by
  induction l with
  | nil => rw [List.nil_append, insertBefore, if_pos rfl, List.nil_append]
  | cons a l ih =>
      obtain ⟨ha, hl⟩ := List.ne_and_not_mem_of_not_mem_cons hl
      rw [List.cons_append, insertBefore, if_neg (Ne.symm ha), ih hl, List.cons_append]

/-- An insertion behind the element at the split: `l ++ x :: y :: r`. -/
theorem insertAfter_split (hl : x ∉ l) :
    insertAfter x y (l ++ x :: r) = l ++ x :: y :: r := by
  induction l with
  | nil => rw [List.nil_append, insertAfter, if_pos rfl, List.nil_append]
  | cons a l ih =>
      obtain ⟨ha, hl⟩ := List.ne_and_not_mem_of_not_mem_cons hl
      rw [List.cons_append, insertAfter, if_neg (Ne.symm ha), ih hl, List.cons_append]

/-- The element behind the split is the head of the rest: `r.head?`. -/
theorem nextOf_split (hl : x ∉ l) : nextOf x (l ++ x :: r) = r.head? := by
  induction l with
  | nil => rw [List.nil_append, nextOf, if_pos rfl]
  | cons a l ih =>
      obtain ⟨ha, hl⟩ := List.ne_and_not_mem_of_not_mem_cons hl
      rw [List.cons_append, nextOf, if_neg (Ne.symm ha), ih hl]

/-- There is none before what is not in the list. -/
theorem prevOf_eq_none (hl : x ∉ l) : prevOf x l = none := by
  induction l with
  | nil => rfl
  | cons a l ih =>
      obtain ⟨-, hl⟩ := List.ne_and_not_mem_of_not_mem_cons hl
      rw [prevOf, if_neg (mt List.mem_of_head? hl), ih hl]

/-- The element before the split is the last of what is before: `l.getLast?`. -/
theorem prevOf_split (hl : x ∉ l) (hr : x ∉ r) : prevOf x (l ++ x :: r) = l.getLast? := by
  induction l with
  | nil =>
      rw [List.nil_append, prevOf, if_neg (mt List.mem_of_head? hr),
        prevOf_eq_none hr, List.getLast?_nil]
  | cons a l ih =>
      obtain ⟨-, hl⟩ := List.ne_and_not_mem_of_not_mem_cons hl
      rw [List.cons_append, prevOf, ih hl]
      cases l with
      | nil => rw [List.nil_append, List.head?_cons, if_pos rfl, List.getLast?_singleton]
      | cons b l =>
          obtain ⟨hb, -⟩ := List.ne_and_not_mem_of_not_mem_cons hl
          rw [List.cons_append, List.head?_cons, if_neg (fun h => hb (Option.some.inj h).symm),
            List.getLast?_cons_cons]

/-- A removal at the split: `l ++ r`. -/
theorem erase_split (hl : x ∉ l) : (l ++ x :: r).erase x = l ++ r := by
  rw [List.erase_append_right _ hl, List.erase_cons_head]

omit [DecidableEq α] in
/-- The split of a duplicate-free list at one of its elements. -/
theorem exists_split {q : List α} (hnd : q.Nodup) (hx : x ∈ q) :
    ∃ l r, q = l ++ x :: r ∧ x ∉ l ∧ x ∉ r := by
  obtain ⟨l, r, rfl⟩ := List.append_of_mem hx
  have hnd' := List.nodup_middle.mp hnd
  obtain ⟨hnot, -⟩ := List.nodup_cons.mp hnd'
  exact ⟨l, r, rfl, fun h => hnot (List.mem_append_left _ h),
    fun h => hnot (List.mem_append_right _ h)⟩

end Scalux.Queue
