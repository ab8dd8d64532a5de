import Mathlib.Algebra.BigOperators.Group.List.Basic

/-! # Delta lists

A delta list holds, for each key, the time from the key before it; `due b l` turns it into the
absolute times it stands for, counted from `b`.

* **`due_append`**: the times of a concatenation.
* **`due_cons_cons`**: the removal of the first key.
* **`mem_due_iff`**: the time of a key is `b` plus the deltas up to the key. -/

namespace Scalux.Delta

variable {κ M : Type*} [AddMonoid M] {b : M} {k : κ} {t : M} {l l' : List (κ × M)}

/-- The absolute times that a delta list stands for, counted from `b`. -/
def due : M → List (κ × M) → List (κ × M)
  | _, [] => []
  | b, (k, d) :: l => (k, b + d) :: due (b + d) l

/-- The sum of the deltas. -/
def total (l : List (κ × M)) : M := (l.map Prod.snd).sum

/-- Nothing is due in an empty queue. -/
@[simp] theorem due_nil : due b ([] : List (κ × M)) = [] := rfl

/-- The head is due after its own time, and the others that much later. -/
@[simp] theorem due_cons (b : M) (k : κ) (d : M) (l : List (κ × M)) :
    due b ((k, d) :: l) = (k, b + d) :: due (b + d) l := rfl

/-- The total of an empty queue is 0. -/
@[simp] theorem total_nil : total ([] : List (κ × M)) = 0 := rfl

/-- The total with a head: `d + total l`. -/
@[simp] theorem total_cons (k : κ) (d : M) (l : List (κ × M)) :
    total ((k, d) :: l) = d + total l :=
  List.sum_cons

/-- The total of two queues: `total l + total l'`. -/
theorem total_append (l l' : List (κ × M)) : total (l ++ l') = total l + total l' := by
  rw [total, List.map_append, List.sum_append]
  rfl

/-- What follows a delta list counts from its last time. -/
theorem due_append (b : M) (l l' : List (κ × M)) :
    due b (l ++ l') = due b l ++ due (b + total l) l' := by
  induction l generalizing b with
  | nil => rw [total_nil, add_zero]; rfl
  | cons x l ih =>
      obtain ⟨k, d⟩ := x
      rw [List.cons_append, due_cons, due_cons, ih, total_cons, add_assoc, List.cons_append]

/-- A key is gone, and the next one takes its delta on: all other times stay. -/
theorem due_cons_cons (b : M) (k k' : κ) (d d' : M) (l : List (κ × M)) :
    due b ((k, d) :: (k', d') :: l) = (k, b + d) :: due b ((k', d + d') :: l) := by
  rw [due_cons, due_cons, due_cons, add_assoc]

/-- The keys are those of the list. -/
theorem map_fst_due (b : M) (l : List (κ × M)) : (due b l).map Prod.fst = l.map Prod.fst := by
  induction l generalizing b with
  | nil => rfl
  | cons x l ih => rw [due_cons, List.map_cons, List.map_cons, ih]

/-- The time of a key is the sum of the deltas up to the key. -/
theorem mem_due_iff :
    (k, t) ∈ due b l ↔ ∃ A d B, l = A ++ (k, d) :: B ∧ t = b + total A + d := by
  induction l generalizing b with
  | nil => simp
  | cons x l ih =>
      obtain ⟨j, e⟩ := x
      rw [due_cons, List.mem_cons, ih]
      -- an element is the head, or it lies behind it and the head is part of what precedes it
      constructor
      · rintro (heq | ⟨A, d, B, rfl, rfl⟩)
        · obtain ⟨rfl, rfl⟩ := Prod.mk.inj heq
          exact ⟨[], e, l, rfl, by rw [total_nil, add_zero]⟩
        · exact ⟨(j, e) :: A, d, B, rfl, by rw [total_cons, add_assoc b e]⟩
      · rintro ⟨A, d, B, hl, rfl⟩
        cases A with
        | nil =>
            obtain ⟨heq, -⟩ := List.cons.inj hl
            obtain ⟨rfl, rfl⟩ := Prod.mk.inj heq
            rw [total_nil, add_zero]
            exact .inl rfl
        | cons y A =>
            obtain ⟨rfl, rfl⟩ := List.cons.inj hl
            refine .inr ⟨A, d, B, rfl, ?_⟩
            rw [total_cons, add_assoc b e]

end Scalux.Delta
