import Mathlib.Data.List.Basic

/-! # Lists accepted by a scan

A property of a list that is checked element by element from left to right is a **scan**: a state
that each element advances, a condition on each element in the state before it, and a condition on
the state at the end.  The shape of an allocator's queue is such a property.

What makes scans useful for queues that are edited in the middle is `Scan.Accepts.splice`: to
replace a stretch of the list it is enough to look at the state reached before it. -/

namespace Scalux

/-- A left-to-right check of lists over `α` with states `σ`. -/
structure Scan (σ α : Type*) where
  /-- The state after an element. -/
  next : σ → α → σ
  /-- What is required of an element in the state before it. -/
  ok : σ → α → Prop
  /-- What is required of the state at the end. -/
  done : σ → Prop

namespace Scan

variable {σ α : Type*} (S : Scan σ α)

/-- The list passes the check from state `s`. -/
def Accepts : σ → List α → Prop
  | s, [] => S.done s
  | s, a :: l => S.ok s a ∧ Accepts (S.next s a) l

/-- The state after a list. -/
def after (s : σ) (l : List α) : σ := l.foldl S.next s

/-- The head is accepted, and the rest from the next state. -/
@[simp] theorem accepts_cons (s : σ) (a : α) (l : List α) :
    S.Accepts s (a :: l) ↔ S.ok s a ∧ S.Accepts (S.next s a) l := Iff.rfl

/-- The state after the head, then after the rest. -/
@[simp] theorem after_cons (s : σ) (a : α) (l : List α) :
    S.after s (a :: l) = S.after (S.next s a) l := rfl

variable {S} {s : σ} {l m m' : List α}

/-- **Splice.** The end of an accepted list may be replaced by one that is accepted from the same
state. -/
theorem Accepts.splice (h : S.Accepts s (l ++ m))
    (hm : S.Accepts (S.after s l) m → S.Accepts (S.after s l) m') : S.Accepts s (l ++ m') := by
  induction l generalizing s with
  | nil => exact hm h
  | cons a l ih => exact ⟨h.1, ih h.2 hm⟩

/-- The end of an accepted list is accepted from the state before it. -/
theorem Accepts.right (h : S.Accepts s (l ++ m)) : S.Accepts (S.after s l) m := by
  induction l generalizing s with
  | nil => exact h
  | cons a l ih => exact ih h.2

/-- A property of states that holds initially and that accepted elements keep holds after any
beginning of an accepted list. -/
theorem Accepts.invariant {P : σ → Prop} (h : S.Accepts s (l ++ m)) (h₀ : P s)
    (hstep : ∀ s, P s → ∀ a ∈ l, S.ok s a → P (S.next s a)) : P (S.after s l) := by
  induction l generalizing s with
  | nil => exact h₀
  | cons a l ih =>
      exact ih h.2 (hstep s h₀ a List.mem_cons_self h.1)
        fun s hs b hb => hstep s hs b (List.mem_cons_of_mem a hb)

end Scan

end Scalux
