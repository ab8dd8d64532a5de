import Mathlib.Data.List.Basic
import Mathlib.Data.Nat.Notation
import Mathlib.Logic.Function.Basic

/-! # Rows of a memory

A memory maps addresses to values of any type, and a row of values is assigned to it, and read from it, from
an address on: what `memcpy`, `memset` and the printing functions do.

* **`assignRow`**, **`RowAt`**: a row that is assigned, and a row that is there.
* **`assignRow_of_out`**, **`assignRow_add`**: what a memory maps to after it.
* **`RowAt.congr`**, **`RowAt.append_assignRow`**: what becomes of a row that was there.

Values may also be assigned each at its own address, in the order of a list.  The points that a program draws
are such a list: each has an address and a value.

* **`assignAll_of_ne`**: what is at an address that nothing is assigned to.
* **`assignAll_map`**: what is at the address of a point, when distinct points have distinct addresses. -/

namespace Scalux

variable {α : Type*} {mem mem' : ℕ → α} {a b n i : ℕ} {l l' : List α}

/-- The values of a list, assigned from an address on. -/
def assignRow (mem : ℕ → α) (a : ℕ) (l : List α) : ℕ → α := fun b =>
  if a ≤ b then l[b - a]?.getD (mem b) else mem b

/-- The values of a list are there from an address on. -/
def RowAt (mem : ℕ → α) (a : ℕ) (l : List α) : Prop := ∀ i (h : i < l.length), mem (a + i) = l[i]

/-- Outside of the row nothing changes. -/
theorem assignRow_of_out (h : b < a ∨ a + l.length ≤ b) : assignRow mem a l b = mem b := by
  unfold assignRow
  split
  · rw [List.getElem?_eq_none (by omega), Option.getD_none]
  · rfl

/-- In the row is the list. -/
theorem assignRow_add (h : i < l.length) : assignRow mem a l (a + i) = l[i] := by
  rw [assignRow, if_pos (Nat.le_add_right a i), Nat.add_sub_cancel_left, List.getElem?_eq_getElem h,
    Option.getD_some]

@[simp] theorem assignRow_nil (mem : ℕ → α) (a : ℕ) : assignRow mem a [] = mem :=
  funext fun b => assignRow_of_out (by rw [List.length_nil]; omega)

/-- What was assigned is there. -/
theorem rowAt_assignRow (mem : ℕ → α) (a : ℕ) (l : List α) : RowAt (assignRow mem a l) a l :=
  fun _ hi => assignRow_add hi

/-- A row depends on its own addresses only. -/
theorem RowAt.congr (h : RowAt mem a l) (hmem : ∀ b, a ≤ b → b < a + l.length → mem' b = mem b) :
    RowAt mem' a l := fun i hi => (hmem (a + i) (Nat.le_add_right a i) (by omega)).trans (h i hi)

/-- The beginning of a row stays when what is behind it is assigned. -/
theorem RowAt.append_assignRow (h : RowAt mem a l) (hn : n ≤ l.length) (l' : List α) :
    RowAt (assignRow mem (a + n) l') a (l.take n ++ l') := by
  have hlen : (l.take n).length = n := by rw [List.length_take, Nat.min_eq_left hn]
  intro i hi
  rcases Nat.lt_or_ge i n with hlt | hge
  · rw [assignRow_of_out (.inl (by omega)), h i (by omega),
      List.getElem_append_left (by rw [hlen]; exact hlt), List.getElem_take]
  · have hassign := rowAt_assignRow mem (a + n) l' (i - n) (by
      rw [List.length_append, hlen] at hi
      omega)
    have haddr : a + n + (i - n) = a + i := by omega
    rw [haddr] at hassign
    rw [hassign, List.getElem_append_right (by rw [hlen]; exact hge)]
    simp only [hlen]

/-- Rows with an end that is in neither of them have the same length. -/
theorem RowAt.length_le {x : α} (h : RowAt mem a (l ++ [x])) (h' : RowAt mem a (l' ++ [x])) (hl : x ∉ l) :
    l.length ≤ l'.length := by
  by_contra hlt
  have hlt := Nat.lt_of_not_le hlt
  have hvalue := h l'.length (by rw [List.length_append]; omega)
  have hend := h' l'.length (by rw [List.length_append, List.length_singleton]; omega)
  rw [List.getElem_append_left hlt] at hvalue
  rw [List.getElem_append_right (Nat.le_refl _), List.getElem_singleton] at hend
  exact hl (by rw [← hend, hvalue]; exact List.getElem_mem hlt)

/-! ## Assignments one after another -/

section Assignments

variable {α ι : Type*} {mem : ℕ → α} {l l' : List (ℕ × α)} {a : ℕ}

/-- The values of a list are assigned to their addresses. -/
def assignAll (mem : ℕ → α) (l : List (ℕ × α)) : ℕ → α :=
  l.foldl (fun m w => Function.update m w.1 w.2) mem

/-- Nothing is assigned. -/
@[simp] theorem assignAll_nil (mem : ℕ → α) : assignAll mem [] = mem := rfl

/-- The first of the list is assigned first. -/
theorem assignAll_cons (mem : ℕ → α) (w : ℕ × α) (l : List (ℕ × α)) :
    assignAll mem (w :: l) = assignAll (Function.update mem w.1 w.2) l := rfl

/-- At other addresses nothing changes. -/
theorem assignAll_of_ne (h : ∀ w ∈ l, w.1 ≠ a) : assignAll mem l a = mem a := by
  induction l generalizing mem with
  | nil => rfl
  | cons w l ih =>
      rw [assignAll_cons, ih fun v hv => h v (List.mem_cons_of_mem w hv),
        Function.update_of_ne (h w List.mem_cons_self).symm]

/-- **The value of a point** is at its address, when no other point has the same. -/
theorem assignAll_map {pts : List ι} {addr : ι → ℕ} {val : ι → α} {p : ι} (hp : p ∈ pts)
    (hinj : ∀ q ∈ pts, addr q = addr p → q = p) :
    assignAll mem (pts.map fun q => (addr q, val q)) (addr p) = val p := by
  induction pts generalizing mem with
  | nil => exact absurd hp (List.not_mem_nil)
  | cons q pts ih =>
      rw [List.map_cons, assignAll_cons]
      by_cases hmem : p ∈ pts
      · exact ih hmem fun r hr => hinj r (List.mem_cons_of_mem q hr)
      · obtain rfl : p = q := (List.mem_cons.mp hp).resolve_right hmem
        rw [assignAll_of_ne, Function.update_self]
        intro w hw heq
        obtain ⟨r, hr, rfl⟩ := List.mem_map.mp hw
        exact hmem (hinj r (List.mem_cons_of_mem p hr) heq ▸ hr)

end Assignments

end Scalux
