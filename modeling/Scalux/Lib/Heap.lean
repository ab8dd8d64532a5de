import Mathlib.Data.List.Basic
import Mathlib.Data.List.Nodup
import Mathlib.Data.List.Perm.Basic
import Mathlib.Algebra.BigOperators.Group.List.Basic
import Mathlib.Algebra.Order.BigOperators.Group.List
import Mathlib.Algebra.Order.Ring.Nat

/-! # Allocated objects of one type

The objects of one type that a kernel has allocated: a finite set of identities, each with a value.
An identity is free to be used again once its object has been freed, so it stands for an address.

* **`Heap.get?`**: dereference; `none` for an identity that is not allocated.
* **`Heap.weigh w`**: the sum of `w` over all objects.  Reference counts are stated with it: the
  count of an object is the weight of its references in the objects that may hold them. -/

namespace Scalux

/-- The allocated objects of one type. -/
structure Heap (α : Type*) where
  /-- The identities in use. -/
  dom : List ℕ
  cell : ℕ → α
  nodup : dom.Nodup

namespace Heap

variable {α : Type*} {h h' : Heap α} {i j : ℕ} {x y : α} {w : α → ℕ}

/-- No objects. -/
def empty [Inhabited α] : Heap α := ⟨[], fun _ => default, List.nodup_nil⟩

/-- Dereference. -/
def get? (h : Heap α) (i : ℕ) : Option α := if i ∈ h.dom then some (h.cell i) else none

/-- Assign the value of an object. -/
def set (h : Heap α) (i : ℕ) (x : α) : Heap α := { h with cell := Function.update h.cell i x }

/-- Allocate an object under an identity that is not in use. -/
def alloc (h : Heap α) (i : ℕ) (x : α) : Option (Heap α) :=
  if hi : i ∈ h.dom then none
  else some ⟨i :: h.dom, Function.update h.cell i x, List.nodup_cons.mpr ⟨hi, h.nodup⟩⟩

/-- Free an object. -/
def free (h : Heap α) (i : ℕ) : Heap α := ⟨h.dom.erase i, h.cell, h.nodup.erase i⟩

/-- The sum of a weight over all objects. -/
def weigh (w : α → ℕ) (h : Heap α) : ℕ := (h.dom.map fun i => w (h.cell i)).sum

@[simp] theorem get?_empty [Inhabited α] (i : ℕ) : (empty : Heap α).get? i = none := rfl

/-- An object that can be dereferenced is allocated. -/
theorem get?_eq_some : h.get? i = some x ↔ i ∈ h.dom ∧ h.cell i = x := by
  unfold get?
  split
  · rename_i hi
    rw [Option.some.injEq, and_iff_right hi]
  · rename_i hi
    exact ⟨fun heq => (by cases heq), fun hx => absurd hx.1 hi⟩

/-- A property of all objects. -/
theorem forall_get? {P : ℕ → α → Prop} :
    (∀ i x, h.get? i = some x → P i x) ↔ ∀ i ∈ h.dom, P i (h.cell i) := by
  constructor
  · intro hall i hi
    exact hall i _ (get?_eq_some.mpr ⟨hi, rfl⟩)
  · intro hall i x hx
    obtain ⟨hi, rfl⟩ := get?_eq_some.mp hx
    exact hall i hi

/-- Assigning an object changes that object only. -/
theorem get?_set (hx : h.get? i = some x) (y : α) (j : ℕ) :
    (h.set i y).get? j = if j = i then some y else h.get? j := by
  have hi : i ∈ h.dom := (get?_eq_some.mp hx).1
  by_cases hj : j = i
  · rw [if_pos hj, hj]
    exact get?_eq_some.mpr ⟨hi, Function.update_self ..⟩
  · rw [if_neg hj]
    show (if j ∈ h.dom then some (Function.update h.cell i y j) else none) = h.get? j
    rw [Function.update_of_ne hj]
    rfl

/-- Assigning an object twice. -/
theorem set_set (h : Heap α) (i : ℕ) (x y : α) : (h.set i x).set i y = h.set i y := by
  unfold set
  rw [Function.update_idem]

/-- Assigning an object allocates nothing. -/
theorem get?_set_eq_none (h : Heap α) (i : ℕ) (x : α) (j : ℕ) :
    (h.set i x).get? j = none ↔ h.get? j = none := by
  show (if j ∈ h.dom then _ else none) = none ↔ (if j ∈ h.dom then _ else none) = none
  split
  · exact ⟨fun heq => (by cases heq), fun heq => (by cases heq)⟩
  · exact Iff.rfl

/-- An identity is allocated once. -/
theorem get?_of_alloc (ha : h.alloc i x = some h') : h.get? i = none := by
  unfold alloc at ha
  split at ha
  · cases ha
  · rename_i hi
    exact if_neg hi

/-- Allocating an object adds it. -/
theorem get?_alloc (ha : h.alloc i x = some h') (j : ℕ) :
    h'.get? j = if j = i then some x else h.get? j := by
  unfold alloc at ha
  split at ha
  · cases ha
  · cases ha
    by_cases hj : j = i
    · rw [if_pos hj, hj]
      exact get?_eq_some.mpr ⟨List.mem_cons_self, Function.update_self ..⟩
    · rw [if_neg hj]
      show (if j ∈ i :: h.dom then some (Function.update h.cell i x j) else none) = h.get? j
      rw [Function.update_of_ne hj]
      simp only [List.mem_cons, hj, false_or]
      rfl

/-- An identity that is not in use can be allocated. -/
theorem exists_alloc (hi : h.get? i = none) (x : α) : ∃ h', h.alloc i x = some h' := by
  have hdom : i ∉ h.dom := fun hmem => by
    rw [get?, if_pos hmem] at hi
    cases hi
  unfold alloc
  rw [dif_neg hdom]
  exact ⟨_, rfl⟩

/-- There is always an identity that is not in use. -/
theorem exists_fresh (h : Heap α) : ∃ i, h.get? i = none := by
  refine ⟨h.dom.sum + 1, if_neg fun hmem => ?_⟩
  have hle := List.le_sum_of_mem hmem
  omega

/-- Freeing an object removes it. -/
theorem get?_free (h : Heap α) (i j : ℕ) :
    (h.free i).get? j = if j = i then none else h.get? j := by
  show (if j ∈ h.dom.erase i then some (h.cell j) else none) = _
  by_cases hj : j = i
  · rw [if_pos hj, hj, if_neg h.nodup.not_mem_erase]
  · rw [if_neg hj]
    simp only [h.nodup.mem_erase_iff, ne_eq, hj, not_false_eq_true, true_and]
    rfl

/-! ## Weights -/

/-- A new object adds its weight. -/
theorem weigh_alloc (ha : h.alloc i x = some h') : h'.weigh w = w x + h.weigh w := by
  unfold alloc at ha
  split at ha
  · cases ha
  · rename_i hi
    cases ha
    show (w (Function.update h.cell i x i) :: h.dom.map fun j => w (Function.update h.cell i x j)).sum
      = w x + h.weigh w
    rw [List.sum_cons, Function.update_self]
    congr 2
    refine List.map_congr_left fun j hj => ?_
    rw [Function.update_of_ne]
    rintro rfl
    exact hi hj

/-- A freed object takes its weight away. -/
theorem weigh_free (hx : h.get? i = some x) : h.weigh w = w x + (h.free i).weigh w := by
  obtain ⟨hi, rfl⟩ := get?_eq_some.mp hx
  exact ((List.perm_cons_erase hi).map fun j => w (h.cell j)).sum_eq

/-- Assigning an object replaces its weight. -/
theorem weigh_set (hx : h.get? i = some x) (y : α) :
    (h.set i y).weigh w + w x = h.weigh w + w y := by
  have hy : (h.set i y).get? i = some y := by rw [get?_set hx, if_pos rfl]
  have hfree : ((h.set i y).free i).weigh w = (h.free i).weigh w := by
    show ((h.dom.erase i).map fun j => w (Function.update h.cell i y j)).sum = _
    refine congrArg List.sum (List.map_congr_left fun j hj => ?_)
    have hne : j ≠ i := ((h.nodup.mem_erase_iff).mp hj).1
    rw [Function.update_of_ne hne]
    rfl
  rw [weigh_free hy, weigh_free hx, hfree]
  omega

/-- One object weighs no more than all. -/
theorem le_weigh (hx : h.get? i = some x) : w x ≤ h.weigh w := by
  rw [weigh_free hx]
  exact Nat.le_add_right _ _

/-- The number of objects. -/
def size (h : Heap α) : ℕ := h.dom.length

/-- If an object weighs at most one, all weigh at most as much as there are. -/
theorem weigh_le_size (hw : ∀ i x, h.get? i = some x → w x ≤ 1) : h.weigh w ≤ h.size := by
  have hle : ∀ n ∈ h.dom.map fun i => w (h.cell i), n ≤ 1 := by
    intro n hn
    obtain ⟨i, hi, rfl⟩ := List.mem_map.mp hn
    exact hw i _ (get?_eq_some.mpr ⟨hi, rfl⟩)
  have hsum := List.sum_le_card_nsmul _ 1 hle
  rw [List.length_map, nsmul_one] at hsum
  exact hsum

/-- What nothing weighs is zero for every object, and conversely. -/
theorem weigh_eq_zero (hw : ∀ i x, h.get? i = some x → w x = 0) : h.weigh w = 0 := by
  refine List.sum_eq_zero fun n hn => ?_
  obtain ⟨i, hi, rfl⟩ := List.mem_map.mp hn
  exact hw i _ (get?_eq_some.mpr ⟨hi, rfl⟩)

/-! ## What the objects hold -/

variable {β : Type*} {f : α → List β}

/-- What all objects hold. -/
def collect (f : α → List β) (h : Heap α) : List β := h.dom.flatMap fun i => f (h.cell i)

/-- The number of things held, by object. -/
theorem length_collect (f : α → List β) (h : Heap α) :
    (h.collect f).length = h.weigh fun x => (f x).length :=
  List.length_flatMap

/-- A new object comes with what it holds. -/
theorem collect_alloc (ha : h.alloc i x = some h') : h'.collect f = f x ++ h.collect f := by
  unfold alloc at ha
  split at ha
  · cases ha
  · rename_i hi
    cases ha
    show (i :: h.dom).flatMap (fun j => f (Function.update h.cell i x j)) = _
    rw [List.flatMap_cons, Function.update_self]
    refine congrArg (f x ++ ·) (List.flatMap_congr fun j hj => ?_)
    rw [Function.update_of_ne]
    rintro rfl
    exact hi hj

/-- What is held, by one object and by the others. -/
theorem collect_free (hx : h.get? i = some x) : (h.collect f).Perm (f x ++ (h.free i).collect f) := by
  obtain ⟨hi, rfl⟩ := get?_eq_some.mp hx
  exact (List.perm_cons_erase hi).flatMap_right fun j => f (h.cell j)

/-- What is held after an assignment, by the object and by the others. -/
theorem collect_set (hx : h.get? i = some x) (y : α) :
    ((h.set i y).collect f).Perm (f y ++ (h.free i).collect f) := by
  have hy : (h.set i y).get? i = some y := by rw [get?_set hx, if_pos rfl]
  have hfree : ((h.set i y).free i).collect f = (h.free i).collect f := by
    refine List.flatMap_congr fun j hj => ?_
    have hne : j ≠ i := ((h.nodup.mem_erase_iff).mp hj).1
    show f (Function.update h.cell i y j) = _
    rw [Function.update_of_ne hne]
    rfl
  exact hfree ▸ collect_free hy

end Heap

end Scalux
