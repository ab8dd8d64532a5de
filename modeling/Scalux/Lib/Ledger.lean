import Mathlib.Data.List.Basic
import Mathlib.Data.List.Count
import Mathlib.Data.List.Nodup
import Mathlib.Algebra.Order.Ring.Nat

/-! # A ledger of allocations

What an allocator has handed out and what was given back to it.  Allocations are numbered, so that a
block is told from an earlier one at the same address; each has a label, such as the size that was asked
for, and what is given back has the label that the caller says it has.

* **`Ledger.Balanced L w`**: `w` counts the blocks that are held.
* **`Ledger.returned_iff`**: everything was given back once, with its label, if and only if nothing is
  held. -/

namespace Scalux

/-- The allocations, and what was given back, last first. -/
structure Ledger (β : Type*) where
  /-- The number of the next allocation. -/
  next : ℕ
  allocated : List (ℕ × β)
  freed : List (ℕ × β)
  lt_next : ∀ x ∈ allocated, x.1 < next
  nodup : (allocated.map Prod.fst).Nodup

namespace Ledger

variable {β : Type*} {L : Ledger β} {w w' : ℕ × β → ℕ} {i : ℕ} {b : β}

/-- Nothing was allocated. -/
def empty : Ledger β := ⟨0, [], [], by simp, List.nodup_nil⟩

/-- An allocation; its number is `L.next`. -/
def take (L : Ledger β) (b : β) : Ledger β where
  next := L.next + 1
  allocated := (L.next, b) :: L.allocated
  freed := L.freed
  lt_next x hx := by
    rcases List.mem_cons.mp hx with rfl | hx
    · exact Nat.lt_succ_self _
    · exact (L.lt_next x hx).trans (Nat.lt_succ_self _)
  nodup := by
    rw [List.map_cons, List.nodup_cons]
    refine ⟨fun hmem => ?_, L.nodup⟩
    obtain ⟨x, hx, heq⟩ := List.mem_map.mp hmem
    exact absurd (L.lt_next x hx) (by omega)

/-- A block is given back. -/
def give (L : Ledger β) (i : ℕ) (b : β) : Ledger β := { L with freed := (i, b) :: L.freed }

/-- Every allocation was given back once, with its label. -/
def Returned [DecidableEq β] (L : Ledger β) : Prop :=
  ∀ i b, (i, b) ∈ L.allocated → L.freed.filter (fun x => x.1 = i) = [(i, b)]

/-- What was allocated is what was given back and what `w` counts. -/
def Balanced [DecidableEq β] (L : Ledger β) (w : ℕ × β → ℕ) : Prop :=
  ∀ x, L.allocated.count x = L.freed.count x + w x

/-- Two labels of one number. -/
theorem label_unique {b' : β} (h : (i, b) ∈ L.allocated) (h' : (i, b') ∈ L.allocated) : b = b' :=
  congrArg Prod.snd (List.inj_on_of_nodup_map L.nodup h h' rfl)

variable [DecidableEq β]

/-- An empty ledger is balanced: nothing is held. -/
theorem balanced_empty : (empty : Ledger β).Balanced fun _ => 0 := fun _ => rfl

/-- A ledger is balanced for the same counts. -/
theorem Balanced.congr (h : L.Balanced w) (hw : ∀ x, w' x = w x) : L.Balanced w' := fun x =>
  (hw x).symm ▸ h x

/-- A count with one more element: `[y].count x + l.count x`. -/
theorem count_cons_eq (x y : ℕ × β) (l : List (ℕ × β)) :
    (y :: l).count x = [y].count x + l.count x := by
  rw [← List.count_append, List.singleton_append]

/-- An allocation is held. -/
theorem Balanced.take (h : L.Balanced w) (b : β) :
    (L.take b).Balanced fun x => [(L.next, b)].count x + w x := by
  intro x
  show ((L.next, b) :: L.allocated).count x = L.freed.count x + ([(L.next, b)].count x + w x)
  rw [count_cons_eq, h x]
  omega

/-- What is given back is held no more. -/
theorem Balanced.give (h : L.Balanced fun x => [(i, b)].count x + w x) : (L.give i b).Balanced w := by
  intro x
  show L.allocated.count x = ((i, b) :: L.freed).count x + w x
  rw [count_cons_eq, h x]
  dsimp only
  omega

/-- An allocation is in the ledger once. -/
theorem count_le_one (L : Ledger β) (x : ℕ × β) : L.allocated.count x ≤ 1 :=
  List.nodup_iff_count_le_one.mp L.nodup.of_map x

/-- **Everything was given back** if and only if nothing is held. -/
theorem returned_iff (h : L.Balanced w) : L.Returned ↔ ∀ x, w x = 0 := by
  constructor
  · intro hret x
    by_contra hne
    have hx := h x
    have hle := L.count_le_one x
    have hmem : x ∈ L.allocated := List.count_pos_iff.mp (by omega)
    have hfilter := hret x.1 x.2 hmem
    have hfreed : x ∈ L.freed.filter (fun y => y.1 = x.1) := by
      rw [hfilter]
      exact List.mem_cons_self
    have hpos := List.count_pos_iff.mpr (List.mem_of_mem_filter hfreed)
    omega
  · intro hzero i b hmem
    have hcount : ∀ x, L.freed.count x = L.allocated.count x := by
      intro x
      have hx := h x
      rw [hzero x] at hx
      omega
    have hperm : L.freed.Perm L.allocated := List.perm_iff_count.mpr hcount
    -- the number is among those of the allocations once
    have hfilter : (L.allocated.filter fun x => x.1 = i) = [(i, b)] := by
      have hnodup := L.nodup.of_map
      refine List.perm_singleton.mp ((List.perm_ext_iff_of_nodup (hnodup.filter _)
        (List.nodup_singleton _)).mpr fun x => ?_)
      rw [List.mem_filter, List.mem_singleton, decide_eq_true_eq]
      constructor
      · rintro ⟨hx, rfl⟩
        exact Prod.ext rfl (label_unique hx hmem)
      · rintro rfl
        exact ⟨hmem, rfl⟩
    exact List.perm_singleton.mp (hfilter ▸ hperm.filter _)

end Ledger

end Scalux
