import Scalux.Kern.VmemView

/-! # Where the tags of an arena go

The tags an arena can touch are those on its queue and those on the shared list of unused ones.  Its
operations move tags between the two: none is lost and none appears, except that `split_seg` puts the
two tags back that it is handed.

* **`splitSeg_tags`**, **`vmemXfree_tags`**: the tags before and after, up to order. -/

namespace Scalux.Queue

variable {α : Type*} [DecidableEq α] {x y : α} {l : List α}

/-- Inserting before an element adds one element. -/
theorem insertBefore_perm (h : x ∈ l) : (insertBefore x y l).Perm (y :: l) := by
  induction l with
  | nil => cases h
  | cons a l ih =>
      rw [insertBefore]
      split
      · exact .refl _
      · rename_i hne
        have hl : x ∈ l := (List.mem_cons.mp h).resolve_left (Ne.symm hne)
        exact ((ih hl).cons a).trans (.swap y a l)

/-- Inserting after an element adds one element. -/
theorem insertAfter_perm (h : x ∈ l) : (insertAfter x y l).Perm (y :: l) := by
  induction l with
  | nil => cases h
  | cons a l ih =>
      rw [insertAfter]
      split
      · exact .swap y a l
      · rename_i hne
        have hl : x ∈ l := (List.mem_cons.mp h).resolve_left (Ne.symm hne)
        exact ((ih hl).cons a).trans (.swap y a l)

/-- Only an element of the list has a predecessor. -/
theorem mem_of_prevOf (h : prevOf x l = some y) : x ∈ l := by
  by_contra hx
  rw [prevOf_eq_none hx] at h
  cases h

end Scalux.Queue

namespace Scalux.Vmem

variable {E : Type} {v v' : Arena E} {t u left right : Tag} {addr size : ℕ}

/-- The tags on the queue and the unused ones. -/
def tags (v : Arena E) : List Tag := v.segqueue ++ v.freeSegs

/-- A tag that leaves the queue goes to the unused ones. -/
theorem tags_drop (ht : t ∈ v.segqueue) : (tags (segFree (queueRemove v t) t)).Perm (tags v) := by
  show (v.segqueue.erase t ++ t :: v.freeSegs).Perm (v.segqueue ++ v.freeSegs)
  exact List.perm_middle.trans ((List.perm_cons_erase ht).symm.append_right _)

/-- The left remainder's tag goes to the queue or back. -/
theorem tags_splitLeft (ht : t ∈ v.segqueue) :
    (tags (splitLeft v t left addr)).Perm (left :: tags v) := by
  unfold splitLeft
  dsimp only
  split
  · exact (Queue.insertBefore_perm ht).append_right _
  · exact List.perm_middle

/-- The right remainder's tag goes to the queue or back. -/
theorem tags_splitRight (ht : t ∈ v.segqueue) :
    (tags (splitRight v t right addr size)).Perm (right :: tags v) := by
  unfold splitRight
  dsimp only
  split
  · exact (Queue.insertAfter_perm ht).append_right _
  · exact List.perm_middle

/-- A segment stays on the queue when its left remainder is split off. -/
theorem mem_splitLeft (ht : t ∈ v.segqueue) : t ∈ (splitLeft v t left addr).segqueue := by
  unfold splitLeft
  dsimp only
  split
  · exact (Queue.insertBefore_perm ht).mem_iff.mpr (List.mem_cons_of_mem _ ht)
  · exact ht

/-- **`split_seg`** puts the two tags it is handed on the queue or back. -/
theorem splitSeg_tags (ht : t ∈ v.segqueue)
    (hs : splitSeg v t left right addr size = some v') :
    (tags v').Perm (left :: right :: tags v) := by
  unfold splitSeg at hs
  split at hs
  · cases hs
    have hl : (tags (splitLeft (listRemove v t) t left addr)).Perm (left :: tags v) :=
      tags_splitLeft (v := listRemove v t) ht
    have ht' : t ∈ (splitLeft (listRemove v t) t left addr).segqueue :=
      mem_splitLeft (v := listRemove v t) ht
    have hr : (tags (splitRight (splitLeft (listRemove v t) t left addr) t right addr size)).Perm _ :=
      tags_splitRight ht'
    exact (hr.trans (hl.cons right)).trans (.swap left right _)
  · cases hs

/-- Coalescing to the left moves at most one tag. -/
theorem tags_coalesceLeft {c : Bool} (ht : t ∈ v.segqueue)
    (hs : coalesceLeft v t = some (u, c, v')) : (tags v').Perm (tags v) := by
  unfold coalesceLeft at hs
  obtain ⟨left, -, hs⟩ := Option.bind_eq_some_iff.mp hs
  split at hs
  · cases hs
    refine (tags_drop ?_).trans (.of_eq ?_)
    · rw [freesegExpand_segqueue]
      exact ht
    · rw [tags, freesegExpand_segqueue, freesegExpand_freeSegs, tags]
  · cases hs
    exact .refl _

/-- Coalescing to the right moves at most one tag. -/
theorem tags_coalesceRight {c : Bool} (ht : t ∈ v.segqueue) :
    (tags (coalesceRight v t c).2.2).Perm (tags v) := by
  unfold coalesceRight
  split
  · exact .refl _
  · rename_i right _
    split
    · have hdrop := tags_drop (v := freesegExpand v right (v.seg t).base
        (add64 (v.seg right).size (v.seg t).size)) (t := t) (by rw [freesegExpand_segqueue]; exact ht)
      have heq : tags (freesegExpand v right (v.seg t).base
          (add64 (v.seg right).size (v.seg t).size)) = tags v := by
        rw [tags, freesegExpand_segqueue, freesegExpand_freeSegs, tags]
      rw [heq] at hdrop
      cases c <;> exact hdrop
    · exact .refl _

/-- **`vmem_xfree` without a source** moves tags from the queue to the unused ones. -/
theorem vmemXfree_tags {n : ℤ} (h : Linked none v) (hs : vmemXfree none v addr = some (n, v')) :
    (tags v').Perm (tags v) := by
  obtain ⟨t, u, c, v₁, w, d', v₃, hfind, -, hleft, hprev, hrel, rfl⟩ := vmemXfree_eq_some hs
  obtain ⟨-, htq, halloc, -⟩ := (h.hash_iff _ t).mp (hashFind_some hfind).1
  have h₁ : (tags v₁).Perm (tags v) := tags_coalesceLeft (v := listRemove v t) htq hleft
  have h₂ := (tags_coalesceRight (c := c) (Queue.mem_of_prevOf hprev)).trans h₁
  obtain ⟨u', d, v₂, f, L, R, heq, ha, -, -, -⟩ := coalesce_spec h htq halloc hleft hprev
  rw [heq] at hrel h₂ ⊢
  obtain ⟨rfl, rfl⟩ := releaseSpan_none hrel
  dsimp only at h₂ ⊢
  split
  · exact h₂
  · refine (tags_drop ?_).trans h₂
    obtain ⟨l, r, hq, -, -⟩ := ha.queue
    exact hq ▸ List.mem_append_right _ List.mem_cons_self

end Scalux.Vmem
