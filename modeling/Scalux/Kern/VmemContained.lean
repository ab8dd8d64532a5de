import Scalux.Kern.VmemArenas
import Scalux.Kern.VmemSearch

/-! # The lists of an arena hold tags of its queue

`Contained` is what it takes to follow the tags of an arena through its operations: a tag that a search
of a list comes up with is on the queue.  It says nothing of what the segments are, so it also holds of
an arena that is entered while another call on it is under way.

* **`xallocSearch_contained`**, **`xallocImported_contained`**, **`xfreeCoalesce_contained`**,
  **`xfreeReleased_contained`**: where the tags are after each part of `vmem_xalloc` and
  `vmem_xfree`. -/

namespace Scalux.Queue

variable {α : Type*} [DecidableEq α] {x y z : α} {l : List α}

/-- What is on a list after an insertion. -/
theorem mem_insertAfter (h : z ∈ insertAfter x y l) : z = y ∨ z ∈ l := by
  induction l with
  | nil => cases h
  | cons a l ih =>
      rw [insertAfter] at h
      split at h
      · grind
      · grind

/-- The successor of an element is on the list. -/
theorem mem_of_nextOf (h : nextOf x l = some y) : y ∈ l := by
  induction l with
  | nil => cases h
  | cons a l ih =>
      rw [nextOf] at h
      split at h
      · exact List.mem_cons_of_mem a (List.mem_of_mem_head? h)
      · exact List.mem_cons_of_mem a (ih h)

/-- The neighbours of an element are different from it, from each other, and on the list. -/
theorem prevOf_spec (hnd : l.Nodup) (h : prevOf x l = some y) :
    y ∈ l ∧ y ≠ x ∧ ∀ z, nextOf x l = some z → z ∈ l ∧ z ≠ x ∧ y ≠ z := by
  obtain ⟨p, r, rfl, hp, hr⟩ := exists_split hnd (mem_of_prevOf h)
  rw [prevOf_split hp hr] at h
  obtain ⟨p, rfl⟩ := List.getLast?_eq_some_iff.mp h
  rw [nextOf_split hp]
  refine ⟨by simp, fun heq => hp (by simp [heq]), fun z hz => ?_⟩
  obtain ⟨r, rfl⟩ := List.head?_eq_some_iff.mp hz
  refine ⟨by simp, fun heq => hr (by simp [heq]), fun heq => ?_⟩
  have hdisj := (List.nodup_append.mp hnd).2.2 y (by simp) z (by simp)
  exact hdisj heq

end Scalux.Queue

namespace Scalux.Vmem

variable {E : Type} {v v' : Arena E} {t u w left right : Tag} {addr size min : ℕ} {flags : Flags}

/-- A tag is on a list of the arena. -/
def Listed (v : Arena E) (t : Tag) : Prop :=
  t ∈ v.spanlist ∨ (∃ i, t ∈ v.freelist i) ∨ ∃ i, t ∈ v.hashtab i

/-- The lists hold tags of the queue. -/
def Contained (v : Arena E) : Prop := ∀ t, Listed v t → t ∈ v.segqueue

/-- A tag that is unlinked is on no list. -/
theorem listed_listRemove (h : Listed (listRemove v t) u) : u ≠ t ∧ Listed v u := by
  have hfilter : ∀ l : List Tag, u ∈ l.filter (· ≠ t) → u ∈ l ∧ u ≠ t := fun l hu =>
    ⟨(List.mem_filter.mp hu).1, of_decide_eq_true (List.mem_filter.mp hu).2⟩
  rcases h with h | ⟨i, h⟩ | ⟨i, h⟩
  · exact ⟨(hfilter _ h).2, .inl (hfilter _ h).1⟩
  · exact ⟨(hfilter _ h).2, .inr (.inl ⟨i, (hfilter _ h).1⟩)⟩
  · exact ⟨(hfilter _ h).2, .inr (.inr ⟨i, (hfilter _ h).1⟩)⟩

/-- A tag that enters one list of a family. -/
theorem mem_update_cons {f : ℕ → List Tag} {i j : ℕ} (h : u ∈ Function.update f i (t :: f i) j) :
    u = t ∨ u ∈ f j := by
  by_cases hj : j = i
  · subst hj
    rw [Function.update_self] at h
    exact List.mem_cons.mp h
  · rw [Function.update_of_ne hj] at h
    exact .inr h

/-- What is on a list after `freelist_insert`. -/
theorem listed_freelistInsert (h : Listed (freelistInsert v t) u) : u = t ∨ Listed v u := by
  rcases h with h | ⟨i, h⟩ | h
  · exact .inr (.inl h)
  · exact (mem_update_cons h).imp_right fun h => .inr (.inl ⟨i, h⟩)
  · exact .inr (.inr (.inr h))

/-- What is on a list after `hashtab_insert`. -/
theorem listed_hashtabInsert (h : Listed (hashtabInsert v t) u) : u = t ∨ Listed v u := by
  rcases h with h | h | ⟨i, h⟩
  · exact .inr (.inl h)
  · exact .inr (.inr (.inl h))
  · exact (mem_update_cons h).imp_right fun h => .inr (.inr ⟨i, h⟩)

/-- What is on a list after `freeseg_expand`. -/
theorem listed_freesegExpand {b n : ℕ} (h : Listed (freesegExpand v t b n) u) : u = t ∨ Listed v u := by
  unfold freesegExpand at h
  dsimp only at h
  split at h
  · exact (listed_freelistInsert h).imp_right fun h => (listed_listRemove h).2
  · exact .inr h

/-- What is on a list after the new span marker has been inserted. -/
theorem listed_spanInsert {n : Tag} {a : Option Tag} (h : Listed (spanInsert v n a) u) :
    u = n ∨ Listed v u := by
  cases a with
  | none =>
      rcases h with h | h
      · exact (List.mem_cons.mp h).imp_right .inl
      · exact .inr (.inr h)
  | some a =>
      rcases h with h | h
      · exact (Queue.mem_insertAfter h).imp_right .inl
      · exact .inr (.inr h)

/-- The new span marker enters the queue. -/
theorem spanInsert_perm {n : Tag} {b : ℕ} (h : Contained v) :
    (spanInsert v n (lastSpanBefore v.seg b none v.spanlist)).segqueue.Perm (n :: v.segqueue) := by
  cases hlast : lastSpanBefore v.seg b none v.spanlist with
  | none => exact .refl _
  | some a =>
      unfold spanInsert
      dsimp only
      split
      · rename_i c hnext
        exact Queue.insertBefore_perm (h c (.inl (Queue.mem_of_nextOf hnext)))
      · exact List.perm_append_singleton n v.segqueue

/-- **`vmem_add_internal`** puts two unused tags on the queue. -/
theorem vmemAddInternal_contained {type : SegType} {base : ℕ} (h : Contained v)
    (hs : vmemAddInternal v type base size = some (t, v')) :
    Contained v' ∧ (tags v').Perm (tags v) ∧ t ∈ v'.segqueue := by
  obtain ⟨n, pool, hpool, hv'⟩ := vmemAddInternal_eq_some hs
  have hperm := spanInsert_perm (n := n) (b := base) h
  generalize lastSpanBefore v.seg base none v.spanlist = a at hv' hperm
  have hlists : ∀ x, Listed (spanInsert v n a) x → x = n ∨ Listed v x := fun x => listed_spanInsert
  have hn : n ∈ (spanInsert v n a).segqueue := hperm.mem_iff.mpr List.mem_cons_self
  have hins := Queue.insertAfter_perm (y := t) hn
  -- assigning the tags does not touch the lists
  have hq : v'.segqueue = Queue.insertAfter n t (spanInsert v n a).segqueue := by
    subst hv'
    cases a <;> rfl
  have hfree : v'.freeSegs = pool := by
    subst hv'
    cases a <;> rfl
  have hmem : ∀ x, Listed v' x → x = t ∨ Listed (spanInsert v n a) x := by
    intro x hx
    subst hv'
    refine (listed_freelistInsert hx).imp_right fun hx => ?_
    cases a <;> exact hx
  have hqueue : v'.segqueue.Perm (t :: n :: v.segqueue) :=
    hq ▸ hins.trans (hperm.cons t)
  refine ⟨fun x hx => hqueue.mem_iff.mpr ?_, ?_, hqueue.mem_iff.mpr List.mem_cons_self⟩
  · rcases hmem x hx with rfl | hx
    · exact List.mem_cons_self
    · rcases hlists x hx with rfl | hx
      · exact List.mem_cons_of_mem _ List.mem_cons_self
      · exact List.mem_cons_of_mem _ (List.mem_cons_of_mem _ (h x hx))
  · refine List.perm_iff_count.mpr fun x => ?_
    have hcount := hqueue.count_eq x
    simp only [tags, hfree, hpool, List.count_append, List.count_cons] at hcount ⊢
    omega

/-- `vmem_add`. -/
theorem vmemAdd_contained {base : ℕ} (h : Contained v) (hs : vmemAdd v base size = some v') :
    Contained v' ∧ (tags v').Perm (tags v) := by
  obtain ⟨⟨t, v₁⟩, hadd, rfl⟩ := Option.map_eq_some_iff.mp hs
  obtain ⟨hc, hperm, -⟩ := vmemAddInternal_contained h hadd
  exact ⟨hc, hperm⟩

/-- A tag that enters the queue may enter a list. -/
theorem contained_of_perm (h : Contained v) (hq : v'.segqueue.Perm (t :: v.segqueue))
    (hl : ∀ u, Listed v' u → u = t ∨ Listed v u) : Contained v' := by
  intro u hu
  rw [hq.mem_iff, List.mem_cons]
  exact (hl u hu).imp_right (h u)

/-- The left remainder. -/
theorem splitLeft_contained (h : Contained v) (ht : t ∈ v.segqueue) :
    Contained (splitLeft v t left addr) := by
  unfold splitLeft
  dsimp only
  split
  · exact contained_of_perm h (Queue.insertBefore_perm ht) fun u hu => (listed_freelistInsert hu :)
  · exact h

/-- The right remainder. -/
theorem splitRight_contained (right : Tag) (addr size : ℕ) (h : Contained v) (ht : t ∈ v.segqueue) :
    Contained (splitRight v t right addr size) ∧ t ∈ (splitRight v t right addr size).segqueue := by
  unfold splitRight
  dsimp only
  split
  · exact ⟨contained_of_perm h (Queue.insertAfter_perm ht) fun u hu => (listed_freelistInsert hu :),
      (Queue.insertAfter_perm ht).mem_iff.mpr (List.mem_cons_of_mem _ ht)⟩
  · exact ⟨h, ht⟩

/-- A tag that is unlinked leaves the lists within the queue. -/
theorem listRemove_contained (h : Contained v) : Contained (listRemove v t) := fun u hu =>
  h u (listed_listRemove hu).2

/-- **`split_seg`** keeps the lists within the queue. -/
theorem splitSeg_contained (h : Contained v) (ht : t ∈ v.segqueue)
    (hs : splitSeg v t left right addr size = some v') : Contained v' := by
  unfold splitSeg at hs
  split at hs
  · cases hs
    have hl : Contained (splitLeft (listRemove v t) t left addr) :=
      splitLeft_contained (listRemove_contained h) ht
    obtain ⟨hr, htr⟩ := splitRight_contained right addr size hl
      (mem_splitLeft (v := listRemove v t) ht)
    intro u hu
    rcases listed_hashtabInsert hu with rfl | hu
    · exact htr
    · exact hr u hu
  · cases hs

/-! ## `vmem_xalloc` and `vmem_xfree` -/

/-- **`vmem_xalloc`, to the end of the search.** A request that is served moves tags between the queue
and the unused ones; otherwise two tags are in hand and the rest is as before. -/
theorem xallocSearch_contained {found : Searched E} (h : Contained v)
    (hs : xallocSearch v size min flags = some found) :
    match found with
    | .served _ v' => Contained v' ∧ (tags v').Perm (tags v) ∧
        (search v size min flags (searchIndices size)).isSome = true
    | .unserved newlseg newrseg v' => v'.segqueue = v.segqueue ∧ Contained v' ∧
        v.freeSegs = newlseg :: newrseg :: v'.freeSegs ∧
        search v size min flags (searchIndices size) = none := by
  unfold xallocSearch at hs
  split at hs
  · obtain ⟨⟨newlseg, v₁⟩, hl, hs⟩ := Option.bind_eq_some_iff.mp hs
    obtain ⟨⟨newrseg, v₂⟩, hr, hs⟩ := Option.bind_eq_some_iff.mp hs
    obtain ⟨rest₁, hpool, rfl⟩ := segAlloc_eq_some hl
    obtain ⟨rest, rfl, rfl⟩ := segAlloc_eq_some hr
    dsimp only at hs
    -- the search does not look at the pool, so taking the two tags first changes nothing
    have hsame : search { v with freeSegs := rest } size min flags (searchIndices size)
        = search v size min flags (searchIndices size) := search_withPool rest _
    rw [hsame] at hs
    cases hfound : search v size min flags (searchIndices size) with
    | some found =>
        obtain ⟨freeseg, addr⟩ := found
        rw [hfound] at hs
        obtain ⟨v₃, hsplit, hs⟩ := Option.bind_eq_some_iff.mp hs
        cases hs
        obtain ⟨i, -, hmem, -⟩ := search_some hfound
        have ht : freeseg ∈ v.segqueue := h freeseg (.inr (.inl ⟨i, hmem⟩))
        refine ⟨splitSeg_contained (v := { v with freeSegs := rest }) h ht hsplit, ?_, rfl⟩
        -- the two tags are in the queue or back in the pool: none is lost on this path
        have hperm := splitSeg_tags (v := { v with freeSegs := rest }) ht hsplit
        refine List.perm_iff_count.mpr fun x => ?_
        have hcount := hperm.count_eq x
        simp only [tags, hpool, List.count_append, List.count_cons] at hcount ⊢
        omega
    | none =>
        rw [hfound] at hs
        cases hs
        exact ⟨rfl, h, hpool, rfl⟩
  · cases hs

/-- **`vmem_xalloc`, after an import.** The two tags in hand go to the queue or back. -/
theorem xallocImported_contained {a : ℕ} (h : Contained v)
    (hs : xallocImported v left right size addr = some (a, v')) :
    Contained v' ∧ (tags v').Perm (left :: right :: tags v) := by
  unfold xallocImported at hs
  obtain ⟨⟨t, v₁⟩, hadd, hs⟩ := Option.bind_eq_some_iff.mp hs
  obtain ⟨v₂, hsplit, hs⟩ := Option.bind_eq_some_iff.mp hs
  cases hs
  obtain ⟨hc, hperm, ht⟩ := vmemAddInternal_contained h hadd
  exact ⟨splitSeg_contained hc ht hsplit,
    (splitSeg_tags ht hsplit).trans ((hperm.cons right).cons left)⟩

/-- A tag leaves the queue, and with it the lists. -/
theorem drop_contained (h : Contained v) (ht : ¬ Listed v t) :
    Contained (segFree (queueRemove v t) t) := by
  intro u hu
  have hne : u ≠ t := by
    rintro rfl
    exact ht hu
  exact (List.mem_erase_of_ne hne).mpr (h u hu)

/-- A segment that `vmem_xfree` has at hand: it is on the queue, and on no list unless it has been
coalesced. -/
structure AtHand (v : Arena E) (t : Tag) (coalesced : Bool) : Prop where
  contained : Contained v
  nodup : v.segqueue.Nodup
  mem : t ∈ v.segqueue
  unlisted : coalesced = false → ¬ Listed v t

/-- A free neighbour takes the segment over. -/
theorem AtHand.takeOver {c : Bool} (h : AtHand v t c) (hu : u ∈ v.segqueue) (hne : u ≠ t)
    (hq : v'.segqueue = v.segqueue.erase t)
    (hl : ∀ x, Listed v' x → x ≠ t ∧ (x = u ∨ Listed v x)) : AtHand v' u true where
  contained x hx := by
    obtain ⟨hxt, hx⟩ := hl x hx
    rw [hq, List.mem_erase_of_ne hxt]
    rcases hx with rfl | hx
    · exact hu
    · exact h.contained x hx
  nodup := hq ▸ h.nodup.erase t
  mem := by
    rw [hq, List.mem_erase_of_ne hne]
    exact hu
  unlisted hc := by cases hc

/-- Coalescing to the left. -/
theorem coalesceLeft_atHand {c : Bool} (h : AtHand v t false)
    (hs : coalesceLeft v t = some (u, c, v')) : AtHand v' u c := by
  unfold coalesceLeft at hs
  obtain ⟨left, hprev, hs⟩ := Option.bind_eq_some_iff.mp hs
  obtain ⟨hmem, hne, -⟩ := Queue.prevOf_spec h.nodup hprev
  split at hs
  · cases hs
    refine h.takeOver hmem hne ?_ fun x hx => ?_
    · show (freesegExpand v _ _ _).segqueue.erase t = _
      rw [freesegExpand_segqueue]
    · have hor : x = u ∨ Listed v x := listed_freesegExpand hx
      refine ⟨?_, hor⟩
      rintro rfl
      exact hor.elim (fun heq => hne heq.symm) (h.unlisted rfl)
  · cases hs
    exact h

/-- Coalescing to the right; the segment to the left stays where it is. -/
theorem coalesceRight_atHand {c : Bool} (h : AtHand v t c) (hprev : Queue.prevOf t v.segqueue = some w) :
    AtHand (coalesceRight v t c).2.2 (coalesceRight v t c).1 (coalesceRight v t c).2.1 ∧
      w ∈ (coalesceRight v t c).2.2.segqueue ∧ w ≠ (coalesceRight v t c).1 := by
  obtain ⟨hw, hwt, hnext⟩ := Queue.prevOf_spec h.nodup hprev
  unfold coalesceRight
  split
  · exact ⟨h, hw, hwt⟩
  · rename_i right hright
    obtain ⟨hr, hrt, hwr⟩ := hnext right hright
    split
    · dsimp only
      have hq : ∀ b n, (freesegExpand v right b n).segqueue.erase t = v.segqueue.erase t :=
        fun b n => by rw [freesegExpand_segqueue]
      have hwq : ∀ b n, w ∈ (freesegExpand v right b n).segqueue.erase t := fun b n => by
        rw [hq, List.mem_erase_of_ne hwt]
        exact hw
      -- the segment leaves its free list if it is on one
      cases c with
      | true =>
          refine ⟨h.takeOver hr hrt (hq _ _) fun x hx => ?_, hwq _ _, hwr⟩
          obtain ⟨hxt, hx⟩ := listed_listRemove hx
          exact ⟨hxt, listed_freesegExpand hx⟩
      | false =>
          refine ⟨h.takeOver hr hrt (hq _ _) fun x hx => ?_, hwq _ _, hwr⟩
          have hor : x = right ∨ Listed v x := listed_freesegExpand hx
          refine ⟨?_, hor⟩
          rintro rfl
          exact hor.elim (fun heq => hrt heq.symm) (h.unlisted rfl)
    · exact ⟨h, hw, hwt⟩

/-- **`vmem_xfree`, up to the check for an entirely free span.** -/
theorem xfreeCoalesce_contained {c : Bool} (h : Contained v) (hnd : v.segqueue.Nodup)
    (hs : xfreeCoalesce v addr = some (u, w, c, v')) :
    AtHand v' u c ∧ w ∈ v'.segqueue ∧ w ≠ u ∧ (tags v').Perm (tags v) := by
  unfold xfreeCoalesce at hs
  obtain ⟨t, hfind, hs⟩ := Option.bind_eq_some_iff.mp hs
  have ht : t ∈ v.segqueue := h t (.inr (.inr ⟨_, (hashFind_some hfind).1⟩))
  dsimp only at hs
  obtain ⟨⟨u₁, c₁, v₁⟩, hleft, hs⟩ := Option.bind_eq_some_iff.mp hs
  obtain ⟨w₁, hprev, hs⟩ := Option.bind_eq_some_iff.mp hs
  dsimp only at hs hprev
  have h₀ : AtHand (listRemove v t) t false :=
    ⟨listRemove_contained h, hnd, ht, fun _ hx => (listed_listRemove hx).1 rfl⟩
  have h₁ := coalesceLeft_atHand h₀ hleft
  obtain ⟨h₂, hw, hwu⟩ := coalesceRight_atHand h₁ hprev
  have hperm := (tags_coalesceRight (c := c₁) h₁.mem).trans
    (tags_coalesceLeft (v := listRemove v t) ht hleft)
  cases hs
  exact ⟨h₂, hw, hwu, hperm⟩

/-- **`vmem_xfree`, its end** where no span is given back. -/
theorem xfreeKept_contained {c : Bool} (h : AtHand v t c) :
    Contained (xfreeKept v t c) ∧ (tags (xfreeKept v t c)).Perm (tags v) := by
  cases c with
  | true => exact ⟨h.contained, .refl _⟩
  | false => exact ⟨drop_contained h.contained (h.unlisted rfl), tags_drop h.mem⟩

/-- **`vmem_xfree`, from the return of `freefn` on:** the tags of the segment and of the span marker
before it go back. -/
theorem xfreeReleased_contained {c : Bool} (h : AtHand v t c) (hw : w ∈ v.segqueue) (hne : w ≠ t) :
    Contained (xfreeReleased v t w c) ∧ (tags (xfreeReleased v t w c)).Perm (tags v) := by
  have h₁ : AtHand (if c then listRemove v t else v) t false := by
    cases c with
    | true => exact ⟨listRemove_contained h.contained, h.nodup, h.mem,
        fun _ hx => (listed_listRemove hx).1 rfl⟩
    | false => exact h
  have hq : (if c then listRemove v t else v).segqueue = v.segqueue := by cases c <;> rfl
  have htags : tags (if c then listRemove v t else v) = tags v := by cases c <;> rfl
  unfold xfreeReleased
  dsimp only
  generalize (if c then listRemove v t else v) = v₁ at *
  have hw₁ : w ∈ v₁.segqueue.erase t := (List.mem_erase_of_ne hne).mpr (hq ▸ hw)
  have h₂ := drop_contained h₁.contained (h₁.unlisted rfl)
  refine ⟨drop_contained (listRemove_contained h₂) fun hx => (listed_listRemove hx).1 rfl, ?_⟩
  have hdrop := (tags_drop (v := listRemove (segFree (queueRemove v₁ t) t) w) (t := w) hw₁)
  exact (hdrop.trans (tags_drop h₁.mem)).trans (.of_eq htags)

end Scalux.Vmem
