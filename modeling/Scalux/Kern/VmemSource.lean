import Scalux.Kern.VmemRun
import Scalux.Kern.VmemTags

/-! # Arenas that import their spans

What `vmem_xalloc` and `vmem_xfree` do to an arena with a source: a request that no free segment
serves is passed to the source, and the span it answers with is allocated as a whole; a span that is
entirely free again goes back.

The source is code outside the arena (`allocfn`, `freefn`).  What the arena relies on is
`SourceKeeps`: a range the source lends overlaps no span of the arena, and the source does not put
tags on the shared list of unused ones that the arena is using.

* **`vmemXalloc_source_spec`**, **`vmemXfree_source_spec`**: the containers agree with the queue after
  the call, and what it did to the segments. -/

namespace Scalux.Vmem

variable {E : Type} {src : Option (Source E)} {v v' : Arena E} {t u w : Tag} {x : Option Tag}
  {addr size min : ℕ} {flags : Flags} {V V' : List Seg} {g : Seg}

/-- The tags of `pool` are different and none of them is in `used`. -/
def Unused (pool used : List Tag) : Prop := pool.Nodup ∧ ∀ t ∈ pool, t ∉ used

/-- What a call of `allocfn` leaves: unused tags only, and a range it lends can be a new span. -/
def LendsOk (f : Source E) (v : Arena E) (size : ℕ) (flags : Flags) : Prop :=
  ∀ pool used r e pool', (∀ t ∈ used, t ∈ v.segqueue ∨ t ∈ v.freeSegs) → Unused pool used →
    f.allocfn v.env pool size flags = some (r, e, pool') →
    Unused pool' used ∧ ∀ addr, r = .ok addr → SpanOk (view v) addr size

/-- What a call of `freefn` leaves: unused tags only. -/
def TakesOk (f : Source E) (v : Arena E) : Prop :=
  ∀ pool used base size e pool', (∀ t ∈ used, t ∈ v.segqueue) → Unused pool used →
    f.freefn v.env pool base size = some (e, pool') → Unused pool' used

/-! ## `try_import` -/

/-- A span that the source has lent appears, allocated as a whole. -/
structure Imports (addr size : ℕ) (V V' : List Seg) : Prop where
  split : ∃ A B, V = A ++ B ∧ (∀ s ∈ A, s.isSpan = true → s.base < addr) ∧
    (∀ s ∈ B.head?, s.isSpan = true ∧ addr ≤ s.base) ∧
    V' = A ++ ⟨.kVMemSegSpanImported, addr, size⟩ :: ⟨.kVMemSegAllocated, addr, size⟩ :: B

/-- A free segment that is allocated as a whole leaves no remainders. -/
theorem splitParts_whole (addr size : ℕ) :
    splitParts ⟨.kVMemSegFree, addr, size⟩ addr size = [⟨.kVMemSegAllocated, addr, size⟩] := by
  rw [splitParts, leftPart, rightPart, if_neg (Nat.lt_irrefl _), if_neg (Nat.lt_irrefl _)]
  rfl

/-- Another list of unused tags and another state of the source leave the containers in
agreement. -/
theorem Linked.withSource (h : Linked x v) {pool : List Tag} (env : E)
    (hp : Unused pool v.segqueue) : Linked x { v with env := env, freeSegs := pool } :=
  h.withFree env hp.1 hp.2

/-- **`try_import`.** It fails and leaves the segments alone, or a marker and a free segment for the
range the source has lent enter the queue; tags in `used` stay in use. -/
theorem tryImport_spec {used : List Tag} {res : Except ℤ Tag} (h : Linked none v)
    (hhead : ∀ s ∈ (view v).head?, s.isSpan = true) (hq : ∀ t ∈ v.segqueue, t ∈ used)
    (hsrc : ∀ f ∈ src, ∀ r e pool', f.allocfn v.env v.freeSegs size flags = some (r, e, pool') →
      Unused pool' used)
    (hs : tryImport src v size flags = some (res, v')) :
    Linked none v' ∧ match res with
      | .error _ => view v' = view v
      | .ok t => ∃ addr A B, (∃ f ∈ src, ∃ e pool',
          f.allocfn v.env v.freeSegs size flags = some (.ok addr, e, pool')) ∧
        view v = A ++ B ∧ (∀ s ∈ A, s.isSpan = true → s.base < addr) ∧
        (∀ s ∈ B.head?, s.isSpan = true ∧ addr ≤ s.base) ∧
        Around v' t ⟨.kVMemSegFree, addr, size⟩ (A ++ [⟨.kVMemSegSpanImported, addr, size⟩]) B ∧
        ∀ u ∈ used, u ∉ v.segqueue → u ∉ v'.segqueue ∧ u ∉ v'.freeSegs := by
  unfold tryImport at hs
  cases src with
  | none =>
      cases hs
      exact ⟨h, rfl⟩
  | some f =>
      obtain ⟨⟨answer, e, pool'⟩, hcall, hs⟩ := Option.bind_eq_some_iff.mp hs
      obtain ⟨hnd, hused⟩ := hsrc f rfl answer e pool' hcall
      -- the source may take tags of the pool, but none of those the arena or the caller uses
      have h₁ := h.withSource e ⟨hnd, fun t ht hmem => hused t ht (hq t hmem)⟩
      cases answer with
      | error r =>
          cases hs
          exact ⟨h₁, rfl⟩
      | ok addr =>
          obtain ⟨⟨t, v₂⟩, hadd, hs⟩ := Option.bind_eq_some_iff.mp hs
          cases hs
          obtain ⟨h₂, -, ⟨n, hpool, hperm⟩, A, B, hV, hA, hB, ha⟩ :=
            vmemAddInternal_spec h₁ hhead rfl hadd
          have hpool : pool' = n :: t :: v'.freeSegs := hpool
          refine ⟨h₂, addr, A, B, ⟨f, rfl, e, pool', hcall⟩, hV, hA, hB, ha, fun u hu huq => ?_⟩
          have hnot : u ∉ pool' := fun hmem => hused u hmem hu
          rw [hperm.mem_iff]
          rw [hpool] at hnot
          grind

/-- **`vmem_xalloc` of any arena.** It allocates from a free segment, or imports a span, or fails and
leaves the segments alone. -/
theorem vmemXalloc_source_spec {align phase max : ℕ} {res : Except ℤ ℕ} (h : Linked none v)
    (hhead : ∀ s ∈ (view v).head?, s.isSpan = true) (hsrc : ∀ f ∈ src, LendsOk f v size flags)
    (hs : vmemXalloc src v size align phase min max flags = some (res, v')) :
    Linked none v' ∧ size ≠ 0 ∧
      match res with
      | .error _ => view v' = view v
      | .ok addr => Allocates size min flags addr (view v) (view v') ∨
          ((∃ f ∈ src, ∃ pool e pool', f.allocfn v.env pool size flags = some (.ok addr, e, pool')) ∧
            SpanOk (view v) addr size ∧ Imports addr size (view v) (view v')) := by
  obtain ⟨⟨hsize, -⟩, left, right, rest, hpool, hcases⟩ := vmemXalloc_eq_some hs
  obtain ⟨h₂, hne, hlnot, hrnot⟩ := linked_taken h hpool
  rcases hcases with ⟨t, addr, hfound, hsplit, rfl⟩ | ⟨-, r, v₃, himp, hres⟩
  · obtain ⟨h₃, halloc⟩ := search_splitSeg_spec h hpool hfound hsplit
    exact ⟨h₃, hsize, .inl halloc⟩
  -- the two tags in hand are out of the reach of the source as well
  have hlends : ∀ f ∈ src, ∀ r e pool', f.allocfn v.env rest size flags = some (r, e, pool') →
      Unused pool' (left :: right :: v.segqueue) ∧
        ∀ addr, r = .ok addr → SpanOk (view v) addr size := by
    intro f hf r e pool' hcall
    refine hsrc f hf rest _ r e pool' ?_ ⟨h₂.pool_nodup, ?_⟩ hcall
    · intro u hu
      rw [hpool, List.mem_cons, List.mem_cons]
      rcases List.mem_cons.mp hu with rfl | hu
      · exact .inr (.inl rfl)
      · rcases List.mem_cons.mp hu with rfl | hu
        · exact .inr (.inr (.inl rfl))
        · exact .inl hu
    · intro u hu hmem
      rcases List.mem_cons.mp hmem with rfl | hmem
      · exact hlnot.2 hu
      · rcases List.mem_cons.mp hmem with rfl | hmem
        · exact hrnot.2 hu
        · exact h₂.pool_disjoint u hu hmem
  obtain ⟨h₃, hcases⟩ := tryImport_spec h₂ hhead
    (fun u hu => List.mem_cons_of_mem left (List.mem_cons_of_mem right hu))
    (fun f hf r e pool' hcall => (hlends f hf r e pool' hcall).1) himp
  cases r with
  | error r =>
      obtain ⟨rfl, rfl⟩ := hres
      exact ⟨h₃, hsize, hcases⟩
  | ok t =>
      obtain ⟨hsplit, rfl⟩ := hres
      obtain ⟨addr, A, B, ⟨f, hf, e, pool', hcall⟩, hV, hA, hB, ha, hstay⟩ := hcases
      have hbase : (v₃.seg t).base = addr := by rw [ha.seg_eq]
      obtain ⟨h₄, -, hV₄⟩ := splitSeg_spec h₃ ha hne (hstay left List.mem_cons_self hlnot.1)
        (hstay right (List.mem_cons_of_mem _ List.mem_cons_self) hrnot.1) hsplit
      dsimp only
      rw [hbase] at hV₄ ⊢
      -- the imported span is as large as the request, so nothing is cut off
      rw [splitParts_whole, List.append_assoc, List.append_assoc] at hV₄
      exact ⟨h₄, hsize, .inr ⟨⟨f, hf, rest, e, pool', hcall⟩,
        (hlends f hf _ e pool' hcall).2 addr rfl, A, B, hV, hA, hB, hV₄⟩⟩

/-! ## Giving a span back -/

/-- The allocated segment `g` is released as in an arena without a source, or its span turns out to
be entirely free and disappears. -/
inductive ReleasesFrom (g : Seg) : List Seg → List Seg → Prop
  | keep {V V' : List Seg} (h : Releases g V V') : ReleasesFrom g V V'
  | whole {L : List Seg} {m : Seg} {R : List Seg} (hm : m.type = .kVMemSegSpanImported)
      (hsize : g.size = m.size) : ReleasesFrom g (L ++ m :: g :: R) (L ++ R)
  | rest {V L : List Seg} {m f : Seg} {R : List Seg} (hm : m.type = .kVMemSegSpanImported)
      (hf : f.type = .kVMemSegFree) (hsize : f.size = m.size) (h : Releases g V (L ++ m :: f :: R)) :
      ReleasesFrom g V (L ++ R)

/-- A list that begins with a span marker still does after a change of its end, unless nothing is left
before the change. -/
theorem head_isSpan_append {L X Y : List Seg} (h : ∀ s ∈ (L ++ X).head?, s.isSpan = true)
    (hY : L = [] → ∀ s ∈ Y.head?, s.isSpan = true) : ∀ s ∈ (L ++ Y).head?, s.isSpan = true := by
  cases L with
  | nil => exact hY rfl
  | cons a L => exact h

/-- What stands before a segment that is no span marker is not empty. -/
theorem ne_nil_of_head_isSpan {L R : List Seg} {f : Seg}
    (h : ∀ s ∈ (L ++ f :: R).head?, s.isSpan = true) (hf : f.isSpan = false) : L ≠ [] := by
  rintro rfl
  rw [h f rfl] at hf
  cases hf

/-- A release keeps the span marker at the head of the queue. -/
theorem Releases.head_isSpan (h : Releases g V V') (hg : g.isSpan = false)
    (hhead : ∀ s ∈ V.head?, s.isSpan = true) : ∀ s ∈ V'.head?, s.isSpan = true := by
  cases h with
  | both L f e R hf he =>
      exact head_isSpan_append hhead fun hL =>
        absurd hL (ne_nil_of_head_isSpan hhead (isSpan_of_free hf))
  | left L f R hf hR =>
      exact head_isSpan_append hhead fun hL =>
        absurd hL (ne_nil_of_head_isSpan hhead (isSpan_of_free hf))
  | right L e R he hL =>
      exact head_isSpan_append hhead fun hL => absurd hL (ne_nil_of_head_isSpan hhead hg)
  | lost L R hL hR =>
      exact head_isSpan_append hhead fun hL => absurd hL (ne_nil_of_head_isSpan hhead hg)

/-- A span marker leaves the span list and the queue. -/
theorem linked_removeSpan (h : Linked none v) (hspan : (v.seg t).isSpan = true) :
    Linked none (queueRemove (listRemove v t) t) := by
  have htype : (v.seg t).type ≠ .kVMemSegFree ∧ (v.seg t).type ≠ .kVMemSegAllocated := by
    refine ⟨fun ht => ?_, fun ht => ?_⟩ <;> rw [Seg.isSpan, ht] at hspan <;> cases hspan
  constructor
  case nodup => exact h.nodup.erase t
  case pool_nodup => exact h.pool_nodup
  case pool_disjoint => exact fun u hu hmem => h.pool_disjoint u hu (List.mem_of_mem_erase hmem)
  case free_iff =>
    intro i u
    have := h.free_iff i u
    simp only [queueRemove, listRemove, List.mem_filter, h.nodup.mem_erase_iff]
    grind
  case hash_iff =>
    intro i u
    have := h.hash_iff i u
    simp only [queueRemove, listRemove, List.mem_filter, h.nodup.mem_erase_iff]
    generalize hashbucket = f at this ⊢
    grind
  case free_nodup => exact fun i => (h.free_nodup i).filter _
  case hash_nodup => exact fun i => (h.hash_nodup i).filter _
  -- the span leaves the queue and the span list together
  case spans_eq =>
    simp only [queueRemove, listRemove]
    rw [h.spans_eq, h.nodup.erase_eq_filter, List.filter_filter, List.filter_filter]
    refine List.filter_congr fun u _ => ?_
    rw [Bool.and_comm]
    by_cases hu : u = t
    · simp [hu]
    · simp [hu]

/-- A span marker and the segment after it leave the queue, and their tags go back. -/
theorem dropSpan_spec {f : Seg} {L R : List Seg} (h : Linked (some u) v) (ha : Around v u f L R)
    (hspan : f.isSpan = false) (hprev : Queue.prevOf u v.segqueue = some w)
    (hw : (v.seg w).isSpan = true) :
    ∃ L', L = L' ++ [v.seg w] ∧
      Linked none (segFree (queueRemove (listRemove (segFree (queueRemove v u) u) w) w) w) ∧
      view (segFree (queueRemove (listRemove (segFree (queueRemove v u) u) w) w) w) = L' ++ R := by
  obtain ⟨l, r, hq, rfl, rfl⟩ := ha.queue
  have hnot := (List.nodup_cons.mp (List.nodup_middle.mp (hq ▸ h.nodup))).1
  have hul : u ∉ l := fun hmem => hnot (List.mem_append_left _ hmem)
  have hur : u ∉ r := fun hmem => hnot (List.mem_append_right _ hmem)
  rw [hq, Queue.prevOf_split hul hur] at hprev
  obtain ⟨l', rfl⟩ := List.getLast?_eq_some_iff.mp hprev
  obtain ⟨h₁, -⟩ := drop_spec h ha hspan
  -- after the free segment is gone, the span is the last of what lies to the left
  have hq₁ : (segFree (queueRemove v u) u).segqueue = l' ++ w :: r := by
    show v.segqueue.erase u = _
    rw [hq, Queue.erase_split hul, List.append_assoc, List.singleton_append]
  have hwl : w ∉ l' := fun hmem =>
    (List.nodup_cons.mp (List.nodup_middle.mp (hq₁ ▸ h₁.nodup))).1 (List.mem_append_left _ hmem)
  have hwq : w ∈ (segFree (queueRemove v u) u).segqueue :=
    hq₁ ▸ List.mem_append_right _ List.mem_cons_self
  refine ⟨l'.map v.seg, ?_, ?_, ?_⟩
  · rw [List.map_append, List.map_singleton]
  · refine linked_segFree (linked_removeSpan h₁ hw) h₁.nodup.not_mem_erase ?_
    exact fun hmem => h₁.pool_disjoint w hmem hwq
  · show ((segFree (queueRemove v u) u).segqueue.erase w).map v.seg = _
    rw [hq₁, Queue.erase_split hwl, List.map_append]

/-- What `vmem_xfree` asserts about the segment after a span it gives back. -/
theorem Around.head_isSpan {f : Seg} {L R : List Seg} (ha : Around v u f L R)
    (hnd : v.segqueue.Nodup) (h : (Queue.nextOf u v.segqueue).all fun right =>
      (v.seg right).type = .kVMemSegSpanImported) : ∀ e ∈ R.head?, e.isSpan = true := by
  obtain ⟨l, r, hq, rfl, rfl⟩ := ha.queue
  have hul : u ∉ l := fun hmem =>
    (List.nodup_cons.mp (List.nodup_middle.mp (hq ▸ hnd))).1 (List.mem_append_left _ hmem)
  rw [hq, Queue.nextOf_split hul] at h
  intro e he
  rw [List.head?_map] at he
  obtain ⟨w, hw, rfl⟩ := Option.mem_map.mp he
  rw [Option.mem_def.mp hw] at h
  rw [Seg.isSpan, of_decide_eq_true h]

/-- Giving a span back to the source: nothing happens, or the marker `w` and the segment `u` after
it, which fills the span, are gone. -/
theorem releaseSpan_spec {f : Seg} {L R : List Seg} {d d' : Bool}
    (h : Linked (if d then none else some u) v) (ha : Around v u f L R) (hspan : f.isSpan = false)
    (hprev : Queue.prevOf u v.segqueue = some w)
    (hsrc : ∀ s ∈ src, ∀ base size e pool', s.freefn v.env v.freeSegs base size = some (e, pool') →
      Unused pool' v.segqueue)
    (hs : releaseSpan src v u w d = some (d', v')) :
    (d' = d ∧ v' = v) ∨ (d' = true ∧ Linked none v' ∧ ∃ L' m, L = L' ++ [m] ∧
      m.type = .kVMemSegSpanImported ∧ f.size = m.size ∧ view v' = L' ++ R ∧
      ∀ e ∈ R.head?, e.isSpan = true) := by
  have hnodup : v.segqueue.Nodup := h.nodup
  unfold releaseSpan at hs
  rw [ha.seg_eq] at hs
  split at hs
  · rename_i hwhole
    split at hs
    · rename_i hright
      have hR := ha.head_isSpan hnodup hright
      obtain ⟨s, hsome, hs⟩ := Option.bind_eq_some_iff.mp hs
      obtain ⟨⟨e, pool'⟩, hcall, hs⟩ := Option.bind_eq_some_iff.mp hs
      have h₁ := h.withSource e (hsrc s hsome _ _ e pool' hcall)
      obtain ⟨rfl, rfl⟩ := Prod.mk.inj (Option.some.inj hs)
      have hw : (v.seg w).isSpan = true := by rw [Seg.isSpan, hwhole.1]
      refine .inr ⟨rfl, ?_⟩
      cases d with
      | true =>
          -- the segment is on a free list, which it leaves as well
          have h₂ := linked_listRemove h₁ (t := u) (ha.seg_eq ▸ hspan)
          obtain ⟨L', hL, h₃, hV⟩ := dropSpan_spec h₂ (f := f) ⟨ha.seg_eq, ha.queue⟩ hspan hprev hw
          exact ⟨h₃, L', v.seg w, hL, hwhole.1, hwhole.2, hV, hR⟩
      | false =>
          obtain ⟨L', hL, h₃, hV⟩ := dropSpan_spec h₁ (f := f) ⟨ha.seg_eq, ha.queue⟩ hspan hprev hw
          exact ⟨h₃, L', v.seg w, hL, hwhole.1, hwhole.2, hV, hR⟩
    · cases hs
  · cases hs
    exact .inl ⟨rfl, rfl⟩

/-- `freeseg_expand` does not touch the source. -/
theorem freesegExpand_env (v : Arena E) (t : Tag) (base size : ℕ) :
    (freesegExpand v t base size).env = v.env := by
  unfold freesegExpand
  dsimp only
  split <;> rfl

/-- Coalescing to the left does not touch the source and adds nothing to the queue. -/
theorem coalesceLeft_frame {c : Bool} (hs : coalesceLeft v t = some (u, c, v')) :
    v'.env = v.env ∧ ∀ w ∈ v'.segqueue, w ∈ v.segqueue := by
  unfold coalesceLeft at hs
  obtain ⟨left, -, hs⟩ := Option.bind_eq_some_iff.mp hs
  split at hs
  · cases hs
    refine ⟨freesegExpand_env .., fun w hw => ?_⟩
    have hmem := List.mem_of_mem_erase hw
    rwa [freesegExpand_segqueue] at hmem
  · cases hs
    exact ⟨rfl, fun w hw => hw⟩

/-- Coalescing to the right does not touch the source and adds nothing to the queue. -/
theorem coalesceRight_frame (v : Arena E) (t : Tag) (c : Bool) :
    (coalesceRight v t c).2.2.env = v.env ∧
      ∀ w ∈ (coalesceRight v t c).2.2.segqueue, w ∈ v.segqueue := by
  unfold coalesceRight
  split
  · exact ⟨rfl, fun w hw => hw⟩
  · rename_i right _
    split
    · refine ⟨by cases c <;> exact freesegExpand_env .., fun w hw => ?_⟩
      have hmem : w ∈ (freesegExpand v right (v.seg t).base
          (add64 (v.seg right).size (v.seg t).size)).segqueue := by
        cases c <;> exact List.mem_of_mem_erase hw
      rwa [freesegExpand_segqueue] at hmem
    · exact ⟨rfl, fun w hw => hw⟩

/-- **`vmem_xfree` of any arena.** It releases the allocated segment at the address, and the span
with it if that is an imported one and entirely free. -/
theorem vmemXfree_source_spec {n : ℤ} (h : Linked none v) (hsrc : ∀ f ∈ src, TakesOk f v)
    (hs : vmemXfree src v addr = some (n, v')) :
    Linked none v' ∧ (∃ g, g.type = .kVMemSegAllocated ∧ g.base = addr ∧
      ReleasesFrom g (view v) (view v')) ∧
      ((∀ s ∈ (view v).head?, s.isSpan = true) → ∀ s ∈ (view v').head?, s.isSpan = true) := by
  obtain ⟨t, u, c, v₁, w, d', v₃, hfind, -, hleft, hprev, hrel, hv'⟩ := vmemXfree_eq_some hs
  obtain ⟨hbucket, hbase⟩ := hashFind_some hfind
  obtain ⟨-, htq, halloc, -⟩ := (h.hash_iff _ t).mp hbucket
  obtain ⟨u', d, v₂, f, L, R, heq, ha, hspan, hprev₂, hcases⟩ :=
    coalesce_spec h htq halloc hleft hprev
  have hframe₁ := coalesceLeft_frame hleft
  have hframe₂ := coalesceRight_frame v₁ u c
  rw [heq] at hrel hv' hframe₂
  dsimp only at hrel hv' hframe₂
  have henv : v₂.env = v.env := hframe₂.1.trans hframe₁.1
  -- coalescing only takes tags out of the queue, so what the source may not take is still covered
  have hsub : ∀ x ∈ v₂.segqueue, x ∈ v.segqueue := fun x hx => hframe₁.2 x (hframe₂.2 x hx)
  have hlink : Linked (if d then none else some u') v₂ := by
    rcases hcases with ⟨rfl, h₂, -⟩ | ⟨rfl, h₂, -⟩
    · exact h₂
    · exact h₂
  have htakes : ∀ s ∈ src, ∀ base size e pool',
      s.freefn v₂.env v₂.freeSegs base size = some (e, pool') → Unused pool' v₂.segqueue := by
    intro s hmem base size e pool' hcall
    rw [henv] at hcall
    exact hsrc s hmem _ _ base size e pool' hsub ⟨hlink.pool_nodup, hlink.pool_disjoint⟩ hcall
  subst hv'
  -- the whole imported span is free and goes back to the source, or the arena keeps it
  rcases releaseSpan_spec hlink ha hspan hprev₂ htakes hrel with
    ⟨rfl, rfl⟩ | ⟨rfl, h₃, L', m, rfl, hm, hsize, hV, hhead⟩
  · rcases hcases with ⟨rfl, h₂, -, hreleases⟩ | ⟨rfl, h₂, rfl, hV, hL, hR⟩
    · have hreleases : Releases (v.seg t) (view v) (view v₃) := ha.view_eq ▸ hreleases
      exact ⟨h₂, ⟨_, halloc, hbase, .keep hreleases⟩,
        hreleases.head_isSpan (isSpan_of_allocated halloc)⟩
    -- no free neighbour: the segment is dropped from the queue and its tag freed
    · obtain ⟨h₃, hview⟩ := drop_spec h₂ ha hspan
      have hreleases : Releases (v.seg t) (view v) (view (segFree (queueRemove v₃ u') u')) := by
        rw [hview, hV]
        exact .lost L R hL hR
      exact ⟨h₃, ⟨_, halloc, hbase, .keep hreleases⟩,
        hreleases.head_isSpan (isSpan_of_allocated halloc)⟩
  · have hassoc : ∀ X, (L' ++ [m]) ++ f :: X = L' ++ m :: f :: X := fun X => by
      rw [List.append_assoc, List.singleton_append]
    show Linked none v₃ ∧ (∃ g, g.type = .kVMemSegAllocated ∧ g.base = addr ∧
      ReleasesFrom g (view v) (view v₃)) ∧ (_ → ∀ s ∈ (view v₃).head?, s.isSpan = true)
    rw [hV]
    rcases hcases with ⟨-, -, hf, hreleases⟩ | ⟨-, -, rfl, hV₀, -⟩
    · rw [hassoc] at hreleases
      refine ⟨h₃, ⟨_, halloc, hbase, .rest hm hf hsize hreleases⟩, fun h => ?_⟩
      exact head_isSpan_append (hreleases.head_isSpan (isSpan_of_allocated halloc) h) fun _ => hhead
    · rw [hassoc] at hV₀
      rw [hV₀]
      exact ⟨h₃, ⟨_, halloc, hbase, .whole hm hsize⟩, fun h => head_isSpan_append h fun _ => hhead⟩

/-- **`vmem_xfree` of a span that is allocated as a whole** calls `freefn`, and the marker and the
segment are gone; `hR` is the assertion on what follows. -/
theorem vmemXfree_whole {f : Source E} {m : Seg} {L R : List Seg} {e : E} {pool : List Tag}
    (h : Linked none v) (hfind : hashFind v.seg addr (v.hashtab (hashbucket addr)) = some t)
    (ha : Around v t g (L ++ [m]) R) (hm : m.type = .kVMemSegSpanImported) (hsize : g.size = m.size)
    (hR : ∀ e ∈ R.head?, e.type = .kVMemSegSpanImported)
    (hcall : f.freefn v.env v.freeSegs m.base m.size = some (e, pool))
    (hpool : Unused pool v.segqueue) :
    ∃ v', vmemXfree (some f) v addr = some (Int.bmod g.size (2 ^ 32), v') ∧ Linked none v' ∧
      view v' = L ++ R ∧ v'.env = e ∧ (tags v').Perm (v.segqueue ++ pool) := by
  obtain ⟨-, htq, halloc, -⟩ := (h.hash_iff _ t).mp (hashFind_some hfind).1
  rw [ha.seg_eq] at halloc
  have hspan := isSpan_of_allocated halloc
  have h₀ := linked_listRemove h (t := t) (by rw [ha.seg_eq]; exact hspan)
  have ha₀ : Around (listRemove v t) t g (L ++ [m]) R := ⟨ha.seg_eq, ha.queue⟩
  -- the neighbours are markers, so nothing is coalesced
  have hleft : coalesceLeft (listRemove v t) t = some (t, false, listRemove v t) := by
    obtain ⟨u, c, v₁, hleft, -, -⟩ := coalesceLeft_isSome ha₀ h₀.nodup (by simp)
    rcases coalesceLeft_spec h₀ ha₀ hspan hleft with ⟨-, -, L', f', hL, hfree, -⟩ | ⟨rfl, rfl, rfl, -⟩
    · obtain rfl : m = f' := (List.append_inj_right' hL rfl |> List.singleton_inj.mp)
      rw [hm] at hfree
      cases hfree
    · exact hleft
  obtain ⟨w, hwq, hprev⟩ := ha₀.prevOf h₀.nodup (by simp)
  have hright : coalesceRight (listRemove v t) t false = (t, false, listRemove v t) := by
    rcases coalesceRight_spec (c := false) h₀ ha₀ hspan with ⟨e', R', rfl, hfree, -⟩ | ⟨heq, -⟩
    · rw [hR e' rfl] at hfree
      cases hfree
    · exact heq
  obtain ⟨l, r, hq, hl, hr⟩ := ha.queue
  have hnot := (List.nodup_cons.mp (List.nodup_middle.mp (hq ▸ h.nodup))).1
  have htl : t ∉ l := fun hmem => hnot (List.mem_append_left _ hmem)
  have htr : t ∉ r := fun hmem => hnot (List.mem_append_right _ hmem)
  have hw : v.seg w = m := by
    have hprev : Queue.prevOf t v.segqueue = some w := hprev
    rw [hq, Queue.prevOf_split htl htr] at hprev
    obtain ⟨l', rfl⟩ := List.getLast?_eq_some_iff.mp hprev
    rw [List.map_append, List.map_singleton] at hl
    exact (List.append_inj_right' hl rfl |> List.singleton_inj.mp)
  have hnext : (Queue.nextOf t v.segqueue).all (fun right =>
      (v.seg right).type = .kVMemSegSpanImported) = true := by
    rw [hq, Queue.nextOf_split htl]
    cases r with
    | nil => rfl
    | cons u r =>
        refine decide_eq_true (hR (v.seg u) ?_)
        rw [← hr]
        rfl
  have h₁ := h₀.withSource e hpool
  obtain ⟨L', hL, h₂, hview⟩ := dropSpan_spec (w := w) h₁ (f := g) ⟨ha.seg_eq, ha.queue⟩ hspan hprev
    (by show (v.seg w).isSpan = true; rw [hw, Seg.isSpan, hm])
  obtain ⟨rfl, -⟩ := List.append_inj' hL rfl
  refine ⟨_, ?_, h₂, hview, rfl, ?_⟩
  · have hrel : releaseSpan (some f) (listRemove v t) t w false = some (true, segFree (queueRemove
        (listRemove (segFree (queueRemove { listRemove v t with env := e, freeSegs := pool } t) t) w)
        w) w) := by
      have hcond : ((listRemove v t).seg w).type = .kVMemSegSpanImported ∧
          ((listRemove v t).seg t).size = ((listRemove v t).seg w).size := by
        show (v.seg w).type = _ ∧ (v.seg t).size = (v.seg w).size
        rw [hw, ha.seg_eq]
        exact ⟨hm, hsize⟩
      have hnext : (Queue.nextOf t (listRemove v t).segqueue).all (fun right =>
          ((listRemove v t).seg right).type = .kVMemSegSpanImported) = true := hnext
      rw [← hw] at hcall
      have hcall : f.freefn (listRemove v t).env (listRemove v t).freeSegs
          ((listRemove v t).seg w).base ((listRemove v t).seg w).size = some (e, pool) := hcall
      rw [releaseSpan, if_pos hcond, if_pos hnext, Option.bind_eq_bind, Option.bind_some, hcall]
      rfl
    unfold vmemXfree
    simp only [hfind, hleft, hprev, hright, hrel, Option.bind_eq_bind, Option.bind_some, if_true,
      ha.seg_eq]
    rfl
  · have hwq' : w ∈ (listRemove (segFree (queueRemove { listRemove v t with
        env := e, freeSegs := pool } t) t) w).segqueue := by
      refine (List.mem_erase_of_ne ?_).mpr hwq
      rintro rfl
      rw [ha.seg_eq] at hw
      rw [hw, hm] at halloc
      cases halloc
    exact (tags_drop hwq').trans (tags_drop (v := { listRemove v t with env := e, freeSegs := pool }) htq)

end Scalux.Vmem
