import Scalux.Kern.Vmem

/-! # The lists of an arena agree with its queue

`Linked x v` says that the containers of an arena agree with its segment queue: each free list
holds the free segments of its size class, each hash bucket the allocated segments that hash to it,
the span list the span markers in queue order.  The operations unlink a segment, change it and link
it elsewhere; `x` is the tag that is between lists, if there is one.

* **`linked_listRemove`**, **`linked_queueRemove`**, **`linked_segFree`**: a segment leaves its list,
  the queue, and becomes an unused tag.
* **`linked_insertFree`**, **`linked_allocate`**, **`linked_freesegExpand`**: a segment is new and
  free, becomes allocated, or is free and grows. -/

namespace Scalux.Vmem

variable {E : Type} {v v' : Arena E} {t left right : Tag} {x : Option Tag}

/-- A span marker. -/
def Seg.isSpan (s : Seg) : Bool :=
  match s.type with
  | .kVMemSegSpan | .kVMemSegSpanImported => true
  | .kVMemSegFree | .kVMemSegAllocated => false

/-- A free segment. -/
def Seg.isFree (s : Seg) : Bool := s.type = .kVMemSegFree

/-- The segments of an arena in queue order. -/
def view (v : Arena E) : List Seg := v.segqueue.map v.seg

/-- The containers agree with the queue; the tag `x`, if any, is on the queue but on no list. -/
structure Linked (x : Option Tag) (v : Arena E) : Prop where
  nodup : v.segqueue.Nodup
  pool_nodup : v.freeSegs.Nodup
  pool_disjoint : ∀ t ∈ v.freeSegs, t ∉ v.segqueue
  free_iff : ∀ i t, t ∈ v.freelist i ↔
    some t ≠ x ∧ t ∈ v.segqueue ∧ (v.seg t).type = .kVMemSegFree ∧ freelist (v.seg t).size = i
  hash_iff : ∀ i t, t ∈ v.hashtab i ↔
    some t ≠ x ∧ t ∈ v.segqueue ∧ (v.seg t).type = .kVMemSegAllocated ∧
      hashbucket (v.seg t).base = i
  free_nodup : ∀ i, (v.freelist i).Nodup
  hash_nodup : ∀ i, (v.hashtab i).Nodup
  spans_eq : v.spanlist = v.segqueue.filter fun t => (v.seg t).isSpan

/-- A free segment is not a span marker. -/
theorem isSpan_of_free {s : Seg} (h : s.type = .kVMemSegFree) : s.isSpan = false := by
  rw [Seg.isSpan, h]

/-- An allocated segment is not a span marker. -/
theorem isSpan_of_allocated {s : Seg} (h : s.type = .kVMemSegAllocated) : s.isSpan = false := by
  rw [Seg.isSpan, h]

/-- Changing a tag that is not in a list does not change what the list shows. -/
theorem map_update_of_notMem {l : List Tag} (h : t ∉ l) (f : Tag → Seg) (s : Seg) :
    l.map (Function.update f t s) = l.map f := by
  refine List.map_congr_left fun u hu => Function.update_of_ne ?_ _ _
  rintro rfl
  exact h hu

/-- Changing a tag that is not in a list does not change which of its elements are spans. -/
theorem filter_isSpan_update {l : List Tag} (h : t ∉ l) (f : Tag → Seg) (s : Seg) :
    (l.filter fun u => (Function.update f t s u).isSpan) = l.filter fun u => (f u).isSpan := by
  refine List.filter_congr fun u hu => ?_
  rw [Function.update_of_ne]
  rintro rfl
  exact h hu

/-! ## Unlinking and linking one tag -/

/-- `LIST_REMOVE` of a segment on the queue that is not a span marker. -/
theorem linked_listRemove (h : Linked none v) (hspan : (v.seg t).isSpan = false) :
    Linked (some t) (listRemove v t) where
  nodup := h.nodup
  pool_nodup := h.pool_nodup
  pool_disjoint := h.pool_disjoint
  free_iff := by
    intro i u
    have := h.free_iff i u
    simp only [listRemove, List.mem_filter]
    grind
  hash_iff := by
    intro i u
    have := h.hash_iff i u
    simp only [listRemove, List.mem_filter]
    generalize hashbucket = f at this ⊢
    grind
  free_nodup i := (h.free_nodup i).filter _
  hash_nodup i := (h.hash_nodup i).filter _
  spans_eq := by
    simp only [listRemove]
    rw [h.spans_eq, List.filter_filter]
    refine List.filter_congr fun u _ => ?_
    -- the removed segment is no span, so the filter of the span list passes it over anyway
    by_cases hu : u = t
    · rw [hu, hspan, Bool.and_false]
    · simp [hu]

/-- `TAILQ_REMOVE` of the tag that is on no list. -/
theorem linked_queueRemove (h : Linked (some t) v) (hspan : (v.seg t).isSpan = false) :
    Linked none (queueRemove v t) where
  nodup := h.nodup.erase t
  pool_nodup := h.pool_nodup
  pool_disjoint u hu hmem := h.pool_disjoint u hu (List.mem_of_mem_erase hmem)
  free_iff := by
    intro i u
    have := h.free_iff i u
    simp only [queueRemove, h.nodup.mem_erase_iff]
    grind
  hash_iff := by
    intro i u
    have := h.hash_iff i u
    simp only [queueRemove, h.nodup.mem_erase_iff]
    generalize hashbucket = f at this ⊢
    grind
  free_nodup := h.free_nodup
  hash_nodup := h.hash_nodup
  spans_eq := by
    simp only [queueRemove]
    rw [h.spans_eq, h.nodup.erase_eq_filter, List.filter_filter]
    refine List.filter_congr fun u _ => ?_
    -- the same: no span leaves the queue
    by_cases hu : u = t
    · rw [hu, hspan, Bool.false_and]
    · simp [hu]

/-- Another list of unused tags, and another state of the source. -/
theorem Linked.withFree (h : Linked x v) {pool : List Tag} (env : E) (hnodup : pool.Nodup)
    (hdisjoint : ∀ u ∈ pool, u ∉ v.segqueue) : Linked x { v with env := env, freeSegs := pool } where
  nodup := h.nodup
  pool_nodup := hnodup
  pool_disjoint := hdisjoint
  free_iff := h.free_iff
  hash_iff := h.hash_iff
  free_nodup := h.free_nodup
  hash_nodup := h.hash_nodup
  spans_eq := h.spans_eq

/-- `seg_free` of a tag that has left the queue. -/
theorem linked_segFree (h : Linked x v) (hq : t ∉ v.segqueue) (hp : t ∉ v.freeSegs) :
    Linked x (segFree v t) :=
  h.withFree v.env (List.nodup_cons.mpr ⟨hp, h.pool_nodup⟩) fun u hu =>
    (List.mem_cons.mp hu).elim (fun heq => heq ▸ hq) (h.pool_disjoint u)

section insertion

variable {n : Tag} {l r : List Tag}

/-- A tag that enters the queue between `l` and `r`. -/
theorem mem_inserted (hq : v.segqueue = l ++ r) (u : Tag) : u ∈ l ++ n :: r ↔ u = n ∨ u ∈ v.segqueue := by
  rw [hq, List.mem_append, List.mem_cons, List.mem_append]
  exact or_left_comm

/-- A segment that is not in the queue is in neither part of it. -/
theorem not_mem_parts (hq : v.segqueue = l ++ r) (hn : n ∉ v.segqueue) : n ∉ l ∧ n ∉ r := by
  rw [hq, List.mem_append, not_or] at hn
  exact hn

/-- A new segment put into the queue is there once. -/
theorem Linked.nodup_inserted (h : Linked x v) (hq : v.segqueue = l ++ r) (hn : n ∉ v.segqueue) :
    (l ++ n :: r).Nodup :=
  List.nodup_middle.mpr (List.nodup_cons.mpr ⟨hq ▸ hn, hq ▸ h.nodup⟩)

/-- A segment taken from the pool is in the pool no more. -/
theorem Linked.disjoint_inserted (h : Linked x v) (hq : v.segqueue = l ++ r) (hp : n ∉ v.freeSegs) :
    ∀ u ∈ v.freeSegs, u ∉ l ++ n :: r := by
  intro u hu hmem
  rcases (mem_inserted hq u).mp hmem with rfl | hold
  · exact hp hu
  · exact h.pool_disjoint u hu hold

end insertion

/-- A new free segment `n` enters the queue between `l` and `r`, and its free list. -/
theorem linked_insertFree {n : Tag} {s : Seg} {l r : List Tag} (h : Linked x v)
    (hq : v.segqueue = l ++ r) (hn : n ∉ v.segqueue) (hp : n ∉ v.freeSegs) (hx : x ≠ some n)
    (hs : s.type = .kVMemSegFree) :
    Linked x (freelistInsert { setSeg v n s with segqueue := l ++ n :: r } n) := by
  have hmem := mem_inserted (n := n) hq
  have hself : Function.update v.seg n s n = s := Function.update_self ..
  -- a tag outside the queue is on no freelist and in no bucket
  have hfree : ∀ i, n ∉ v.freelist i := fun i hi => hn ((h.free_iff i n).mp hi).2.1
  have hhash : ∀ i, n ∉ v.hashtab i := fun i hi => hn ((h.hash_iff i n).mp hi).2.1
  constructor
  case nodup => exact h.nodup_inserted hq hn
  case pool_nodup => exact h.pool_nodup
  case pool_disjoint => exact h.disjoint_inserted hq hp
  case free_iff =>
    intro i u
    have := h.free_iff i u
    have := hfree i
    have := hmem u
    simp only [freelistInsert, setSeg, hself]
    grind
  case hash_iff =>
    intro i u
    have := hhash i
    have := hmem u
    have := h.hash_iff i u
    simp only [freelistInsert, setSeg]
    generalize hashbucket = f at this ⊢
    grind
  case free_nodup =>
    intro i
    have := h.free_nodup i
    have := hfree i
    simp only [freelistInsert, setSeg, hself]
    grind
  case hash_nodup => exact h.hash_nodup
  case spans_eq =>
    have hnl := not_mem_parts hq hn
    simp only [freelistInsert, setSeg]
    rw [h.spans_eq, hq, List.filter_append, List.filter_append,
      List.filter_cons_of_neg (by rw [hself, isSpan_of_free hs]; exact Bool.false_ne_true),
      filter_isSpan_update hnl.1, filter_isSpan_update hnl.2]

/-- The tag that is on no list becomes the allocated segment `s` and enters its hash bucket. -/
theorem linked_allocate {s : Seg} (h : Linked (some t) v) (ht : t ∈ v.segqueue)
    (hspan : (v.seg t).isSpan = false) (hs : s.type = .kVMemSegAllocated) :
    Linked none (hashtabInsert (setSeg v t s) t) := by
  have hself : Function.update v.seg t s t = s := Function.update_self ..
  -- `t` is the one tag that is exempt, so it is in no bucket before it is put into one
  have hhash : ∀ i, t ∉ v.hashtab i := fun i hi => ((h.hash_iff i t).mp hi).1 rfl
  constructor
  case nodup => exact h.nodup
  case pool_nodup => exact h.pool_nodup
  case pool_disjoint => exact h.pool_disjoint
  case free_iff =>
    intro i u
    have := h.free_iff i u
    simp only [hashtabInsert, setSeg]
    grind
  case hash_iff =>
    intro i u
    have := hhash i
    have := h.hash_iff i u
    simp only [hashtabInsert, setSeg, hself]
    generalize hashbucket = f at this ⊢
    grind
  case free_nodup => exact h.free_nodup
  case hash_nodup =>
    intro i
    have := h.hash_nodup i
    have := hhash i
    simp only [hashtabInsert, setSeg, hself]
    generalize hashbucket s.base = j
    grind
  case spans_eq =>
    simp only [hashtabInsert, setSeg]
    rw [h.spans_eq]
    refine List.filter_congr fun u _ => ?_
    by_cases hu : u = t
    · rw [hu, hself, hspan, isSpan_of_allocated hs]
    · rw [Function.update_of_ne hu]

/-- A free segment on the queue changes its place and size, and its free list with them. -/
theorem linked_freesegExpand {b n : ℕ} (h : Linked x v) (ht : t ∈ v.segqueue)
    (hfree : (v.seg t).type = .kVMemSegFree) (hx : x ≠ some t) :
    Linked x (freesegExpand v t b n) := by
  -- a free segment is no span marker: removing it from the span list does nothing
  have hspans : (v.spanlist.filter (· ≠ t)) = v.spanlist := by
    refine List.filter_eq_self.mpr fun u hu => ?_
    rw [h.spans_eq, List.mem_filter] at hu
    refine decide_eq_true ?_
    rintro rfl
    rw [isSpan_of_free hfree] at hu
    exact Bool.false_ne_true hu.2
  have hfilter : ∀ q : List Tag, (q.filter fun u =>
      (Function.update v.seg t { v.seg t with base := b, size := n } u).isSpan)
        = q.filter fun u => (v.seg u).isSpan := by
    refine fun q => List.filter_congr fun u _ => ?_
    by_cases hu : u = t
    · rw [hu, Function.update_self, isSpan_of_free hfree, isSpan_of_free]
      exact hfree
    · rw [Function.update_of_ne hu]
  unfold freesegExpand
  dsimp only
  split
  · constructor
    case nodup => exact h.nodup
    case pool_nodup => exact h.pool_nodup
    case pool_disjoint => exact h.pool_disjoint
    case free_iff =>
      intro i u
      have := h.free_iff i u
      simp only [freelistInsert, listRemove, setSeg, Function.update_self]
      grind
    case hash_iff =>
      intro i u
      have := h.hash_iff i u
      simp only [freelistInsert, listRemove, setSeg, List.mem_filter]
      generalize hashbucket = f at this ⊢
      grind
    case free_nodup =>
      intro i
      have := h.free_nodup i
      simp only [freelistInsert, listRemove, setSeg, Function.update_self]
      grind
    case hash_nodup => exact fun i => (h.hash_nodup i).filter _
    case spans_eq =>
      simp only [freelistInsert, listRemove, setSeg]
      rw [hspans, hfilter, h.spans_eq]
  -- the class of the size is the same, and the segment keeps its place on the freelist
  · rename_i hclass
    constructor
    case nodup => exact h.nodup
    case pool_nodup => exact h.pool_nodup
    case pool_disjoint => exact h.pool_disjoint
    case free_iff =>
      intro i u
      have := h.free_iff i u
      simp only [setSeg]
      grind
    case hash_iff =>
      intro i u
      have := h.hash_iff i u
      simp only [setSeg]
      generalize hashbucket = f at this ⊢
      grind
    case free_nodup => exact h.free_nodup
    case hash_nodup => exact h.hash_nodup
    case spans_eq =>
      simp only [setSeg]
      rw [hfilter, h.spans_eq]

/-- `freeseg_expand` leaves the queue of segments. -/
@[simp] theorem freesegExpand_segqueue (v : Arena E) (t : Tag) (base size : ℕ) :
    (freesegExpand v t base size).segqueue = v.segqueue := by
  unfold freesegExpand
  dsimp only
  split <;> rfl

/-- `freeseg_expand` sets the base and the size of the segment. -/
@[simp] theorem freesegExpand_seg (v : Arena E) (t : Tag) (base size : ℕ) :
    (freesegExpand v t base size).seg
      = Function.update v.seg t { v.seg t with base := base, size := size } := by
  unfold freesegExpand
  dsimp only
  split <;> rfl

/-- `freeseg_expand` leaves the free tags. -/
@[simp] theorem freesegExpand_freeSegs (v : Arena E) (t : Tag) (base size : ℕ) :
    (freesegExpand v t base size).freeSegs = v.freeSegs := by
  unfold freesegExpand
  dsimp only
  split <;> rfl

end Scalux.Vmem
