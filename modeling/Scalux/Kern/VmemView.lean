import Scalux.Kern.VmemLinks

/-! # What the operations do to the segments in queue order

The abstract arena is its **view**: the segments in queue order, without tags, lists and hash
buckets.  Each operation of the code keeps `Linked` and changes the view as the relations here say;
arithmetic is still the code's, modulo `2 ^ 64`.

* **`vmemAdd_spec`**: a span marker and a free segment appear before the next span.
* **`vmemXalloc_spec`**: a free segment is replaced by its left remainder, the allocation and its
  right remainder, or nothing changes.
* **`vmemXfree_spec`**: an allocated segment is merged into its free neighbours, or disappears. -/

namespace Scalux.Vmem

variable {E : Type} {v v' : Arena E} {t left right : Tag} {x : Option Tag} {l r : List Tag}
  {addr size min : ℕ} {flags : Flags}

/-! ## `split_seg` -/

/-- What is left of a free segment before an allocation at `addr`. -/
def leftPart (s : Seg) (addr : ℕ) : List Seg :=
  if s.base < addr then [⟨.kVMemSegFree, s.base, addr - s.base⟩] else []

/-- What is left of a free segment after an allocation of `size` at `addr`. -/
def rightPart (s : Seg) (addr size : ℕ) : List Seg :=
  if add64 addr size < add64 s.base s.size then
    [⟨.kVMemSegFree, add64 addr size, sub64 (add64 s.base s.size) (add64 addr size)⟩]
  else []

/-- The segments a free segment is split into. -/
def splitParts (s : Seg) (addr size : ℕ) : List Seg :=
  leftPart s addr ++ ⟨.kVMemSegAllocated, addr, size⟩ :: rightPart s addr size

/-- What `split_seg` has done so far around the tag `t`: the queue is still split at `t`, the
segments before it are `L`, those after it are `R`, and `t` itself is untouched. -/
structure Around (v : Arena E) (t : Tag) (s : Seg) (L R : List Seg) : Prop where
  seg_eq : v.seg t = s
  queue : ∃ l r, v.segqueue = l ++ t :: r ∧ l.map v.seg = L ∧ r.map v.seg = R

/-- The view around a tag. -/
theorem Around.view_eq {s : Seg} {L R : List Seg} (h : Around v t s L R) :
    view v = L ++ s :: R := by
  obtain ⟨l, r, hq, rfl, rfl⟩ := h.queue
  rw [view, hq, List.map_append, List.map_cons, h.seg_eq]

/-- Assigning a tag of the queue changes one segment of the view. -/
theorem Around.setSeg {s : Seg} {L R : List Seg} (h : Around v t s L R) (hnd : v.segqueue.Nodup)
    (s' : Seg) : Around (setSeg v t s') t s' L R := by
  obtain ⟨l, r, hq, rfl, rfl⟩ := h.queue
  have hnot := (List.nodup_cons.mp (List.nodup_middle.mp (hq ▸ hnd))).1
  exact ⟨Function.update_self .., l, r, hq,
    map_update_of_notMem (fun hmem => hnot (List.mem_append_left _ hmem)) _ _,
    map_update_of_notMem (fun hmem => hnot (List.mem_append_right _ hmem)) _ _⟩

/-- A tag on the queue has something around it. -/
theorem exists_around (ht : t ∈ v.segqueue) : ∃ L R, Around v t (v.seg t) L R := by
  obtain ⟨l, r, hq⟩ := List.append_of_mem ht
  exact ⟨_, _, rfl, l, r, hq, rfl, rfl⟩

/-- The left remainder enters the queue, or its tag goes back. -/
theorem splitLeft_spec (addr : ℕ) {s : Seg} {L R : List Seg} (h : Linked (some t) v)
    (ha : Around v t s L R) (hq : left ∉ v.segqueue) (hp : left ∉ v.freeSegs) :
    Linked (some t) (splitLeft v t left addr) ∧
      Around (splitLeft v t left addr) t s (L ++ leftPart s addr) R ∧
      (∀ u, u ∈ (splitLeft v t left addr).segqueue → u = left ∨ u ∈ v.segqueue) ∧
      ∀ u, u ∈ (splitLeft v t left addr).freeSegs → u = left ∨ u ∈ v.freeSegs := by
  obtain ⟨l, r, hsplit, rfl, rfl⟩ := ha.queue
  have hne : left ≠ t := by
    rintro rfl
    exact hq (hsplit ▸ List.mem_append_right _ List.mem_cons_self)
  have htl : t ∉ l := by
    have hnd := List.nodup_middle.mp (hsplit ▸ h.nodup)
    exact fun hmem => (List.nodup_cons.mp hnd).1 (List.mem_append_left _ hmem)
  have hl : left ∉ l := fun hmem => hq (hsplit ▸ List.mem_append_left _ hmem)
  have hr : left ∉ r := fun hmem =>
    hq (hsplit ▸ List.mem_append_right _ (List.mem_cons_of_mem _ hmem))
  unfold splitLeft leftPart
  dsimp only
  rw [ha.seg_eq]
  -- the left tag takes what lies below `addr`, or goes back to the pool
  by_cases hbase : s.base < addr
  · rw [if_pos hbase, if_pos hbase]
    have hins : Queue.insertBefore t left (setSeg v left
        ⟨.kVMemSegFree, s.base, addr - s.base⟩).segqueue = l ++ left :: t :: r := by
      show Queue.insertBefore t left v.segqueue = _
      rw [hsplit, Queue.insertBefore_split htl]
    rw [hins]
    refine ⟨linked_insertFree h hsplit hq hp (fun he => hne (Option.some.inj he).symm) rfl,
      ⟨?_, l ++ [left], r, ?_, ?_, ?_⟩, ?_, ?_⟩
    · exact (Function.update_of_ne (Ne.symm hne) _ _).trans ha.seg_eq
    · show l ++ left :: t :: r = _
      rw [List.append_assoc, List.singleton_append]
    · show (l ++ [left]).map (Function.update v.seg left _) = _
      rw [List.map_append, map_update_of_notMem hl, List.map_singleton, Function.update_self]
    · exact map_update_of_notMem hr _ _
    · intro u hu
      have hu : u ∈ l ++ left :: t :: r := hu
      rw [hsplit]
      -- only `left` joins the queue
      grind
    · exact fun u hu => .inr hu
  · rw [if_neg hbase, if_neg hbase, List.append_nil]
    exact ⟨linked_segFree h hq hp, ⟨ha.seg_eq, l, r, hsplit, rfl, rfl⟩, fun u hu => .inr hu,
      fun u hu => List.mem_cons.mp hu⟩

/-- The right remainder enters the queue, or its tag goes back. -/
theorem splitRight_spec (addr size : ℕ) {s : Seg} {L R : List Seg} (h : Linked (some t) v)
    (ha : Around v t s L R) (hq : right ∉ v.segqueue) (hp : right ∉ v.freeSegs) :
    Linked (some t) (splitRight v t right addr size) ∧
      Around (splitRight v t right addr size) t s L (rightPart s addr size ++ R) := by
  obtain ⟨l, r, hsplit, rfl, rfl⟩ := ha.queue
  have hne : right ≠ t := by
    rintro rfl
    exact hq (hsplit ▸ List.mem_append_right _ List.mem_cons_self)
  have htl : t ∉ l := by
    have hnd := List.nodup_middle.mp (hsplit ▸ h.nodup)
    exact fun hmem => (List.nodup_cons.mp hnd).1 (List.mem_append_left _ hmem)
  have hl : right ∉ l := fun hmem => hq (hsplit ▸ List.mem_append_left _ hmem)
  have hr : right ∉ r := fun hmem =>
    hq (hsplit ▸ List.mem_append_right _ (List.mem_cons_of_mem _ hmem))
  unfold splitRight rightPart
  dsimp only
  rw [ha.seg_eq]
  -- the right tag takes what lies behind the request, or goes back to the pool
  by_cases hend : add64 addr size < add64 s.base s.size
  · rw [if_pos hend, if_pos hend]
    have hins : Queue.insertAfter t right (setSeg v right ⟨.kVMemSegFree, add64 addr size,
        sub64 (add64 s.base s.size) (add64 addr size)⟩).segqueue = (l ++ [t]) ++ right :: r := by
      show Queue.insertAfter t right v.segqueue = _
      rw [hsplit, Queue.insertAfter_split htl, List.append_assoc, List.singleton_append]
    rw [hins]
    refine ⟨linked_insertFree h (by rw [hsplit, List.append_assoc, List.singleton_append]) hq hp
      (fun he => hne (Option.some.inj he).symm) rfl, ?_, l, right :: r, ?_, ?_, ?_⟩
    · exact (Function.update_of_ne (Ne.symm hne) _ _).trans ha.seg_eq
    · show (l ++ [t]) ++ right :: r = _
      rw [List.append_assoc, List.singleton_append]
    · exact map_update_of_notMem hl _ _
    · show (right :: r).map (Function.update v.seg right _) = _
      rw [List.map_cons, map_update_of_notMem hr, Function.update_self, List.singleton_append]
  · rw [if_neg hend, if_neg hend, List.nil_append]
    exact ⟨linked_segFree h hq hp, ha.seg_eq, l, r, hsplit, rfl, rfl⟩

/-- **`split_seg`.** A free segment of the queue is replaced by the parts it is split into. -/
theorem splitSeg_spec {s : Seg} {L R : List Seg} (h : Linked none v) (ha : Around v t s L R)
    (hlr : left ≠ right) (hl : left ∉ v.segqueue ∧ left ∉ v.freeSegs)
    (hr : right ∉ v.segqueue ∧ right ∉ v.freeSegs)
    (hs : splitSeg v t left right addr size = some v') :
    Linked none v' ∧ s.type = .kVMemSegFree ∧ view v' = L ++ splitParts s addr size ++ R := by
  unfold splitSeg at hs
  rw [ha.seg_eq] at hs
  by_cases hfree : s.type = .kVMemSegFree
  · rw [if_pos hfree] at hs
    dsimp only at hs
    have hspan := isSpan_of_free hfree
    have ha₁ : Around (listRemove v t) t s L R := ⟨ha.seg_eq, ha.queue⟩
    have h₁ := linked_listRemove h (ha.seg_eq ▸ hspan)
    -- first the part on the left is cut off, then the part on the right
    obtain ⟨h₂, ha₂, hq₂, hp₂⟩ := splitLeft_spec addr h₁ ha₁ hl.1 hl.2
    have hrq : right ∉ (splitLeft (listRemove v t) t left addr).segqueue := fun hmem =>
      (hq₂ right hmem).elim (Ne.symm hlr) hr.1
    have hrp : right ∉ (splitLeft (listRemove v t) t left addr).freeSegs := fun hmem =>
      (hp₂ right hmem).elim (Ne.symm hlr) hr.2
    obtain ⟨h₃, ha₃⟩ := splitRight_spec addr size h₂ ha₂ hrq hrp
    cases hs
    have ht₃ : t ∈ (splitRight (splitLeft (listRemove v t) t left addr) t right addr size).segqueue := by
      obtain ⟨l, r, hq₃, -, -⟩ := ha₃.queue
      exact hq₃ ▸ List.mem_append_right _ List.mem_cons_self
    refine ⟨linked_allocate h₃ ht₃ (by rw [ha₃.seg_eq]; exact hspan) rfl, hfree, ?_⟩
    have hview := (ha₃.setSeg h₃.nodup ⟨.kVMemSegAllocated, addr, size⟩).view_eq
    rw [splitParts, ← List.append_assoc, List.append_assoc, List.cons_append]
    exact hview
  · rw [if_neg hfree] at hs
    cases hs

/-! ## `vmem_xalloc` -/

/-- A free segment of `V` that serves the request at `addr` is replaced by its parts. -/
structure Allocates (size min : ℕ) (flags : Flags) (addr : ℕ) (V V' : List Seg) : Prop where
  split : ∃ L f R, V = L ++ f :: R ∧ f.type = .kVMemSegFree ∧ freelist size ≤ freelist f.size ∧
    fitAddr f size min flags = some addr ∧ V' = L ++ splitParts f addr size ++ R

/-- The search of one list finds a tag of it that fits. -/
theorem searchList_some {seg : Tag → Seg} {q : List Tag}
    (h : searchList seg size min flags q = some (t, addr)) :
    t ∈ q ∧ fitAddr (seg t) size min flags = some addr := by
  induction q with
  | nil => cases h
  | cons a q ih =>
      rw [searchList] at h
      cases hfit : fitAddr (seg a) size min flags with
      | none =>
          rw [hfit] at h
          obtain ⟨hmem, hok⟩ := ih h
          exact ⟨List.mem_cons_of_mem a hmem, hok⟩
      | some b =>
          rw [hfit] at h
          cases h
          exact ⟨List.mem_cons_self, hfit⟩

/-- The search finds a tag on one of the lists it looks at. -/
theorem search_some {is : List ℕ} (h : search v size min flags is = some (t, addr)) :
    ∃ i ∈ is, t ∈ v.freelist i ∧ fitAddr (v.seg t) size min flags = some addr := by
  induction is with
  | nil => cases h
  | cons i is ih =>
      rw [search] at h
      cases hlist : searchList v.seg size min flags (v.freelist i) with
      | none =>
          rw [hlist] at h
          obtain ⟨j, hj, hfound⟩ := ih h
          exact ⟨j, List.mem_cons_of_mem i hj, hfound⟩
      | some found =>
          rw [hlist] at h
          cases h
          exact ⟨i, List.mem_cons_self, searchList_some hlist⟩

/-- `seg_alloc` takes the first unused tag and changes nothing else. -/
theorem segAlloc_eq_some (hs : segAlloc v = some (t, v')) :
    ∃ rest, v.freeSegs = t :: rest ∧ v' = { v with freeSegs := rest } := by
  unfold segAlloc at hs
  split at hs
  · cases hs
  · rename_i rest hpool
    cases hs
    exact ⟨rest, hpool, rfl⟩

/-- The arena after the two tags for the remainders have been taken: its containers agree, and the
tags are different, on no queue and not unused any more. -/
theorem linked_taken {rest : List Tag} (h : Linked x v) (hpool : v.freeSegs = left :: right :: rest) :
    Linked x { v with freeSegs := rest } ∧ left ≠ right ∧ (left ∉ v.segqueue ∧ left ∉ rest) ∧
      (right ∉ v.segqueue ∧ right ∉ rest) := by
  have hnd := hpool ▸ h.pool_nodup
  obtain ⟨hl, hnd⟩ := List.nodup_cons.mp hnd
  obtain ⟨hr, hnd⟩ := List.nodup_cons.mp hnd
  have hq : ∀ u ∈ left :: right :: rest, u ∉ v.segqueue := fun u hu => h.pool_disjoint u (hpool ▸ hu)
  refine ⟨h.withFree v.env hnd ?_, fun heq => hl (heq ▸ List.mem_cons_self), ⟨hq _ List.mem_cons_self, ?_⟩,
    hq _ (List.mem_cons_of_mem _ List.mem_cons_self), hr⟩
  · exact fun u hu => hq u (List.mem_cons_of_mem _ (List.mem_cons_of_mem _ hu))
  · exact fun hmem => hl (List.mem_cons_of_mem _ hmem)

/-- A request that the search serves is allocated from the segment it finds. -/
theorem search_splitSeg_spec {rest : List Tag} (h : Linked none v)
    (hpool : v.freeSegs = left :: right :: rest)
    (hfound : search { v with freeSegs := rest } size min flags (searchIndices size)
      = some (t, addr))
    (hsplit : splitSeg { v with freeSegs := rest } t left right addr size = some v') :
    Linked none v' ∧ Allocates size min flags addr (view v) (view v') := by
  obtain ⟨h₂, hne, hl, hr⟩ := linked_taken h hpool
  obtain ⟨i, hi, hmem, hfit⟩ := search_some hfound
  obtain ⟨-, htq, -, hclass⟩ := (h₂.free_iff i t).mp hmem
  obtain ⟨L, R, ha⟩ := exists_around htq
  obtain ⟨h₃, hfree, hV'⟩ := splitSeg_spec h₂ ha hne hl hr hsplit
  refine ⟨h₃, L, v.seg t, R, ha.view_eq, hfree, ?_, hfit, hV'⟩
  rw [hclass]
  exact (List.mem_range'_1.mp hi).1

/-- What `vmem_xalloc` has done when it returns: two tags were taken, and a segment was split that the search
has found or that `try_import` has added. -/
theorem vmemXalloc_eq_some {src : Option (Source E)} {align phase max : ℕ} {res : Except ℤ ℕ}
    (hs : vmemXalloc src v size align phase min max flags = some (res, v')) :
    (size ≠ 0 ∧ (min = 0 ∨ flags.exact = true)) ∧ ∃ left right rest, v.freeSegs = left :: right :: rest ∧
      ((∃ t addr, search { v with freeSegs := rest } size min flags (searchIndices size) = some (t, addr) ∧
          splitSeg { v with freeSegs := rest } t left right addr size = some v' ∧ res = .ok addr) ∨
        (search { v with freeSegs := rest } size min flags (searchIndices size) = none ∧
          ∃ r v₁, tryImport src { v with freeSegs := rest } size flags = some (r, v₁) ∧
            match r with
            | .error e => res = .error e ∧ v' = v₁
            | .ok t => splitSeg v₁ t left right (v₁.seg t).base size = some v' ∧
                res = .ok (v₁.seg t).base)) := by
  unfold vmemXalloc at hs
  split at hs
  · rename_i hassert
    -- both tags are taken before the search, whatever comes of it
    obtain ⟨⟨left, v₁⟩, hl, hs⟩ := Option.bind_eq_some_iff.mp hs
    obtain ⟨⟨right, v₂⟩, hr, hs⟩ := Option.bind_eq_some_iff.mp hs
    obtain ⟨rest₁, hpool, rfl⟩ := segAlloc_eq_some hl
    obtain ⟨rest, rfl, rfl⟩ := segAlloc_eq_some hr
    refine ⟨⟨hassert.2.2.2.2, hassert.2.2.1⟩, left, right, rest, hpool, ?_⟩
    dsimp only at hs
    -- a segment of the arena, else one that the source delivers
    cases hfound : search { v with freeSegs := rest } size min flags (searchIndices size) with
    | some found =>
        rw [hfound] at hs
        obtain ⟨v₃, hsplit, hs⟩ := Option.bind_eq_some_iff.mp hs
        cases hs
        exact .inl ⟨found.1, found.2, rfl, hsplit, rfl⟩
    | none =>
        rw [hfound] at hs
        obtain ⟨⟨r, v₃⟩, himp, hs⟩ := Option.bind_eq_some_iff.mp hs
        refine .inr ⟨rfl, r, v₃, himp, ?_⟩
        cases r with
        | error r =>
            cases hs
            exact ⟨rfl, rfl⟩
        | ok t =>
            obtain ⟨v₄, hsplit, hs⟩ := Option.bind_eq_some_iff.mp hs
            cases hs
            exact ⟨hsplit, rfl⟩
  · cases hs

/-- **`vmem_xalloc` without a source.** It allocates from a free segment, or reports that resources
are exhausted and leaves the segments alone. -/
theorem vmemXalloc_spec {align phase max : ℕ} {res : Except ℤ ℕ} (h : Linked none v)
    (hs : vmemXalloc none v size align phase min max flags = some (res, v')) :
    Linked none v' ∧ size ≠ 0 ∧ (min = 0 ∨ flags.exact = true) ∧
      match res with
      | .error e => e = -eResourceExhausted ∧ view v' = view v
      | .ok addr => Allocates size min flags addr (view v) (view v') := by
  obtain ⟨⟨hsize, hmin⟩, left, right, rest, hpool, hcases⟩ := vmemXalloc_eq_some hs
  rcases hcases with ⟨t, addr, hfound, hsplit, rfl⟩ | ⟨-, r, v₁, himp, hres⟩
  · obtain ⟨h₃, halloc⟩ := search_splitSeg_spec h hpool hfound hsplit
    exact ⟨h₃, hsize, hmin, halloc⟩
  · obtain ⟨rfl, rfl⟩ := Prod.mk.inj (Option.some.inj himp)
    obtain ⟨rfl, rfl⟩ := hres
    exact ⟨(linked_taken h hpool).1, hsize, hmin, rfl, rfl⟩

/-! ## `vmem_xfree` -/

/-- The allocated segment `g` is released: it is merged with the free segments next to it; with none
next to it, it disappears. -/
inductive Releases (g : Seg) : List Seg → List Seg → Prop
  | both (L : List Seg) (f e : Seg) (R : List Seg) (hf : f.type = .kVMemSegFree)
      (he : e.type = .kVMemSegFree) :
      Releases g (L ++ f :: g :: e :: R)
        (L ++ ⟨.kVMemSegFree, f.base, add64 e.size (add64 f.size g.size)⟩ :: R)
  | left (L : List Seg) (f : Seg) (R : List Seg) (hf : f.type = .kVMemSegFree)
      (hR : ∀ e ∈ R.head?, e.type ≠ .kVMemSegFree) :
      Releases g (L ++ f :: g :: R) (L ++ ⟨.kVMemSegFree, f.base, add64 f.size g.size⟩ :: R)
  | right (L : List Seg) (e : Seg) (R : List Seg) (he : e.type = .kVMemSegFree)
      (hL : ∀ f ∈ L.getLast?, f.type ≠ .kVMemSegFree) :
      Releases g (L ++ g :: e :: R) (L ++ ⟨.kVMemSegFree, g.base, add64 e.size g.size⟩ :: R)
  | lost (L R : List Seg) (hL : ∀ f ∈ L.getLast?, f.type ≠ .kVMemSegFree)
      (hR : ∀ e ∈ R.head?, e.type ≠ .kVMemSegFree) : Releases g (L ++ g :: R) (L ++ R)

/-- The search of a hash bucket finds a tag of it with that base. -/
theorem hashFind_some {seg : Tag → Seg} {q : List Tag} (h : hashFind seg addr q = some t) :
    t ∈ q ∧ (seg t).base = addr := by
  induction q with
  | nil => cases h
  | cons a q ih =>
      rw [hashFind] at h
      by_cases ha : (seg a).base = addr
      · rw [if_pos ha] at h
        cases h
        exact ⟨List.mem_cons_self, ha⟩
      · rw [if_neg ha] at h
        obtain ⟨hmem, hbase⟩ := ih h
        exact ⟨List.mem_cons_of_mem a hmem, hbase⟩

/-- A tag that leaves the queue goes back to the unused ones, and the view closes over it. -/
theorem drop_spec {s : Seg} {L R : List Seg} (h : Linked (some t) v) (ha : Around v t s L R)
    (hspan : s.isSpan = false) :
    Linked none (segFree (queueRemove v t) t) ∧ view (segFree (queueRemove v t) t) = L ++ R := by
  obtain ⟨l, r, hq, rfl, rfl⟩ := ha.queue
  have hnd := List.nodup_cons.mp (List.nodup_middle.mp (hq ▸ h.nodup))
  have htl : t ∉ l := fun hmem => hnd.1 (List.mem_append_left _ hmem)
  refine ⟨linked_segFree (linked_queueRemove h (ha.seg_eq ▸ hspan)) h.nodup.not_mem_erase ?_, ?_⟩
  · exact fun hp => h.pool_disjoint t hp (hq ▸ List.mem_append_right _ List.mem_cons_self)
  · show (v.segqueue.erase t).map v.seg = _
    rw [hq, Queue.erase_split htl, List.map_append]

/-- A tag that leaves the queue does not change what is around another one; here `t` stands directly
after `u`. -/
theorem Around.drop_next {u : Tag} {f : Seg} {L R : List Seg} (hnd : v.segqueue.Nodup)
    (hu : ∃ l r, v.segqueue = l ++ u :: t :: r ∧ l.map v.seg = L ∧ r.map v.seg = R)
    (hf : v.seg u = f) : Around (segFree (queueRemove v t) t) u f L R := by
  obtain ⟨l, r, hq, hL, hR⟩ := hu
  refine ⟨hf, l, r, ?_, hL, hR⟩
  have hsplit : v.segqueue = (l ++ [u]) ++ t :: r := by
    rw [hq, List.append_assoc, List.singleton_append]
  have htl : t ∉ l ++ [u] := fun hmem =>
    (List.nodup_cons.mp (List.nodup_middle.mp (hsplit ▸ hnd))).1 (List.mem_append_left _ hmem)
  show v.segqueue.erase t = _
  rw [hsplit, Queue.erase_split htl, List.append_assoc, List.singleton_append]

/-- The same, where `t` stands directly before `u`. -/
theorem Around.drop_prev {u : Tag} {e : Seg} {L R : List Seg} (hnd : v.segqueue.Nodup)
    (hu : ∃ l r, v.segqueue = l ++ t :: u :: r ∧ l.map v.seg = L ∧ r.map v.seg = R)
    (he : v.seg u = e) : Around (segFree (queueRemove v t) t) u e L R ∧
      Queue.prevOf u (segFree (queueRemove v t) t).segqueue = Queue.prevOf t v.segqueue := by
  obtain ⟨l, r, hq, hL, hR⟩ := hu
  have htnot := (List.nodup_cons.mp (List.nodup_middle.mp (hq ▸ hnd))).1
  have htl : t ∉ l := fun hmem => htnot (List.mem_append_left _ hmem)
  have htr : t ∉ u :: r := fun hmem => htnot (List.mem_append_right _ hmem)
  have hq' : (segFree (queueRemove v t) t).segqueue = l ++ u :: r := by
    show v.segqueue.erase t = _
    rw [hq, Queue.erase_split htl]
  have hnd' : (l ++ u :: r).Nodup := hq' ▸ hnd.erase t
  have hunot := (List.nodup_cons.mp (List.nodup_middle.mp hnd')).1
  refine ⟨⟨he, l, r, hq', hL, hR⟩, ?_⟩
  rw [hq', hq, Queue.prevOf_split htl htr,
    Queue.prevOf_split (fun hmem => hunot (List.mem_append_left _ hmem))
      (fun hmem => hunot (List.mem_append_right _ hmem))]

/-- Coalescing to the left: the free segment before `t` takes its range over, or nothing happens. -/
theorem coalesceLeft_spec {u : Tag} {c : Bool} {g : Seg} {L R : List Seg} (h : Linked (some t) v)
    (ha : Around v t g L R) (hspan : g.isSpan = false) (hs : coalesceLeft v t = some (u, c, v')) :
    (c = true ∧ Linked none v' ∧ ∃ L' f, L = L' ++ [f] ∧ f.type = .kVMemSegFree ∧
      Around v' u ⟨.kVMemSegFree, f.base, add64 f.size g.size⟩ L' R) ∨
    (c = false ∧ u = t ∧ v' = v ∧ ∀ f ∈ L.getLast?, f.type ≠ .kVMemSegFree) := by
  obtain ⟨l, r, hq, rfl, rfl⟩ := ha.queue
  have hnd := List.nodup_cons.mp (List.nodup_middle.mp (hq ▸ h.nodup))
  have htl : t ∉ l := fun hmem => hnd.1 (List.mem_append_left _ hmem)
  have htr : t ∉ r := fun hmem => hnd.1 (List.mem_append_right _ hmem)
  unfold coalesceLeft at hs
  rw [hq, Queue.prevOf_split htl htr] at hs
  obtain ⟨left, hlast, hs'⟩ := Option.bind_eq_some_iff.mp hs
  clear hs
  obtain ⟨l', rfl⟩ := List.getLast?_eq_some_iff.mp hlast
  have hq' : v.segqueue = l' ++ left :: t :: r := by
    rw [hq, List.append_assoc, List.singleton_append]
  by_cases hfree : (v.seg left).type = .kVMemSegFree
  · rw [if_pos hfree] at hs'
    cases hs'
    left
    have hne : t ≠ u := fun heq => htl (heq ▸ List.mem_append_right _ List.mem_cons_self)
    have hu : u ∈ v.segqueue := hq' ▸ List.mem_append_right _ List.mem_cons_self
    have hnot := (List.nodup_cons.mp (List.nodup_middle.mp (hq' ▸ h.nodup))).1
    have hul : u ∉ l' := fun hmem => hnot (List.mem_append_left _ hmem)
    have hur : u ∉ r := fun hmem =>
      hnot (List.mem_append_right _ (List.mem_cons_of_mem _ hmem))
    -- the left neighbour grows, then `t` is dropped
    have h₁ := linked_freesegExpand (b := (v.seg u).base)
      (n := add64 (v.seg u).size (v.seg t).size) h hu hfree (fun heq => hne (Option.some.inj heq))
    have ha₁ : Around (freesegExpand v u (v.seg u).base (add64 (v.seg u).size (v.seg t).size)) t g
        ((l' ++ [u]).map (freesegExpand v u (v.seg u).base
          (add64 (v.seg u).size (v.seg t).size)).seg) (r.map v.seg) := by
      refine ⟨?_, l' ++ [u], r, ?_, rfl, ?_⟩
      · rw [freesegExpand_seg, Function.update_of_ne hne, ha.seg_eq]
      · rw [freesegExpand_segqueue, hq]
      · rw [freesegExpand_seg, map_update_of_notMem hur]
    refine ⟨rfl, (drop_spec h₁ ha₁ hspan).1, l'.map v.seg, v.seg u, ?_, hfree, ?_⟩
    · rw [List.map_append, List.map_singleton]
    · refine Around.drop_next h₁.nodup ⟨l', r, ?_, ?_, ?_⟩ ?_
      · rw [freesegExpand_segqueue, hq']
      · rw [freesegExpand_seg, map_update_of_notMem hul]
      · rw [freesegExpand_seg, map_update_of_notMem hur]
      · rw [freesegExpand_seg, Function.update_self, ha.seg_eq, ← hfree]
  · rw [if_neg hfree] at hs'
    cases hs'
    right
    refine ⟨rfl, rfl, rfl, fun f hf => ?_⟩
    rw [List.map_append, List.map_singleton, List.getLast?_concat] at hf
    exact Option.some.inj hf ▸ hfree

/-- Coalescing to the right: the free segment after `t` takes its range over, or nothing happens.
The tag `t` is on no list, unless it is a free segment that has just been coalesced itself. -/
theorem coalesceRight_spec {c : Bool} {s : Seg} {L R : List Seg}
    (h : Linked (if c then none else some t) v) (ha : Around v t s L R) (hspan : s.isSpan = false) :
    (∃ e R', R = e :: R' ∧ e.type = .kVMemSegFree ∧ ∃ u v', coalesceRight v t c = (u, true, v') ∧
      Linked none v' ∧ Around v' u ⟨.kVMemSegFree, s.base, add64 e.size s.size⟩ L R' ∧
      Queue.prevOf u v'.segqueue = Queue.prevOf t v.segqueue) ∨
    (coalesceRight v t c = (t, c, v) ∧ ∀ e ∈ R.head?, e.type ≠ .kVMemSegFree) := by
  obtain ⟨l, r, hq, rfl, rfl⟩ := ha.queue
  have hnd := List.nodup_cons.mp (List.nodup_middle.mp (hq ▸ h.nodup))
  have htl : t ∉ l := fun hmem => hnd.1 (List.mem_append_left _ hmem)
  unfold coalesceRight
  rw [hq, Queue.nextOf_split htl]
  cases r with
  | nil => exact .inr ⟨rfl, fun e he => by cases he⟩
  | cons u r =>
      dsimp only [List.head?_cons]
      by_cases hfree : (v.seg u).type = .kVMemSegFree
      · left
        rw [if_pos hfree]
        have hne : t ≠ u := fun heq => hnd.1 (heq ▸ List.mem_append_right _ List.mem_cons_self)
        have hq' : v.segqueue = (l ++ [t]) ++ u :: r := by
          rw [hq, List.append_assoc, List.singleton_append]
        have hu : u ∈ v.segqueue := hq' ▸ List.mem_append_right _ List.mem_cons_self
        have hnot := (List.nodup_cons.mp (List.nodup_middle.mp (hq' ▸ h.nodup))).1
        have hul : u ∉ l := fun hmem => hnot (List.mem_append_left _ (List.mem_append_left _ hmem))
        have hur : u ∉ r := fun hmem => hnot (List.mem_append_right _ hmem)
        refine ⟨v.seg u, r.map v.seg, rfl, hfree, u, _, rfl, ?_⟩
        have hx : (if c then none else some t) ≠ some u := by
          cases c
          · exact fun heq => hne (Option.some.inj heq)
          · exact fun heq => by cases heq
        have h₁ := linked_freesegExpand (b := (v.seg t).base)
          (n := add64 (v.seg u).size (v.seg t).size) h hu hfree hx
        generalize hv₁ : freesegExpand v u (v.seg t).base (add64 (v.seg u).size (v.seg t).size) = v₁
          at h₁
        have hseg₁ : v₁.seg = Function.update v.seg u
            ⟨.kVMemSegFree, s.base, add64 (v.seg u).size s.size⟩ := by
          rw [← hv₁, freesegExpand_seg, ha.seg_eq, ← hfree]
        have ha₁ : Around v₁ t s (l.map v.seg)
            (⟨.kVMemSegFree, s.base, add64 (v.seg u).size s.size⟩ :: r.map v.seg) := by
          refine ⟨?_, l, u :: r, ?_, ?_, ?_⟩
          · rw [hseg₁, Function.update_of_ne hne, ha.seg_eq]
          · rw [← hv₁, freesegExpand_segqueue, hq]
          · rw [hseg₁, map_update_of_notMem hul]
          · rw [hseg₁, List.map_cons, Function.update_self, map_update_of_notMem hur]
        have hqueue : v₁.segqueue = v.segqueue := by rw [← hv₁, freesegExpand_segqueue]
        -- dropping the tag in front of the right neighbour leaves that one in its place
        have hnext : ∀ v₂ : Arena E, v₂.segqueue = v₁.segqueue → v₂.seg = v₁.seg →
            Around (segFree (queueRemove v₂ t) t) u
              ⟨.kVMemSegFree, s.base, add64 (v.seg u).size s.size⟩ (l.map v.seg) (r.map v.seg) ∧
            Queue.prevOf u (segFree (queueRemove v₂ t) t).segqueue
              = Queue.prevOf t (l ++ t :: u :: r) := by
          intro v₂ hq₂ hseg₂
          have hq₂' : v₂.segqueue = l ++ t :: u :: r := by rw [hq₂, hqueue, hq]
          rw [← hq₂']
          refine Around.drop_prev ?_ ⟨l, r, hq₂', ?_, ?_⟩ ?_
          · rw [hq₂]
            exact h₁.nodup
          · rw [hseg₂, hseg₁, map_update_of_notMem hul]
          · rw [hseg₂, hseg₁, map_update_of_notMem hur]
          · rw [hseg₂, hseg₁, Function.update_self]
        cases c with
        | false => exact ⟨(drop_spec h₁ ha₁ hspan).1, hnext v₁ rfl rfl⟩
        | true =>
            -- the coalesced segment is on a free list, which it leaves as well
            have h₂ : Linked (some t) (listRemove v₁ t) :=
              linked_listRemove h₁ (ha₁.seg_eq ▸ hspan)
            exact ⟨(drop_spec h₂ (v := listRemove v₁ t) ⟨ha₁.seg_eq, ha₁.queue⟩ hspan).1,
              hnext (listRemove v₁ t) rfl rfl⟩
      · right
        rw [if_neg hfree]
        exact ⟨rfl, fun e he => Option.some.inj he ▸ hfree⟩

/-- **Coalescing.** An allocated segment that has left its hash bucket is merged with the free
segments next to it, and is then on a free list, or it stays as it is and is on no list; `w` is the
tag before it. -/
theorem coalesce_spec {u w : Tag} {c : Bool} (h : Linked none v) (ht : t ∈ v.segqueue)
    (halloc : (v.seg t).type = .kVMemSegAllocated)
    (hleft : coalesceLeft (listRemove v t) t = some (u, c, v'))
    (hprev : Queue.prevOf u v'.segqueue = some w) :
    ∃ u' d v₂ f L R, coalesceRight v' u c = (u', d, v₂) ∧ Around v₂ u' f L R ∧
      f.isSpan = false ∧ Queue.prevOf u' v₂.segqueue = some w ∧
      ((d = true ∧ Linked none v₂ ∧ f.type = .kVMemSegFree ∧
          Releases (v.seg t) (view v) (L ++ f :: R)) ∨
        (d = false ∧ Linked (some u') v₂ ∧ f = v.seg t ∧ view v = L ++ f :: R ∧
          (∀ f ∈ L.getLast?, f.type ≠ .kVMemSegFree) ∧
          ∀ e ∈ R.head?, e.type ≠ .kVMemSegFree)) := by
  have hspan := isSpan_of_allocated halloc
  obtain ⟨L, R, ha⟩ := exists_around ht
  have hview := ha.view_eq
  have h₀ := linked_listRemove h hspan
  have ha₀ : Around (listRemove v t) t (v.seg t) L R := ⟨ha.seg_eq, ha.queue⟩
  -- a free segment on the left swallows this one and becomes the current one
  rcases coalesceLeft_spec h₀ ha₀ hspan hleft with
    ⟨rfl, h₁, L', f, rfl, hf, ha₁⟩ | ⟨rfl, rfl, rfl, hL⟩
  · have hassoc : ∀ X, (L' ++ [f]) ++ v.seg t :: X = L' ++ f :: v.seg t :: X := fun X => by
      rw [List.append_assoc, List.singleton_append]
    rw [hassoc] at hview
    rw [hview]
    -- what `coalesceLeft` left is free: the one on the right may join it
    rcases coalesceRight_spec (c := true) h₁ ha₁ rfl with
      ⟨e, R', rfl, he, u', v₂, heq, h₂, ha₂, hprev₂⟩ | ⟨heq, hR⟩
    · exact ⟨u', true, v₂, _, L', R', heq, ha₂, rfl, hprev₂.trans hprev,
        .inl ⟨rfl, h₂, rfl, .both L' f e R' hf he⟩⟩
    · exact ⟨u, true, v', _, L', R, heq, ha₁, rfl, hprev,
        .inl ⟨rfl, h₁, rfl, .left L' f R hf hR⟩⟩
  · rw [hview]
    rcases coalesceRight_spec (c := false) h₀ ha₀ hspan with
      ⟨e, R', rfl, he, u', v₂, heq, h₂, ha₂, hprev₂⟩ | ⟨heq, hR⟩
    · exact ⟨u', true, v₂, _, L, R', heq, ha₂, rfl, hprev₂.trans hprev,
        .inl ⟨rfl, h₂, rfl, .right L e R' he hL⟩⟩
    -- no neighbour is free: the segment itself is what remains, still of type Allocated
    · exact ⟨u, false, listRemove v u, _, L, R, heq, ha₀, hspan, hprev,
        .inr ⟨rfl, h₀, rfl, rfl, hL, hR⟩⟩

/-- Without a source there are no imported spans to release. -/
theorem releaseSpan_none {u w : Tag} {c d : Bool}
    (h : releaseSpan none v u w c = some (d, v')) : d = c ∧ v' = v := by
  unfold releaseSpan at h
  split at h
  · split at h
    · cases h
    · cases h
  · cases h
    exact ⟨rfl, rfl⟩

/-- What `vmem_xfree` has done when it returns. -/
theorem vmemXfree_eq_some {src : Option (Source E)} {n : ℤ} (hs : vmemXfree src v addr = some (n, v')) :
    ∃ t u c v₁ w d v₃, hashFind v.seg addr (v.hashtab (hashbucket addr)) = some t ∧
      n = Int.bmod (v.seg t).size (2 ^ 32) ∧ coalesceLeft (listRemove v t) t = some (u, c, v₁) ∧
      Queue.prevOf u v₁.segqueue = some w ∧
      releaseSpan src (coalesceRight v₁ u c).2.2 (coalesceRight v₁ u c).1 w (coalesceRight v₁ u c).2.1
        = some (d, v₃) ∧
      v' = if d then v₃ else
        segFree (queueRemove v₃ (coalesceRight v₁ u c).1) (coalesceRight v₁ u c).1 := by
  unfold vmemXfree at hs
  obtain ⟨t, hfind, hs⟩ := Option.bind_eq_some_iff.mp hs
  dsimp only at hs
  obtain ⟨⟨u, c, v₁⟩, hleft, hs⟩ := Option.bind_eq_some_iff.mp hs
  obtain ⟨w, hprev, hs⟩ := Option.bind_eq_some_iff.mp hs
  dsimp only at hs hprev
  obtain ⟨⟨d, v₃⟩, hrel, hs⟩ := Option.bind_eq_some_iff.mp hs
  obtain ⟨rfl, rfl⟩ := Prod.mk.inj (Option.some.inj hs)
  exact ⟨t, u, c, v₁, w, d, v₃, hfind, rfl, hleft, hprev, hrel, rfl⟩

/-- **`vmem_xfree` without a source.** It releases the allocated segment at the address. -/
theorem vmemXfree_spec {n : ℤ} (h : Linked none v) (hs : vmemXfree none v addr = some (n, v')) :
    Linked none v' ∧ ∃ g, g.type = .kVMemSegAllocated ∧ g.base = addr ∧
      n = Int.bmod g.size (2 ^ 32) ∧ Releases g (view v) (view v') := by
  obtain ⟨t, u, c, v₁, w, d', v₃, hfind, hn, hleft, hprev, hrel, hv'⟩ := vmemXfree_eq_some hs
  subst hv'
  obtain ⟨hbucket, hbase⟩ := hashFind_some hfind
  obtain ⟨-, htq, halloc, -⟩ := (h.hash_iff _ t).mp hbucket
  obtain ⟨rfl, rfl⟩ := releaseSpan_none hrel
  obtain ⟨u', d, v₂, f, L, R, heq, ha, hspan, -, hcases⟩ := coalesce_spec h htq halloc hleft hprev
  rw [heq]
  rcases hcases with ⟨rfl, h₂, -, hrel⟩ | ⟨rfl, h₂, rfl, hV, hL, hR⟩
  · exact ⟨h₂, v.seg t, halloc, hbase, hn, ha.view_eq ▸ hrel⟩
  · obtain ⟨hlink, hview⟩ := drop_spec h₂ ha hspan
    refine ⟨hlink, v.seg t, halloc, hbase, hn, ?_⟩
    show Releases _ _ (view (segFree (queueRemove v₂ u') u'))
    rw [hview, hV]
    exact .lost L R hL hR

/-- The search of a hash bucket finds a segment of it at the address. -/
theorem hashFind_isSome {seg : Tag → Seg} {q : List Tag} (ht : t ∈ q) (hbase : (seg t).base = addr) :
    ∃ u, hashFind seg addr q = some u := by
  induction q with
  | nil => cases ht
  | cons a q ih =>
      rw [hashFind]
      by_cases ha : (seg a).base = addr
      · exact ⟨a, if_pos ha⟩
      · rw [if_neg ha]
        refine ih ((List.mem_cons.mp ht).resolve_left ?_)
        rintro rfl
        exact ha hbase

/-- A tag with something before it has a predecessor on the queue. -/
theorem Around.prevOf {s : Seg} {L R : List Seg} (ha : Around v t s L R) (hnd : v.segqueue.Nodup)
    (hL : L ≠ []) : ∃ u ∈ v.segqueue, Queue.prevOf t v.segqueue = some u := by
  obtain ⟨l, r, hq, rfl, rfl⟩ := ha.queue
  have hnot := (List.nodup_cons.mp (List.nodup_middle.mp (hq ▸ hnd))).1
  have hl : l ≠ [] := fun heq => hL (by rw [heq, List.map_nil])
  refine ⟨l.getLast hl, hq ▸ List.mem_append_left _ (List.getLast_mem hl), ?_⟩
  rw [hq, Queue.prevOf_split (fun hmem => hnot (List.mem_append_left _ hmem))
    (fun hmem => hnot (List.mem_append_right _ hmem)), List.getLast?_eq_some_getLast hl]

/-- `freeseg_expand` changes the type of no segment. -/
theorem freesegExpand_type (v : Arena E) (t u : Tag) (b n : ℕ) :
    ((freesegExpand v t b n).seg u).type = (v.seg u).type := by
  rw [freesegExpand_seg]
  by_cases hu : u = t
  · rw [hu, Function.update_self]
  · rw [Function.update_of_ne hu]

/-- Coalescing to the right changes the type of no segment. -/
theorem coalesceRight_type (v : Arena E) (t u : Tag) (c : Bool) :
    ((coalesceRight v t c).2.2.seg u).type = (v.seg u).type := by
  unfold coalesceRight
  split
  · rfl
  · split
    · cases c <;> exact freesegExpand_type ..
    · rfl

/-- Coalescing to the left succeeds on a segment with something before it; it changes the type of no
segment and adds nothing to the queue. -/
theorem coalesceLeft_isSome {g : Seg} {L R : List Seg} (ha : Around v t g L R)
    (hnd : v.segqueue.Nodup) (hL : L ≠ []) : ∃ u c v', coalesceLeft v t = some (u, c, v') ∧
      (∀ w, (v'.seg w).type = (v.seg w).type) ∧ ∀ w ∈ v'.segqueue, w ∈ v.segqueue := by
  obtain ⟨left, -, hprev⟩ := ha.prevOf hnd hL
  unfold coalesceLeft
  rw [hprev]
  by_cases hfree : (v.seg left).type = .kVMemSegFree
  · refine ⟨left, true, _, if_pos hfree, fun w => freesegExpand_type .., fun w hw => ?_⟩
    have hmem : w ∈ (freesegExpand v left (v.seg left).base
        (add64 (v.seg left).size (v.seg t).size)).segqueue := List.mem_of_mem_erase hw
    rwa [freesegExpand_segqueue] at hmem
  · exact ⟨t, false, v, if_neg hfree, fun w => rfl, fun w hw => hw⟩

/-- Whichever segment stands for a range after coalescing to the left, the span marker is still before
it. -/
theorem coalesceLeft_prev (h : Linked none v) (hhead : ∀ s ∈ (view v).head?, s.isSpan = true)
    (ht : t ∈ v.segqueue) (halloc : (v.seg t).type = .kVMemSegAllocated) :
    ∃ u c w v', coalesceLeft (listRemove v t) t = some (u, c, v') ∧
      Queue.prevOf u v'.segqueue = some w ∧ (v'.seg w).type = (v.seg w).type ∧ w ∈ v.segqueue := by
  have hspan := isSpan_of_allocated halloc
  obtain ⟨L, R, ha⟩ := exists_around ht
  have h₀ := linked_listRemove h hspan
  have ha₀ : Around (listRemove v t) t (v.seg t) L R := ⟨ha.seg_eq, ha.queue⟩
  have hview := ha.view_eq
  -- the first segment of an arena is a span, so something lies before `t`
  have hL : L ≠ [] := by
    rintro rfl
    have := hhead (v.seg t) (by rw [hview]; rfl)
    rw [hspan] at this
    cases this
  obtain ⟨u, c, v₁, hleft, htype, hqueue⟩ := coalesceLeft_isSome ha₀ h₀.nodup hL
  have hprev : ∃ w ∈ v₁.segqueue, Queue.prevOf u v₁.segqueue = some w := by
    rcases coalesceLeft_spec h₀ ha₀ hspan hleft with
      ⟨-, h₁, L', f, rfl, hf, ha₁⟩ | ⟨-, rfl, rfl, -⟩
    · refine ha₁.prevOf h₁.nodup ?_
      rintro rfl
      have := hhead f (by rw [hview]; rfl)
      rw [isSpan_of_free hf] at this
      cases this
    · exact ha₀.prevOf h₀.nodup hL
  obtain ⟨w, hw, hprev⟩ := hprev
  exact ⟨u, c, w, v₁, hleft, hprev, htype w, hqueue w hw⟩

/-- **`vmem_xfree` of an allocated segment returns.** The hash bucket holds the segment, and a span
marker stands somewhere before it, so no link it follows is null. -/
theorem vmemXfree_isSome (h : Linked none v) (hhead : ∀ s ∈ (view v).head?, s.isSpan = true)
    (hown : ∀ s ∈ view v, s.type ≠ .kVMemSegSpanImported) {g : Seg} (hg : g ∈ view v)
    (halloc : g.type = .kVMemSegAllocated) (hbase : g.base = addr) :
    ∃ n v', vmemXfree none v addr = some (n, v') := by
  obtain ⟨t₀, ht₀, rfl⟩ := List.mem_map.mp hg
  obtain ⟨t, hfind⟩ := hashFind_isSome
    ((h.hash_iff (hashbucket addr) t₀).mpr ⟨by simp, ht₀, halloc, by rw [hbase]⟩) hbase
  obtain ⟨-, htq, htalloc, -⟩ := (h.hash_iff _ t).mp (hashFind_some hfind).1
  obtain ⟨u, c, w, v₁, hleft, hprev, htype, hw⟩ := coalesceLeft_prev h hhead htq htalloc
  have hnot : ((coalesceRight v₁ u c).2.2.seg w).type ≠ .kVMemSegSpanImported := by
    rw [coalesceRight_type, htype]
    exact hown _ (List.mem_map_of_mem hw)
  have hrel : ∀ s d, releaseSpan none (coalesceRight v₁ u c).2.2 s w d
      = some (d, (coalesceRight v₁ u c).2.2) := fun s d => if_neg fun himp => hnot himp.1
  have hsome : (vmemXfree none v addr).isSome = true := by
    unfold vmemXfree
    simp only [hfind, hleft, hprev, hrel, Option.bind_eq_bind, Option.bind_some]
    rfl
  obtain ⟨⟨n, v'⟩, heq⟩ := Option.isSome_iff_exists.mp hsome
  exact ⟨n, v', heq⟩

/-! ## `vmem_add` -/

/-- The last span before `base` is where the spans below `base` end. -/
theorem lastSpanBefore_eq (seg : Tag → Seg) (base : ℕ) (acc : Option Tag) (q : List Tag) :
    ∃ l r, q = l ++ r ∧ (∀ u ∈ l, (seg u).base < base) ∧ (∀ u ∈ r.head?, base ≤ (seg u).base) ∧
      lastSpanBefore seg base acc q = l.getLast?.or acc := by
  induction q generalizing acc with
  | nil => exact ⟨[], [], rfl, fun u hu => (by cases hu), fun u hu => (by cases hu), rfl⟩
  | cons a q ih =>
      -- the walk stops at the first span that lies at or above `base`
      by_cases ha : base ≤ (seg a).base
      · refine ⟨[], a :: q, rfl, fun u hu => (by cases hu), ?_, ?_⟩
        · intro u hu
          exact Option.some.inj hu ▸ ha
        · rw [lastSpanBefore, if_pos ha]
          rfl
      · obtain ⟨l, r, rfl, hl, hr, hlast⟩ := ih (some a)
        refine ⟨a :: l, r, rfl, ?_, hr, ?_⟩
        · intro u hu
          rcases List.mem_cons.mp hu with rfl | hu
          · exact not_le.mp ha
          · exact hl u hu
        · rw [lastSpanBefore, if_neg ha, hlast]
          cases l with
          | nil => rfl
          | cons b l => rw [List.getLast?_cons_cons, List.getLast?_cons]; rfl

/-- The span marker `n` enters the queue between `l` and `r`, and the span list with it. -/
theorem linked_insertSpan {n : Tag} {s : Seg} (h : Linked none v) (hq : v.segqueue = l ++ r)
    (hn : n ∉ v.segqueue) (hp : n ∉ v.freeSegs) (hs : s.isSpan = true) :
    Linked none { setSeg v n s with
      segqueue := l ++ n :: r
      spanlist := (l.filter fun u => (v.seg u).isSpan) ++ n :: r.filter fun u => (v.seg u).isSpan } := by
  have hmem := mem_inserted (n := n) hq
  have hself : Function.update v.seg n s n = s := Function.update_self ..
  -- a span marker is on no freelist and in no bucket, so these keep their members
  have htype : s.type ≠ .kVMemSegFree ∧ s.type ≠ .kVMemSegAllocated := by
    refine ⟨fun ht => ?_, fun ht => ?_⟩ <;> rw [Seg.isSpan, ht] at hs <;> cases hs
  constructor
  case nodup => exact h.nodup_inserted hq hn
  case pool_nodup => exact h.pool_nodup
  case pool_disjoint => exact h.disjoint_inserted hq hp
  case free_iff =>
    intro i u
    have := h.free_iff i u
    have := hmem u
    simp only [setSeg]
    grind
  case hash_iff =>
    intro i u
    have := hmem u
    have := h.hash_iff i u
    simp only [setSeg]
    generalize hashbucket = f at this ⊢
    grind
  case free_nodup => exact h.free_nodup
  case hash_nodup => exact h.hash_nodup
  case spans_eq =>
    have hnl := not_mem_parts hq hn
    simp only [setSeg]
    rw [List.filter_append, List.filter_cons_of_pos (by rw [hself, hs]),
      filter_isSpan_update hnl.1, filter_isSpan_update hnl.2]

/-- Where `vmem_add_internal` puts a new span marker: directly before the first span that does not
begin below `base`. -/
theorem spanInsert_spec {n : Tag} {b : ℕ} (h : Linked none v)
    (hhead : ∀ s ∈ (view v).head?, s.isSpan = true) :
    ∃ l r, v.segqueue = l ++ r ∧
      (∀ u ∈ l, (v.seg u).isSpan = true → (v.seg u).base < b) ∧
      (∀ u ∈ r.head?, (v.seg u).isSpan = true ∧ b ≤ (v.seg u).base) ∧
      spanInsert v n (lastSpanBefore v.seg b none v.spanlist)
        = { v with
            segqueue := l ++ n :: r
            spanlist := (l.filter fun u => (v.seg u).isSpan)
              ++ n :: r.filter fun u => (v.seg u).isSpan } := by
  obtain ⟨sl, sr, hspans, hsl, hsr, hlast⟩ := lastSpanBefore_eq v.seg b none v.spanlist
  have heq := h.spans_eq
  rw [hlast, Option.or_none]
  rcases List.eq_nil_or_concat' sl with rfl | ⟨sl', a, rfl⟩
  · -- no span begins below `b`: the marker goes to the head
    refine ⟨[], v.segqueue, rfl, fun u hu => (by cases hu), ?_, ?_⟩
    · intro u hu
      have huspan : (v.seg u).isSpan = true := by
        refine hhead (v.seg u) ?_
        rw [view, List.head?_map]
        exact Option.map_eq_some_iff.mpr ⟨u, hu, rfl⟩
      refine ⟨huspan, hsr u ?_⟩
      obtain ⟨q, hq⟩ := List.head?_eq_some_iff.mp hu
      rw [← List.nil_append sr, ← hspans, heq, hq,
        List.filter_cons_of_pos (p := fun u => (v.seg u).isSpan) huspan]
      rfl
    · show { v with spanlist := n :: v.spanlist, segqueue := n :: v.segqueue } = _
      rw [heq]
      rfl
  · -- after the span `a`, before the next one
    have hsplit : v.spanlist = sl' ++ a :: sr := by
      rw [hspans, List.append_assoc, List.singleton_append]
    have hnd : v.spanlist.Nodup := heq ▸ h.nodup.filter _
    have hasl : a ∉ sl' := fun hmem =>
      (List.nodup_cons.mp (List.nodup_middle.mp (hsplit ▸ hnd))).1 (List.mem_append_left _ hmem)
    -- the spans of any prefix that ends at `a` begin below `b`
    have hbelow : ∀ q : List Tag, (q.filter fun u => (v.seg u).isSpan) = sl' ++ [a] →
        ∀ u ∈ q, (v.seg u).isSpan = true → (v.seg u).base < b := fun q hq u hu hspan =>
      hsl u (hq ▸ List.mem_filter.mpr ⟨hu, hspan⟩)
    rw [List.getLast?_concat, spanInsert, hsplit, Queue.insertAfter_split hasl,
      Queue.nextOf_split hasl]
    cases sr with
    -- `a` is the last span: the marker goes to the end of the queue
    | nil =>
        have hall : (v.segqueue.filter fun u => (v.seg u).isSpan) = sl' ++ [a] := by
          rw [← heq, hsplit]
        refine ⟨v.segqueue, [], (List.append_nil _).symm, hbelow _ hall,
          fun u hu => (by cases hu), ?_⟩
        rw [hall, List.append_assoc]
        rfl
    -- the marker goes in front of the next span `c`, and the segments of `a` stay before it
    | cons c sr =>
        rw [heq] at hspans
        obtain ⟨q₁, q₂, hq, hq₁, hq₂⟩ := List.filter_eq_append_iff.mp hspans
        obtain ⟨m, q₃, rfl, hm, hb, hq₃⟩ := List.filter_eq_cons_iff.mp hq₂
        have hm' : (m.filter fun u => (v.seg u).isSpan) = [] :=
          List.filter_eq_nil_iff.mpr hm
        have hq' : v.segqueue = (q₁ ++ m) ++ c :: q₃ := by rw [hq, List.append_assoc]
        have hbl : c ∉ q₁ ++ m := fun hmem =>
          (List.nodup_cons.mp (List.nodup_middle.mp (hq' ▸ h.nodup))).1
            (List.mem_append_left _ hmem)
        have hfilter : ((q₁ ++ m).filter fun u => (v.seg u).isSpan) = sl' ++ [a] := by
          rw [List.filter_append, hq₁, hm', List.append_nil]
        refine ⟨q₁ ++ m, c :: q₃, hq', hbelow _ hfilter, ?_, ?_⟩
        · intro u hu
          obtain rfl := Option.some.inj hu
          exact ⟨hb, hsr _ rfl⟩
        · rw [hfilter, List.filter_cons_of_pos (p := fun u => (v.seg u).isSpan) hb, hq₃]
          dsimp only [List.head?_cons]
          rw [hq', Queue.insertBefore_split hbl, List.append_assoc sl', List.singleton_append]

/-- A new span and a free segment that fills it appear before the first span that does not begin
below `base`. -/
structure Adds (base size : ℕ) (V V' : List Seg) : Prop where
  split : ∃ A B, V = A ++ B ∧ (∀ s ∈ A, s.isSpan = true → s.base < base) ∧
    (∀ s ∈ B.head?, s.isSpan = true ∧ base ≤ s.base) ∧
    V' = A ++ ⟨.kVMemSegSpan, base, size⟩ :: ⟨.kVMemSegFree, base, size⟩ :: B

/-- What `vmem_add_internal` has done when it returns: assigning the tags and inserting the marker do not
interfere. -/
theorem vmemAddInternal_eq_some {type : SegType} {base : ℕ}
    (hs : vmemAddInternal v type base size = some (t, v')) :
    ∃ n pool, v.freeSegs = n :: t :: pool ∧ v' = freelistInsert { setSeg (setSeg (spanInsert
        { v with freeSegs := pool } n (lastSpanBefore v.seg base none v.spanlist)) n ⟨type, base, size⟩) t
        ⟨.kVMemSegFree, base, size⟩ with
          segqueue := Queue.insertAfter n t (spanInsert { v with freeSegs := pool } n
            (lastSpanBefore v.seg base none v.spanlist)).segqueue } t := by
  unfold vmemAddInternal segAlloc at hs
  cases hpool : v.freeSegs with
  | nil => rw [hpool] at hs; cases hs
  | cons n pool =>
      rw [hpool] at hs
      cases pool with
      | nil => cases hs
      | cons f pool =>
          generalize lastSpanBefore v.seg base none v.spanlist = a at hs ⊢
          obtain ⟨rfl, hv⟩ := Prod.mk.inj (Option.some.inj hs)
          refine ⟨n, pool, rfl, ?_⟩
          cases a <;> exact hv.symm

/-- **`vmem_add_internal`.** A marker of the given type and a free segment that fills the span enter
the queue before the first span that does not begin below `base`; the tag handed back is the free
segment's. -/
theorem vmemAddInternal_spec {type : SegType} {base : ℕ} (h : Linked none v)
    (hhead : ∀ s ∈ (view v).head?, s.isSpan = true)
    (htype : (⟨type, base, size⟩ : Seg).isSpan = true)
    (hs : vmemAddInternal v type base size = some (t, v')) :
    Linked none v' ∧ v'.env = v.env ∧
      (∃ n, v.freeSegs = n :: t :: v'.freeSegs ∧ v'.segqueue.Perm (n :: t :: v.segqueue)) ∧
      ∃ A B, view v = A ++ B ∧ (∀ s ∈ A, s.isSpan = true → s.base < base) ∧
        (∀ s ∈ B.head?, s.isSpan = true ∧ base ≤ s.base) ∧
        Around v' t ⟨.kVMemSegFree, base, size⟩ (A ++ [⟨type, base, size⟩]) B := by
  obtain ⟨n, pool, hpool, hv'⟩ := vmemAddInternal_eq_some hs
  obtain ⟨h₀, hnf, ⟨hnq, hn⟩, hfq, hf⟩ := linked_taken h hpool
  obtain ⟨l, r, hq, hl, hr, hins⟩ := spanInsert_spec (n := n) (b := base) h₀ hhead
  have hq : v.segqueue = l ++ r := hq
  obtain ⟨hnl, hnr⟩ := not_mem_parts hq hnq
  obtain ⟨hfl, hfr⟩ := not_mem_parts hq hfq
  -- first the marker of the span, then its one free segment right behind it
  have h₁ := linked_insertSpan h₀ hq hnq hn htype
  rw [hins] at hv'
  dsimp only at hv'
  rw [Queue.insertAfter_split hnl] at hv'
  -- the second tag is still unused once the marker is in the queue
  have hfq₁ : t ∉ l ++ n :: r := by
    rw [List.mem_append, List.mem_cons]
    rintro (hmem | rfl | hmem)
    · exact hfl hmem
    · exact hnf rfl
    · exact hfr hmem
  have h₂ := linked_insertFree (s := ⟨.kVMemSegFree, base, size⟩) (l := l ++ [n]) (r := r)
    h₁ (by rw [List.append_assoc, List.singleton_append]) hfq₁ hf (by simp) rfl
  rw [List.append_assoc, List.singleton_append] at h₂
  subst hv'
  refine ⟨h₂, rfl, ⟨n, hpool, ?_⟩, l.map v.seg, r.map v.seg, ?_, ?_, ?_, ?_, l ++ [n], r, ?_,
    ?_, ?_⟩
  · show (l ++ n :: t :: r).Perm (n :: t :: v.segqueue)
    rw [hq]
    exact List.perm_middle.trans (List.perm_middle.cons n)
  · rw [view, ← List.map_append, hq]
  · intro s hs' hspan
    obtain ⟨u, hu, rfl⟩ := List.mem_map.mp hs'
    exact hl u hu hspan
  · intro s hs'
    rw [List.head?_map] at hs'
    obtain ⟨u, hu, rfl⟩ := Option.map_eq_some_iff.mp hs'
    exact hr u hu
  · exact Function.update_self ..
  · show l ++ n :: t :: r = _
    rw [List.append_assoc, List.singleton_append]
  · show (l ++ [n]).map (Function.update (Function.update v.seg n _) t _) = _
    rw [List.map_append, List.map_singleton, map_update_of_notMem hfl,
      map_update_of_notMem hnl, Function.update_of_ne hnf, Function.update_self]
  · show r.map (Function.update (Function.update v.seg n _) t _) = _
    rw [map_update_of_notMem hfr, map_update_of_notMem hnr]

/-- **`vmem_add`.** -/
theorem vmemAdd_spec {base : ℕ} (h : Linked none v)
    (hhead : ∀ s ∈ (view v).head?, s.isSpan = true) (hs : vmemAdd v base size = some v') :
    Linked none v' ∧ Adds base size (view v) (view v') := by
  obtain ⟨⟨t, v₁⟩, hadd, rfl⟩ := Option.map_eq_some_iff.mp hs
  obtain ⟨hlink, -, -, A, B, hV, hA, hB, ha⟩ := vmemAddInternal_spec h hhead rfl hadd
  refine ⟨hlink, A, B, hV, hA, hB, ?_⟩
  rw [ha.view_eq, List.append_assoc, List.singleton_append]

end Scalux.Vmem
