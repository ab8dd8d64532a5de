import Scalux.Kern.VmemContained

/-! # Segment tags are conserved

The tags that are unused and those on the queues of all arenas are the 128 static ones and 63 for each
refill, as long as every request is served.  A request that is not leaves `vmem_xalloc` with the two
tags it has preallocated in hand: it returns the error code and frees neither.

* **`step_spec`**, **`exec_spec`**: the tags that a step and a run lose.
* **`tags_conserved_iff`**: in every run, the tags add up when no call is under way if and only if every
  request was served. -/

namespace Scalux.Vmem

namespace Arenas

variable {s s' : State} {a n : ℕ} {l : Lists} {v : Arena Unit} {f : Frame} {rest : List Frame}

/-- What holds whenever no step is under way: no tag is in two places, the lists of an arena hold tags
of its queue, and `vmem_xfree` finds its segment as it left it when `freefn` returns. -/
structure Inv (s : State) : Prop where
  nodup : s.allTags.Nodup
  contained : ∀ a l, s.arenas.get? a = some l → Contained (s.arena l)
  atHand : ∀ a t w c, Frame.releasing a t w c ∈ s.pending → ∃ l, s.arenas.get? a = some l ∧
    AtHand (s.arena l) t c ∧ w ∈ l.segqueue ∧ w ≠ t
  /-- No arena waits for `freefn` twice. -/
  once : (s.pending.filterMap Frame.busy).Nodup

/-- A step that adds no tags: `n` of them are gone. -/
def Loses (s s' : State) (n : ℕ) : Prop :=
  ∃ gone : List Tag, gone.length = n ∧ (gone ++ s'.allTags).Perm s.allTags ∧ s'.refills = s.refills

theorem Loses.nodup (h : Loses s s' n) (hnd : s.allTags.Nodup) : s'.allTags.Nodup := by
  obtain ⟨gone, -, hperm, -⟩ := h
  exact (List.nodup_append.mp (hperm.nodup_iff.mpr hnd)).2.1

theorem Loses.length_eq (h : Loses s s' n) : s'.allTags.length + n = s.allTags.length := by
  obtain ⟨gone, rfl, hperm, -⟩ := h
  rw [← hperm.length_eq, List.length_append, Nat.add_comm]

/-- What a segment contains does not matter. -/
theorem atHand_arena {t : Tag} {c : Bool} (h : AtHand (s.arena l) t c) : AtHand (s'.arena l) t c :=
  ⟨h.contained, h.nodup, h.mem, h.unlisted⟩

/-- An arena that may be entered. -/
theorem idle_eq_some : s.idle a = some l ↔
    s.arenas.get? a = some l ∧ ∀ f ∈ s.pending, f.busy ≠ some a := by
  unfold State.idle
  split
  · rename_i hall
    have hall : ∀ f ∈ s.pending, f.busy ≠ some a := fun f hf =>
      of_decide_eq_true (List.all_eq_true.mp hall f hf)
    exact ⟨fun h => ⟨h, hall⟩, fun h => h.1⟩
  · rename_i hall
    refine ⟨fun h => (by cases h), fun h => absurd (List.all_eq_true.mpr fun f hf => ?_) hall⟩
    exact decide_eq_true (h.2 f hf)

/-- The tags, by one arena and the others. -/
theorem allTags_perm (hl : s.arenas.get? a = some l) :
    s.allTags.Perm (tags (s.arena l) ++
      (s.pending.flatMap Frame.held ++ (s.arenas.free a).collect Lists.segqueue)) := by
  refine List.perm_iff_count.mpr fun x => ?_
  have hcount := (Heap.collect_free (f := Lists.segqueue) hl).count_eq x
  simp only [State.allTags, State.arena, tags, List.count_append] at hcount ⊢
  omega

/-- The tags after an operation on one arena. -/
theorem allTags_put (hl : s.arenas.get? a = some l) :
    (s.put a l v).allTags.Perm (tags v ++
      (s.pending.flatMap Frame.held ++ (s.arenas.free a).collect Lists.segqueue)) := by
  refine List.perm_iff_count.mpr fun x => ?_
  have hcount := (Heap.collect_set (f := Lists.segqueue) hl (l.with v)).count_eq x
  simp only [State.allTags, State.put, Lists.with, tags, List.count_append] at hcount ⊢
  omega

/-- An operation on one arena that leaves the tags `gone` out. -/
theorem put_perm (gone : List Tag) (hl : s.arenas.get? a = some l)
    (hperm : (gone ++ tags v).Perm (tags (s.arena l))) : (gone ++ (s.put a l v).allTags).Perm s.allTags := by
  refine List.perm_iff_count.mpr fun x => ?_
  have hput := (allTags_put (v := v) hl).count_eq x
  have hall := (allTags_perm hl).count_eq x
  have hcount := hperm.count_eq x
  simp only [List.count_append] at hput hall hcount ⊢
  omega

/-- An operation on an arena that may be entered. -/
theorem Inv.put (hi : Inv s) (hl : s.idle a = some l) (hc : Contained v)
    (hnd : (s.put a l v).allTags.Nodup) : Inv (s.put a l v) where
  nodup := hnd
  contained b l' hb := by
    have hget : (s.arenas.set a (l.with v)).get? b = some l' := hb
    rw [Heap.get?_set (idle_eq_some.mp hl).1] at hget
    split at hget
    · cases hget
      exact hc
    · exact hi.contained b l' hget
  atHand b t w c hmem := by
    obtain ⟨l', hget, hat, hrest⟩ := hi.atHand b t w c hmem
    have hne : b ≠ a := by
      rintro rfl
      exact (idle_eq_some.mp hl).2 _ hmem rfl
    refine ⟨l', ?_, atHand_arena hat, hrest⟩
    show (s.arenas.set a (l.with v)).get? b = _
    rw [Heap.get?_set (idle_eq_some.mp hl).1, if_neg hne, hget]
  once := hi.once

/-- The function that the last call waits for returns. -/
theorem Inv.pop (hi : Inv s) (hp : s.pending = f :: rest) : Inv { s with pending := rest } where
  nodup := by
    have hnd := hi.nodup
    simp only [State.allTags, hp, List.flatMap_cons, List.append_assoc] at hnd ⊢
    refine hnd.sublist ?_
    exact (List.sublist_append_right _ _).append_left _
  contained := hi.contained
  atHand b t w c hmem := hi.atHand b t w c (hp ▸ List.mem_cons_of_mem f hmem)
  once := by
    have honce := hi.once
    rw [hp] at honce
    exact honce.sublist ((List.sublist_cons_self f rest).filterMap _)

/-- A call waits, with no segment half removed. -/
theorem Inv.push (hi : Inv s) (hf : f.busy = none)
    (hnd : { s with pending := f :: s.pending }.allTags.Nodup) :
    Inv { s with pending := f :: s.pending } where
  nodup := hnd
  contained := hi.contained
  atHand b t w c hmem := by
    rcases List.mem_cons.mp hmem with rfl | hmem
    · cases hf
    · exact hi.atHand b t w c hmem
  once := by
    show ((f :: s.pending).filterMap Frame.busy).Nodup
    rw [List.filterMap_cons_none hf]
    exact hi.once

/-- The request finds a free segment, or the arena can import. -/
def servedNow (s : State) (a : ℕ) (req : Request) : Bool :=
  (s.arenas.get? a).all fun l => l.allocfn ||
    (search (s.arena l) req.size req.min req.flags (searchIndices req.size)).isSome

/-- The step does not fail a request: where the free lists are searched, a segment is found or the
arena can import, and `allocfn` does not return an error. -/
def served (s : State) : Action → Bool
  | .vmemXalloc a req =>
      if req.bootstrap ∨ 128 ≤ s.freeSegs.length then servedNow s a req else true
  | .vmKallocReturns block =>
      match s.pending with
      | .refill a req :: pending => servedNow ({ s with pending := pending }.refill block) a req
      | _ => true
  | .allocfnReturns r _ => 0 ≤ r
  | _ => true

/-- The tags that a step may lose. -/
def lost (ok : Bool) : ℕ := if ok then 0 else 2

/-- **`vmem_xalloc`, from the return of `seg_refill` on.** -/
theorem xalloc_spec {req : Request} (hi : Inv s) (hs : xalloc s a req = some s') :
    Inv s' ∧ Loses s s' (lost (servedNow s a req)) := by
  unfold xalloc at hs
  obtain ⟨l, hl, hs⟩ := Option.bind_eq_some_iff.mp hs
  obtain ⟨found, hfound, hs⟩ := Option.bind_eq_some_iff.mp hs
  have hget := (idle_eq_some.mp hl).1
  have hspec := xallocSearch_contained (hi.contained a l hget) hfound
  -- the call ends here when a segment was found; otherwise it may go on in the source
  cases found with
  | served addr v =>
      obtain ⟨hc, hperm, hsome⟩ := hspec
      cases hs
      have hput := put_perm [] hget hperm
      have hserved : servedNow s a req = true := by
        rw [servedNow, hget, Option.all_some, hsome, Bool.or_true]
      have hlose : Loses s (s.put a l v) (lost (servedNow s a req)) :=
        ⟨[], by rw [hserved]; rfl, hput, rfl⟩
      exact ⟨hi.put hl hc (hlose.nodup hi.nodup), hlose⟩
  | unserved newlseg newrseg v =>
      obtain ⟨hq, hc, hpool, hnone⟩ := hspec
      have hput : ([newlseg, newrseg] ++ (s.put a l v).allTags).Perm s.allTags := by
        refine put_perm _ hget (List.perm_iff_count.mpr fun x => ?_)
        simp only [tags, hq, hpool, List.count_append, List.count_cons, List.count_nil]
        omega
      have hlose : Loses s (s.put a l v) 2 := ⟨_, rfl, hput, rfl⟩
      have hinv := hi.put hl hc (hlose.nodup hi.nodup)
      dsimp only at hs
      split at hs
      · -- the two tags are in the hands of the call that waits
        rename_i hallocfn
        cases hs
        have hserved : servedNow s a req = true := by
          rw [servedNow, hget, Option.all_some, hallocfn, Bool.true_or]
        have hall : Loses s { s.put a l v with
            pending := .importing a req newlseg newrseg :: (s.put a l v).pending } 0 := by
          refine ⟨[], rfl, (List.perm_iff_count.mpr fun x => ?_).trans hput, rfl⟩
          simp only [State.allTags, List.flatMap_cons, Frame.held, List.count_append, List.count_nil]
          omega
        exact ⟨hinv.push rfl (hall.nodup hi.nodup), by rw [hserved]; exact hall⟩
      · rename_i hallocfn
        cases hs
        have hserved : servedNow s a req = false := by
          rw [servedNow, hget, Option.all_some, hnone, Bool.eq_false_iff.mpr hallocfn]
          rfl
        exact ⟨hinv, by rw [hserved]; exact hlose⟩

/-- An operation on an arena that only moves tags between its queue and the unused ones. -/
theorem Inv.move (hi : Inv s) (hl : s.idle a = some l) (hc : Contained v)
    (hperm : (tags v).Perm (tags (s.arena l))) : Inv (s.put a l v) ∧ Loses s (s.put a l v) 0 := by
  have hlose : Loses s (s.put a l v) 0 :=
    ⟨[], rfl, put_perm [] (idle_eq_some.mp hl).1 hperm, rfl⟩
  exact ⟨hi.put hl hc (hlose.nodup hi.nodup), hlose⟩

/-- The queue of an arena has no tag twice. -/
theorem Inv.queue_nodup (hi : Inv s) (hl : s.arenas.get? a = some l) : l.segqueue.Nodup := by
  have hnd := (allTags_perm hl).nodup_iff.mp hi.nodup
  exact (List.nodup_append.mp (List.nodup_append.mp hnd).1).1

/-- **`vmem_init`.** -/
theorem init_spec {base size : ℕ} {source allocfn freefn : Bool} (hi : Inv s)
    (hs : step s (.vmemInit a base size source allocfn freefn) = some s') :
    Inv s' ∧ Loses s s' 0 := by
  unfold step at hs
  obtain ⟨v, hv, hs⟩ := Option.bind_eq_some_iff.mp hs
  obtain ⟨arenas, halloc, hs⟩ := Option.bind_eq_some_iff.mp hs
  cases hs
  -- the new arena is on the heap with no list at all before the span is added
  have hempty : Contained (s.arena ⟨[], [], fun _ => [], fun _ => [], allocfn, freefn⟩) := by
    rintro t (h | ⟨i, h⟩ | ⟨i, h⟩) <;> cases h
  have hspec : Contained v ∧ (tags v).Perm s.freeSegs := by
    split at hv
    · exact vmemAdd_contained hempty hv
    · cases hv
      exact ⟨hempty, .refl _⟩
  obtain ⟨hc, hperm⟩ := hspec
  have hlose : Loses s { s with seg := v.seg, freeSegs := v.freeSegs, arenas := arenas } 0 := by
    refine ⟨[], rfl, List.perm_iff_count.mpr fun x => ?_, rfl⟩
    have hcount := hperm.count_eq x
    simp only [State.allTags, Heap.collect_alloc halloc, Lists.with, tags, List.count_append,
      List.count_nil] at hcount ⊢
    omega
  refine ⟨⟨hlose.nodup hi.nodup, ?_, ?_, hi.once⟩, hlose⟩
  · intro b l' hb
    have hget : arenas.get? b = some l' := hb
    rw [Heap.get?_alloc halloc] at hget
    split at hget
    · cases hget
      exact hc
    · exact hi.contained b l' hget
  · intro b t w c hmem
    obtain ⟨l', hget, hat, hrest⟩ := hi.atHand b t w c hmem
    refine ⟨l', ?_, atHand_arena hat, hrest⟩
    show arenas.get? b = _
    rw [Heap.get?_alloc halloc, if_neg, hget]
    -- an arena that a call waits on was there before, so it is not the one allocated now
    rintro rfl
    rw [Heap.get?_of_alloc halloc] at hget
    cases hget

/-- **`vmem_destroy`.** -/
theorem destroy_spec (hi : Inv s) (hs : step s (.vmemDestroy a) = some s') :
    Inv s' ∧ Loses s s' 0 := by
  unfold step at hs
  obtain ⟨l, hl, hs⟩ := Option.bind_eq_some_iff.mp hs
  obtain ⟨v, hv, hs⟩ := Option.bind_eq_some_iff.mp hs
  obtain ⟨hget, hidle⟩ := idle_eq_some.mp hl
  cases hs
  -- every tag of the queue goes back to the pool, the last one first
  have hfree : v.freeSegs = l.segqueue.reverse ++ s.freeSegs := by
    unfold vmemDestroy at hv
    split at hv
    · cases hv
      rfl
    · cases hv
  have hlose : Loses s { s with freeSegs := v.freeSegs, arenas := s.arenas.free a } 0 := by
    refine ⟨[], rfl, List.perm_iff_count.mpr fun x => ?_, rfl⟩
    have hcount := (allTags_perm hget).count_eq x
    simp only [State.allTags, State.arena, tags, hfree, List.count_append, List.count_reverse,
      List.count_nil] at hcount ⊢
    omega
  refine ⟨⟨hlose.nodup hi.nodup, ?_, ?_, hi.once⟩, hlose⟩
  · intro b l' hb
    have hget' : (s.arenas.free a).get? b = some l' := hb
    rw [Heap.get?_free] at hget'
    split at hget'
    · cases hget'
    · exact hi.contained b l' hget'
  · intro b t w c hmem
    obtain ⟨l', hget', hat, hrest⟩ := hi.atHand b t w c hmem
    refine ⟨l', ?_, atHand_arena hat, hrest⟩
    show (s.arenas.free a).get? b = _
    rw [Heap.get?_free, if_neg, hget']
    -- the arena that is freed is idle, no call waits on it
    rintro rfl
    exact hidle _ hmem rfl

/-- **`vmem_xfree`.** -/
theorem xfree_spec {addr : ℕ} (hi : Inv s) (hs : step s (.vmemXfree a addr) = some s') :
    Inv s' ∧ Loses s s' 0 := by
  unfold step at hs
  obtain ⟨l, hl, hs⟩ := Option.bind_eq_some_iff.mp hs
  obtain ⟨⟨t, w, c, v⟩, hcoal, hs⟩ := Option.bind_eq_some_iff.mp hs
  obtain ⟨hget, hidle⟩ := idle_eq_some.mp hl
  obtain ⟨hat, hw, hne, hperm⟩ :=
    xfreeCoalesce_contained (hi.contained a l hget) (hi.queue_nodup hget) hcoal
  dsimp only at hs
  split at hs
  -- a whole imported span: the arena waits for `freefn`, else the call ends here
  · split at hs
    · cases hs
      obtain ⟨hinv, hlose⟩ := hi.move hl hat.contained hperm
      refine ⟨⟨hinv.nodup, hinv.contained, ?_, ?_⟩, hlose⟩
      · intro b t' w' c' hmem
        rcases List.mem_cons.mp hmem with heq | hmem
        · cases heq
          refine ⟨l.with v, ?_, ⟨hat.contained, hat.nodup, hat.mem, hat.unlisted⟩, hw, hne⟩
          show (s.arenas.set a (l.with v)).get? a = _
          rw [Heap.get?_set hget, if_pos rfl]
        · exact hinv.atHand b t' w' c' hmem
      · show (a :: s.pending.filterMap Frame.busy).Nodup
        refine List.nodup_cons.mpr ⟨fun hmem => ?_, hi.once⟩
        obtain ⟨f, hf, hbusy⟩ := List.mem_filterMap.mp hmem
        exact hidle f hf hbusy
    · cases hs
  · cases hs
    obtain ⟨hc, hperm'⟩ := xfreeKept_contained hat
    exact hi.move hl hc (hperm'.trans hperm)

/-- **`freefn` returns.** -/
theorem freefnReturns_spec (hi : Inv s) (hs : step s .freefnReturns = some s') :
    Inv s' ∧ Loses s s' 0 := by
  unfold step at hs
  dsimp only at hs
  split at hs
  · rename_i a t w c rest hp
    obtain ⟨l, hget, hs⟩ := Option.bind_eq_some_iff.mp hs
    cases hs
    obtain ⟨l', hget', hat, hw, hne⟩ := hi.atHand a t w c (hp ▸ List.mem_cons_self)
    obtain rfl : l = l' := Option.some.inj (hget.symm.trans hget')
    -- the arena that waited is no longer busy once its call is off the stack
    have hidle : { s with pending := rest }.idle a = some l := by
      refine idle_eq_some.mpr ⟨hget, fun f hf hbusy => ?_⟩
      have honce : (a :: rest.filterMap Frame.busy).Nodup := by
        have := hi.once
        rw [hp] at this
        exact this
      exact (List.nodup_cons.mp honce).1 (List.mem_filterMap.mpr ⟨f, hf, hbusy⟩)
    have hat' : AtHand ({ s with pending := rest }.arena l) t c := atHand_arena hat
    obtain ⟨hc, hperm⟩ := xfreeReleased_contained hat' hw hne
    obtain ⟨hinv, gone, hlen, hall, href⟩ := (hi.pop hp).move hidle hc hperm
    refine ⟨hinv, gone, hlen, hall.trans (.of_eq ?_), href⟩
    rw [State.allTags, State.allTags, hp]
    rfl
  · cases hs

/-- **`allocfn` returns.** -/
theorem allocfnReturns_spec {r : ℤ} {addr : ℕ} (hi : Inv s)
    (hs : step s (.allocfnReturns r addr) = some s') :
    Inv s' ∧ Loses s s' (lost (served s (.allocfnReturns r addr))) := by
  unfold step at hs
  dsimp only at hs
  split at hs
  · rename_i a req newlseg newrseg rest hp
    have hinv := hi.pop hp
    -- the two tags of the call that waits are in nobody's list while it does
    have hall : ([newlseg, newrseg] ++ { s with pending := rest }.allTags).Perm s.allTags := by
      refine List.perm_iff_count.mpr fun x => ?_
      simp only [State.allTags, hp, List.flatMap_cons, Frame.held, List.count_append]
      omega
    split at hs
    · rename_i hr
      cases hs
      have hserved : served s (.allocfnReturns r addr) = false := decide_eq_false (not_le.mpr hr)
      rw [hserved]
      exact ⟨hinv, _, rfl, hall, rfl⟩
    · rename_i hr
      obtain ⟨l, hl, hs⟩ := Option.bind_eq_some_iff.mp hs
      obtain ⟨⟨b, v⟩, himp, hs⟩ := Option.bind_eq_some_iff.mp hs
      cases hs
      have hget := (idle_eq_some.mp hl).1
      obtain ⟨hc, hperm⟩ := xallocImported_contained (hinv.contained a l hget) himp
      have hserved : served s (.allocfnReturns r addr) = true := decide_eq_true (not_lt.mp hr)
      have hlose : Loses s ({ s with pending := rest }.put a l v) 0 := by
        refine ⟨[], rfl, (List.perm_iff_count.mpr fun x => ?_).trans hall, rfl⟩
        have hput := (allTags_put (v := v) hget).count_eq x
        have hold := (allTags_perm hget).count_eq x
        have hcount := hperm.count_eq x
        simp only [List.count_append, List.count_cons, List.count_nil] at hput hold hcount ⊢
        omega
      rw [hserved]
      exact ⟨hinv.put hl hc (hlose.nodup hi.nodup), hlose⟩
  · cases hs

/-- **`vm_kalloc` returns** a block of 63 tags, and `vmem_xalloc` goes on. -/
theorem vmKallocReturns_spec {block : List Tag} (hi : Inv s)
    (hs : step s (.vmKallocReturns block) = some s') :
    Inv s' ∧ s'.refills = s.refills + 1 ∧
      s'.allTags.length + lost (served s (.vmKallocReturns block)) = s.allTags.length + 63 := by
  unfold step at hs
  dsimp only at hs
  split at hs
  · rename_i a req rest hp
    split at hs
    · rename_i hblock
      obtain ⟨hlen, hnd, hfresh⟩ := hblock
      -- the tags of the page join the pool, all others stay where they were
      have hall : ({ s with pending := rest }.refill block).allTags.Perm (block ++ s.allTags) := by
        refine List.perm_iff_count.mpr fun x => ?_
        simp only [State.allTags, State.refill, hp, List.flatMap_cons, Frame.held, List.count_append,
          List.count_reverse, List.count_nil]
        omega
      have hinv : Inv ({ s with pending := rest }.refill block) := by
        have hpop := hi.pop hp
        refine ⟨hall.nodup_iff.mpr ?_, hpop.contained, ?_, hpop.once⟩
        · exact List.nodup_append.mpr ⟨hnd, hi.nodup, fun x hx y hy heq => hfresh x hx (heq ▸ hy)⟩
        · intro b t w c hmem
          obtain ⟨l, hget, hat, hrest⟩ := hpop.atHand b t w c hmem
          exact ⟨l, hget, atHand_arena hat, hrest⟩
      -- the call that asked for the page goes on as if it began with the larger pool
      have hserved : served s (.vmKallocReturns block)
          = servedNow ({ s with pending := rest }.refill block) a req := by
        rw [served, hp]
      obtain ⟨hinv', hlose⟩ := xalloc_spec hinv hs
      have hlength := hlose.length_eq
      obtain ⟨gone, -, -, href⟩ := hlose
      refine ⟨hinv', href, ?_⟩
      rw [hserved, hlength, hall.length_eq, List.length_append, hlen, Nat.add_comm]
    · cases hs
  · cases hs

/-- **One step** loses two tags if it fails a request, and none otherwise. -/
theorem step_spec {act : Action} (hi : Inv s) (hs : step s act = some s') :
    Inv s' ∧ s'.allTags.length + lost (served s act) + 63 * s.refills
      = s.allTags.length + 63 * s'.refills := by
  -- all the calls but the refill lose the tags they are charged with and refill nothing
  have hloses : ∀ n, Inv s' ∧ Loses s s' n → Inv s' ∧ s'.allTags.length + n + 63 * s.refills
      = s.allTags.length + 63 * s'.refills := by
    rintro n ⟨hinv, hlose⟩
    have hlength := hlose.length_eq
    obtain ⟨gone, -, -, href⟩ := hlose
    exact ⟨hinv, by rw [hlength, href]⟩
  cases act with
  | vmemInit a base size source allocfn freefn => exact hloses 0 (init_spec hi hs)
  | vmemAdd a base size =>
      unfold step at hs
      obtain ⟨l, hl, hs⟩ := Option.bind_eq_some_iff.mp hs
      obtain ⟨v, hv, hs⟩ := Option.bind_eq_some_iff.mp hs
      cases hs
      obtain ⟨hc, hperm⟩ := vmemAdd_contained (hi.contained a l (idle_eq_some.mp hl).1) hv
      exact hloses 0 (hi.move hl hc hperm)
  | vmemXalloc a req =>
      unfold step at hs
      dsimp only at hs
      split at hs
      · split at hs
        · rename_i hreserve
          rw [served, if_pos hreserve]
          exact hloses _ (xalloc_spec hi hs)
        · rename_i hreserve
          cases hs
          rw [served, if_neg hreserve]
          exact hloses 0 ⟨hi.push rfl hi.nodup, [], rfl, .refl _, rfl⟩
      · cases hs
  | vmemXfree a addr => exact hloses 0 (xfree_spec hi hs)
  | vmemDestroy a => exact hloses 0 (destroy_spec hi hs)
  | vmKallocReturns block =>
      obtain ⟨hinv, href, hlength⟩ := vmKallocReturns_spec hi hs
      exact ⟨hinv, by omega⟩
  | allocfnReturns r addr => exact hloses _ (allocfnReturns_spec hi hs)
  | freefnReturns => exact hloses 0 (freefnReturns_spec hi hs)

/-- **A run** loses tags if and only if it fails a request. -/
theorem exec_spec {acts : List Action} (hi : Inv s) (hs : machine.exec s acts = some s') :
    ∃ n, s'.allTags.length + n + 63 * s.refills = s.allTags.length + 63 * s'.refills ∧
      (n = 0 ↔ machine.meets served s acts = true) := by
  induction acts generalizing s with
  | nil =>
      cases hs
      exact ⟨0, rfl, iff_of_true rfl rfl⟩
  | cons act acts ih =>
      obtain ⟨t, hstep, hs⟩ := Option.bind_eq_some_iff.mp hs
      obtain ⟨hinv, hcount⟩ := step_spec hi hstep
      obtain ⟨n, hrun, hn⟩ := ih hinv hs
      refine ⟨lost (served s act) + n, by omega, ?_⟩
      rw [Machine.meets, hstep, Bool.and_eq_true, Option.elim_some, ← hn, lost]
      cases served s act <;> simp

/-- The state after `vmem_earlyinit`. -/
theorem inv_vmemEarlyinit {staticSegs : List Tag} (hnd : staticSegs.Nodup) :
    Inv (vmemEarlyinit staticSegs) ∧ (vmemEarlyinit staticSegs).allTags.length = staticSegs.length := by
  have hall : (vmemEarlyinit staticSegs).allTags = staticSegs.reverse := by
    show staticSegs.foldl (fun l t => t :: l) [] ++ ([] ++ []) = _
    rw [List.foldl_flip_cons_eq_append', List.append_nil, List.append_nil, List.append_nil]
  refine ⟨⟨?_, fun a l hl => (by cases hl), fun a t w c hmem => (by cases hmem), List.nodup_nil⟩, ?_⟩
  · rw [hall, List.nodup_reverse]
    exact hnd
  · rw [hall, List.length_reverse]

/-- **The tags of all arenas.** In every run of any arenas from `vmem_earlyinit`, whatever the calls
under way do in between: when no call is under way, the unused tags and those on the queues of the live
arenas are the 128 static ones and 63 for each refill if and only if no request has failed. -/
theorem tags_conserved_iff (staticSegs : List Tag) (hlen : staticSegs.length = 128)
    (hnd : staticSegs.Nodup) (acts : List Action) (s : State)
    (hs : machine.exec (vmemEarlyinit staticSegs) acts = some s) (hpending : s.pending = []) :
    s.freeSegs.length + s.segments = 128 + 63 * s.refills ↔
      machine.meets served (vmemEarlyinit staticSegs) acts = true := by
  obtain ⟨hinv, hlength⟩ := inv_vmemEarlyinit hnd
  obtain ⟨n, hcount, hn⟩ := exec_spec hinv hs
  have hall : s.allTags.length = s.freeSegs.length + s.segments := by
    rw [State.allTags, hpending, List.length_append, List.length_append, Heap.length_collect]
    exact congrArg _ (Nat.zero_add _)
  rw [hall, hlength, hlen] at hcount
  rw [← hn]
  have hzero : (vmemEarlyinit staticSegs).refills = 0 := rfl
  omega

/-- A request without constraints. -/
def anywhere (size : ℕ) (bootstrap : Bool) : Request := ⟨size, 0, 0, 0, 0, ⟨false⟩, bootstrap⟩

/-- A run of an arena and one that imports from it: the first call on the second refills the tags, and
imports; the range is freed again, which gives the span back. -/
def nestedRun : List Action :=
  [.vmemInit 0 0x1000 0x4000 false false false, .vmemInit 1 0 0 true true true,
    .vmemXalloc 1 (anywhere 0x1000 false), .vmemXalloc 0 (anywhere 0x1000 true),
    .vmKallocReturns (List.range' 128 63), .vmemXalloc 0 (anywhere 0x1000 true),
    .allocfnReturns 0 0x2000, .vmemXfree 1 0x2000, .vmemXfree 0 0x2000, .freefnReturns,
    .vmemDestroy 1]

/-- Its tags add up: 188 unused ones and three segments. -/
theorem tags_conserved_nested :
    ∃ s, machine.exec (vmemEarlyinit (List.range 128)) nestedRun = some s ∧
      s.freeSegs.length + s.segments = 128 + 63 * s.refills ∧ s.freeSegs.length = 188 := by
  have hrun : (machine.exec (vmemEarlyinit (List.range 128)) nestedRun).map
      (fun s => (s.pending.length, s.freeSegs.length)) = some (0, 188) := by decide +kernel
  obtain ⟨s, hs, heq⟩ := Option.map_eq_some_iff.mp hrun
  obtain ⟨hpending, hfree⟩ := Prod.mk.inj heq
  exact ⟨s, hs, (tags_conserved_iff (List.range 128) List.length_range List.nodup_range nestedRun s hs
    (List.length_eq_zero_iff.mp hpending)).mpr (by decide +kernel), hfree⟩

/-- **Two tags are lost.** A request to an arena without a span fails, and 126 tags are left. -/
theorem tags_not_conserved :
    ¬ ∀ (acts : List Action) (s : State),
      machine.exec (vmemEarlyinit (List.range 128)) acts = some s → s.pending = [] →
        s.freeSegs.length + s.segments = 128 + 63 * s.refills := by
  intro h
  have hrun : (machine.exec (vmemEarlyinit (List.range 128))
      [.vmemInit 0 0 0 false false false, .vmemXalloc 0 (anywhere 1 false)]).map
      (fun s => (s.pending.length, s.freeSegs.length, s.segments, s.refills)) = some (0, 126, 0, 0) := by
    decide +kernel
  obtain ⟨s, hs, heq⟩ := Option.map_eq_some_iff.mp hrun
  obtain ⟨hpending, heq⟩ := Prod.mk.inj heq
  obtain ⟨hfree, heq⟩ := Prod.mk.inj heq
  obtain ⟨hsegments, hrefills⟩ := Prod.mk.inj heq
  have := h _ s hs (List.length_eq_zero_iff.mp hpending)
  omega

end Arenas

end Scalux.Vmem
