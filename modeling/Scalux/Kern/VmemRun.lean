import Scalux.Kern.VmemTiling

/-! # Runs of the VMem allocator

An arena without a source, together with the ranges that `vmem_xalloc` has returned and that have not
been freed.  An action is one call; it names the unused tags that `seg_refill` and the other arenas
have left on the shared list, which this arena does not control.

Two defects of the code limit what holds in every run.

* The comparison of `vmem_xalloc` is over wrapped sums, so a request can be served beyond the end of
  a free segment (`Fooled`).
* `vmem_xfree` drops a segment that has no free neighbour ("seg not set free yet if it wasn't
  coalesced"), and the range is lost.

The results are about the runs that avoid them.

* **`vmem_live_sound`**: without the first, live ranges are disjoint, each in a span, off free
  segments.
* **`vmem_groups`**: without both, the queue is one exact tiling per span, without free neighbours,
  and a freed range is free again. -/

namespace Scalux.Vmem

/-- An arena and the ranges handed out and not yet freed. -/
structure State (E : Type) where
  arena : Arena E
  live : List (ℕ × ℕ)

/-- The calls on an arena, with the unused tags each of them finds. -/
inductive Action
  | vmemAdd (pool : List Tag) (base size : ℕ)
  | vmemXalloc (pool : List Tag) (size align phase min max : ℕ) (flags : Flags)
  | vmemXfree (pool : List Tag) (addr : ℕ)
  deriving DecidableEq, Repr

variable {E : Type}

/-- The shared list of unused tags is what the rest of the kernel has left. -/
def withPool (v : Arena E) (pool : List Tag) : Arena E := { v with freeSegs := pool }

/-- The tags on the shared list are unused by the arena. -/
def PoolOk (v : Arena E) (pool : List Tag) : Prop := pool.Nodup ∧ ∀ t ∈ pool, t ∉ v.segqueue

instance (v : Arena E) (pool : List Tag) : Decidable (PoolOk v pool) :=
  inferInstanceAs (Decidable (_ ∧ _))

/-- A new span is not empty, does not wrap and overlaps no other. -/
def SpanOk (V : List Seg) (base size : ℕ) : Prop :=
  0 < size ∧ size < 2 ^ 64 ∧ base + size ≤ 2 ^ 64 ∧
    ∀ s ∈ V, s.isSpan = true → s.base + s.size ≤ base ∨ base + size ≤ s.base

instance (V : List Seg) (base size : ℕ) : Decidable (SpanOk V base size) :=
  inferInstanceAs (Decidable (_ ∧ _ ∧ _ ∧ _))

/-- One call.  `none`: an assertion fails, or the call breaks the rules of the interface. -/
def step (s : State E) : Action → Option (State E)
  | .vmemAdd pool base size =>
      if PoolOk s.arena pool ∧ SpanOk (view s.arena) base size then
        (vmemAdd (withPool s.arena pool) base size).map fun v => ⟨v, s.live⟩
      else none
  | .vmemXalloc pool size align phase min max flags =>
      if PoolOk s.arena pool ∧ size < 2 ^ 64 ∧ min + size ≤ 2 ^ 64 then
        (vmemXalloc none (withPool s.arena pool) size align phase min max flags).map fun r =>
          ⟨r.2, match r.1 with
            | .ok addr => (addr, size) :: s.live
            | .error _ => s.live⟩
      else none
  | .vmemXfree pool addr =>
      if PoolOk s.arena pool ∧ addr ∈ s.live.map Prod.fst then
        (vmemXfree none (withPool s.arena pool) addr).map fun r =>
          ⟨r.2, s.live.eraseP fun a => a.1 = addr⟩
      else none

/-- The calls as a machine. -/
def machine (E : Type) : Machine (State E) Action := ⟨step⟩

/-- What `vmem_init` sets up without a source. -/
structure Initial (s : State E) : Prop where
  live_eq : s.live = []
  arena_eq : ∃ seg pool env base size, pool.Nodup ∧ size < 2 ^ 64 ∧ base + size ≤ 2 ^ 64 ∧
    vmemInit none seg pool env base size = some s.arena

/-! ## The conditions on a step -/

/-- The request meets no free segment that would serve it beyond its end. -/
def fits (s : State E) : Action → Bool
  | .vmemXalloc _ size _ _ min _ flags => (view s.arena).all fun f => !Fooled f size min flags
  | _ => true

/-- Every allocated segment at `addr` has a free segment directly before or after it; `b` says
whether the segment before the list is free. -/
def freeBeside (addr : ℕ) : Bool → List Seg → Bool
  | _, [] => true
  | b, s :: V =>
      (if s.type = .kVMemSegAllocated ∧ s.base = addr then b || V.head?.any Seg.isFree else true) &&
        freeBeside addr s.isFree V

/-- A release meets a segment with a free neighbour. -/
def coalesces (s : State E) : Action → Bool
  | .vmemXfree _ addr => freeBeside addr false (view s.arena)
  | _ => true

/-! ## The properties -/

/-- The live ranges are pairwise disjoint, each lies in a span, and none meets a free segment. -/
structure LiveSound (s : State E) : Prop where
  disjoint : s.live.Pairwise fun a b => a.1 + a.2 ≤ b.1 ∨ b.1 + b.2 ≤ a.1
  in_span : ∀ a ∈ s.live, ∃ t ∈ view s.arena, t.isSpan = true ∧ t.base ≤ a.1 ∧
    a.1 + a.2 ≤ t.base + t.size
  off_free : ∀ a ∈ s.live, ∀ f ∈ view s.arena, f.type = .kVMemSegFree →
    a.1 + a.2 ≤ f.base ∨ f.base + f.size ≤ a.1

/-- Free and allocated segments that follow one another without gaps from `lo` to `hi`. -/
def Covers (lo hi : ℕ) : List Seg → Prop
  | [] => lo = hi
  | s :: l => (s.type = .kVMemSegFree ∨ s.type = .kVMemSegAllocated) ∧ s.base = lo ∧ 0 < s.size ∧
      Covers (lo + s.size) hi l

/-- The queue is one group per span in ascending order: the marker, and segments that cover exactly
its range; no two neighbours are free. -/
structure Grouped (V : List Seg) : Prop where
  groups : ∃ G : List (Seg × List Seg), V = G.flatMap (fun g => g.1 :: g.2) ∧
    (G.Pairwise fun g h => g.1.base + g.1.size ≤ h.1.base) ∧
    ∀ g ∈ G, g.1.isSpan = true ∧ Covers g.1.base (g.1.base + g.1.size) g.2
  apart : V.IsChain fun a b => ¬ (a.isFree = true ∧ b.isFree = true)

/-- The range is part of a free segment. -/
def IsFreeRange (V : List Seg) (addr size : ℕ) : Prop :=
  ∃ f ∈ V, f.type = .kVMemSegFree ∧ f.base ≤ addr ∧ addr + size ≤ f.base + f.size

/-- `vmem_xfree` of a live range, in a state and with unused tags that meet `cond`, returns, and the
range is part of a free segment afterwards. -/
def FreesRange (cond : State E → Action → Bool) (s : State E) : Prop :=
  ∀ pool addr size, (addr, size) ∈ s.live → PoolOk s.arena pool →
    cond s (.vmemXfree pool addr) = true →
    ∃ s', step s (.vmemXfree pool addr) = some s' ∧ IsFreeRange (view s'.arena) addr size

/-! ## The allocated segments of a queue -/

/-- The allocated ranges of a queue. -/
def allocs (V : List Seg) : List (ℕ × ℕ) :=
  V.filterMap fun s => if s.type = .kVMemSegAllocated then some (s.base, s.size) else none

variable {V V' : List Seg} {g : Seg} {s s' : State E} {a : Action}

@[simp] theorem allocs_append (L R : List Seg) : allocs (L ++ R) = allocs L ++ allocs R :=
  List.filterMap_append

@[simp] theorem allocs_free {f : Seg} (hf : f.type = .kVMemSegFree) (L : List Seg) :
    allocs (f :: L) = allocs L := by
  simp [allocs, hf]

@[simp] theorem allocs_allocated {f : Seg} (hf : f.type = .kVMemSegAllocated) (L : List Seg) :
    allocs (f :: L) = (f.base, f.size) :: allocs L := by
  simp [allocs, hf]

theorem mem_allocs {x : ℕ × ℕ} :
    x ∈ allocs V ↔ ⟨.kVMemSegAllocated, x.1, x.2⟩ ∈ V := by
  rw [allocs, List.mem_filterMap]
  constructor
  · rintro ⟨⟨type, base, size⟩, hmem, hx⟩
    split at hx
    · rename_i htype
      cases hx
      cases htype
      exact hmem
    · cases hx
  · exact fun hmem => ⟨_, hmem, rfl⟩

/-- An allocation adds one range. -/
theorem Allocates.allocs_eq {size min addr : ℕ} {flags : Flags}
    (h : Allocates size min flags addr V V') :
    (allocs V').Perm ((addr, size) :: allocs V) := by
  obtain ⟨L, f, R, rfl, hf, -, -, rfl⟩ := h.split
  have hleft : allocs (leftPart f addr) = [] := by
    unfold leftPart
    split <;> rfl
  have hright : allocs (rightPart f addr size) = [] := by
    unfold rightPart
    split <;> rfl
  rw [splitParts, allocs_append, allocs_append, allocs_append, hleft, List.nil_append,
    allocs_allocated rfl, hright, allocs_append, allocs_free hf, List.append_assoc]
  exact List.perm_middle

/-- A release removes one range. -/
theorem Releases.allocs_eq (h : Releases g V V') (hg : g.type = .kVMemSegAllocated) :
    (allocs V).Perm ((g.base, g.size) :: allocs V') := by
  cases h with
  | both L f e R hf he =>
      rw [allocs_append, allocs_free hf, allocs_allocated hg, allocs_free he, allocs_append,
        allocs_free rfl]
      exact List.perm_middle
  | left L f R hf hR =>
      rw [allocs_append, allocs_free hf, allocs_allocated hg, allocs_append, allocs_free rfl]
      exact List.perm_middle
  | right L e R he hL =>
      rw [allocs_append, allocs_allocated hg, allocs_free he, allocs_append, allocs_free rfl]
      exact List.perm_middle
  | lost L R hL hR =>
      rw [allocs_append, allocs_allocated hg, allocs_append]
      exact List.perm_middle

/-- A new span adds no range. -/
theorem Adds.allocs_eq {base size : ℕ} (h : Adds base size V V') : allocs V' = allocs V := by
  obtain ⟨A, B, rfl, -, -, rfl⟩ := h.split
  rw [allocs_append, allocs_append]
  rfl

/-! ## One step -/

/-- Another list of unused tags leaves the containers in agreement. -/
theorem linked_withPool {v : Arena E} {pool : List Tag} (h : Linked none v) (hp : PoolOk v pool) :
    Linked none (withPool v pool) :=
  h.withFree v.env hp.1 hp.2

/-- **What a call does** to the queue and to the live ranges. -/
inductive Step (s : State E) : Action → State E → Prop
  | add {pool base size s'} (hok : SpanOk (view s.arena) base size)
      (hv : Adds base size (view s.arena) (view s'.arena)) (hl : s'.live = s.live) :
      Step s (.vmemAdd pool base size) s'
  | fail {pool size align phase min max flags s'} (hv : view s'.arena = view s.arena)
      (hl : s'.live = s.live) : Step s (.vmemXalloc pool size align phase min max flags) s'
  | alloc {pool size align phase min max flags addr s'} (hpos : 0 < size)
      (hv : Allocates size min flags addr (view s.arena) (view s'.arena))
      (hl : s'.live = (addr, size) :: s.live) :
      Step s (.vmemXalloc pool size align phase min max flags) s'
  | free {pool addr g s'} (hlive : addr ∈ s.live.map Prod.fst)
      (hg : g.type = .kVMemSegAllocated) (hbase : g.base = addr)
      (hv : Releases g (view s.arena) (view s'.arena))
      (hl : s'.live = s.live.eraseP fun a => a.1 = addr) : Step s (.vmemXfree pool addr) s'

/-- Every step is one of these, and the containers still agree after it. -/
theorem step_cases (h : Linked none s.arena) (hhead : ∀ t ∈ (view s.arena).head?, t.isSpan = true)
    (hs : step s a = some s') : Linked none s'.arena ∧ Step s a s' := by
  cases a with
  -- each call takes the tags of the pool it is given, which the arena does not hold yet
  | vmemAdd pool base size =>
      rw [step] at hs
      split at hs
      · rename_i hok
        obtain ⟨v, hv, rfl⟩ := Option.map_eq_some_iff.mp hs
        obtain ⟨hlink, hadds⟩ := vmemAdd_spec (linked_withPool h hok.1) hhead hv
        exact ⟨hlink, .add hok.2 hadds rfl⟩
      · cases hs
  | vmemXalloc pool size align phase min max flags =>
      rw [step] at hs
      split at hs
      · rename_i hok
        obtain ⟨⟨res, v⟩, hv, rfl⟩ := Option.map_eq_some_iff.mp hs
        obtain ⟨hlink, hsize, -, hres⟩ := vmemXalloc_spec (linked_withPool h hok.1) hv
        refine ⟨hlink, ?_⟩
        cases res with
        -- a failing call leaves the segments as they are, it only loses two tags
        | error e => exact .fail hres.2 rfl
        | ok addr => exact .alloc (Nat.pos_of_ne_zero hsize) hres rfl
      · cases hs
  | vmemXfree pool addr =>
      rw [step] at hs
      split at hs
      · rename_i hok
        obtain ⟨⟨n, v⟩, hv, rfl⟩ := Option.map_eq_some_iff.mp hs
        obtain ⟨hlink, g, hg, hbase, -, hrel⟩ := vmemXfree_spec (linked_withPool h hok.1) hv
        exact ⟨hlink, .free hok.2 hg hbase hrel rfl⟩
      · cases hs

/-- No segment of the queue is an imported span. -/
def Own (V : List Seg) : Prop := ∀ t ∈ V, t.type ≠ .kVMemSegSpanImported

/-- A step imports no span. -/
theorem own_step (hown : Own (view s.arena)) (hs : Step s a s') : Own (view s'.arena) := by
  cases hs with
  | add hok hv hl =>
      obtain ⟨A, B, hV, -, -, hV'⟩ := hv.split
      rw [hV] at hown
      rw [hV']
      simp only [Own, List.mem_append, List.mem_cons] at hown ⊢
      rintro t (ht | rfl | rfl | ht)
      · exact hown t (.inl ht)
      · simp
      · simp
      · exact hown t (.inr ht)
  | fail hv hl => rwa [hv]
  | alloc hpos hv hl =>
      obtain ⟨L, f, R, hV, -, -, -, hV'⟩ := hv.split
      rw [hV] at hown
      rw [hV', splitParts]
      simp only [Own, List.mem_append, List.mem_cons] at hown ⊢
      -- the two parts that are cut off are free segments, the middle is the block handed out
      rintro t ((ht | ht | rfl | ht) | ht)
      · exact hown t (.inl ht)
      · unfold leftPart at ht
        split at ht
        · rw [List.mem_singleton.mp ht]
          simp
        · cases ht
      · simp
      · unfold rightPart at ht
        split at ht
        · rw [List.mem_singleton.mp ht]
          simp
        · cases ht
      · exact hown t (.inr (.inr ht))
  | free hlive hg hbase hv hl =>
      generalize view s.arena = V at hown hv
      generalize view s'.arena = V' at hv
      cases hv <;> simp only [Own, List.mem_append, List.mem_cons] at hown ⊢ <;> grind

/-! ## The invariant -/

/-- Two allocated segments of a tiling at the same address are the same. -/
theorem Tiled.eq_of_base {r : ℕ → ℕ → Prop} (hr : IsGap r) (h : Tiled r V) {f g : Seg} (hf : f ∈ V)
    (hg : g ∈ V) (hfs : f.isSpan = false) (hgs : g.isSpan = false) (hbase : f.base = g.base) :
    f = g := by
  by_contra hne
  have hfpos : 0 < f.size := h.size_pos f hf
  have hgpos : 0 < g.size := h.size_pos g hg
  have := h.disjoint hr hf hg hne hfs hgs
  omega

/-- The state of an arena between two calls; `r` says whether segments may leave gaps. -/
structure Inv (r : ℕ → ℕ → Prop) (s : State E) : Prop where
  linked : Linked none s.arena
  tiled : Tiled r (view s.arena)
  own : Own (view s.arena)
  live : s.live.Perm (allocs (view s.arena))

/-- A release removes from the live ranges the one that is released. -/
theorem live_erase {r : ℕ → ℕ → Prop} (hr : IsGap r) {live : List (ℕ × ℕ)} {addr : ℕ}
    (ht : Tiled r V) (hperm : live.Perm (allocs V)) (hlive : addr ∈ live.map Prod.fst)
    (hbase : g.base = addr) (hfree : (allocs V).Perm ((g.base, g.size) :: allocs V')) :
    (live.eraseP fun a => a.1 = addr).Perm (allocs V') := by
  obtain ⟨x, hx, hxaddr⟩ := List.mem_map.mp hlive
  obtain ⟨y, l₁, l₂, -, hy, hsplit, herase⟩ :=
    List.exists_of_eraseP (p := fun a => a.1 = addr) hx (decide_eq_true hxaddr)
  -- the range erased is the one of the segment released: addresses determine segments
  have hymem : y ∈ allocs V :=
    hperm.mem_iff.mp (hsplit ▸ List.mem_append_right _ List.mem_cons_self)
  have hgmem : (g.base, g.size) ∈ allocs V := hfree.mem_iff.mpr List.mem_cons_self
  have hseg := ht.eq_of_base hr (mem_allocs.mp hymem) (mem_allocs.mp hgmem) rfl rfl
    ((of_decide_eq_true hy).trans hbase.symm)
  obtain rfl : y = (g.base, g.size) := by
    injection hseg with _ hbase hsize
    exact Prod.ext hbase hsize
  rw [herase]
  refine List.Perm.cons_inv (a := (g.base, g.size)) ?_
  have hlist : (l₁ ++ (g.base, g.size) :: l₂).Perm (allocs V) := hsplit ▸ hperm
  exact (List.perm_middle.symm.trans hlist).trans hfree

/-- One step keeps the invariant, as far as the tiling survives a range that is dropped. -/
theorem inv_step {r : ℕ → ℕ → Prop} (hr : IsGap r) (hi : Inv r s) (hf : fits s a = true)
    (hdrop : ∀ pool addr L g R, a = .vmemXfree pool addr → g.type = .kVMemSegAllocated →
      g.base = addr → view s.arena = L ++ g :: R → (∀ f ∈ L.getLast?, f.type ≠ .kVMemSegFree) →
      (∀ e ∈ R.head?, e.type ≠ .kVMemSegFree) → Tiled r (L ++ R))
    (hs : step s a = some s') : Inv r s' := by
  obtain ⟨hlink, hstep⟩ := step_cases hi.linked (hi.tiled.head_isSpan hr) hs
  have hown := own_step hi.own hstep
  -- the specification of the call gives the edit of the view; each edit keeps the tiling
  cases hstep with
  | add hok hv hl =>
      exact ⟨hlink, tiles_adds hr hi.tiled hv hok.1 hok.2.1 hok.2.2.1 hok.2.2.2, hown, by
        rw [hl, hv.allocs_eq]; exact hi.live⟩
  | fail hv hl => exact ⟨hlink, hv ▸ hi.tiled, hown, by rw [hl, hv]; exact hi.live⟩
  | alloc hpos hv hl =>
      have hnot : ∀ f ∈ view s.arena, Fooled f _ _ _ = false := fun f hmem =>
        Bool.not_eq_true' _ ▸ List.all_eq_true.mp hf f hmem
      refine ⟨hlink, tiles_allocates hr hi.tiled hpos hv hnot, hown, ?_⟩
      rw [hl]
      exact (hi.live.cons _).trans hv.allocs_eq.symm
  | free hlive hg hbase hv hl =>
      refine ⟨hlink, ?_, hown, ?_⟩
      · exact tiles_releases hr hi.tiled (isSpan_of_allocated hg) hv
          fun L R hV => hdrop _ _ L _ R rfl hg hbase hV
      · rw [hl]
        exact live_erase hr hi.tiled hi.live hlive hbase (hv.allocs_eq hg)

/-- In an arena without segments the containers agree. -/
theorem linked_empty {seg : Tag → Seg} {pool : List Tag} {env : E} (hpool : pool.Nodup) :
    Linked none (⟨seg, [], [], fun _ => [], fun _ => [], pool, env⟩ : Arena E) where
  nodup := List.nodup_nil
  pool_nodup := hpool
  pool_disjoint _ _ := List.not_mem_nil
  free_iff _ _ := ⟨fun h => (by cases h), fun h => (by cases h.2.1)⟩
  hash_iff _ _ := ⟨fun h => (by cases h), fun h => (by cases h.2.1)⟩
  free_nodup _ := List.nodup_nil
  hash_nodup _ := List.nodup_nil
  spans_eq := rfl

/-- The first span of an arena. -/
theorem Adds.of_nil {base size : ℕ} (h : Adds base size [] V) :
    V = [⟨.kVMemSegSpan, base, size⟩, ⟨.kVMemSegFree, base, size⟩] := by
  obtain ⟨A, B, hnil, -, -, hV⟩ := h.split
  obtain ⟨rfl, rfl⟩ := List.append_eq_nil_iff.mp hnil.symm
  exact hV

/-- **`vmem_init`** sets up one span, which is free, or no segments. -/
theorem vmemInit_spec {src : Option (Source E)} {seg : Tag → Seg} {pool : List Tag} {env : E} {base size : ℕ}
    {v : Arena E} (hpool : pool.Nodup) (h : vmemInit src seg pool env base size = some v) :
    Linked none v ∧ ((size ≠ 0 ∧ src.isNone = true) ∧ Adds base size [] (view v) ∨
      ¬ (size ≠ 0 ∧ src.isNone = true) ∧ view v = []) := by
  have hlink : Linked none (⟨seg, [], [], fun _ => [], fun _ => [], pool, env⟩ : Arena E) :=
    linked_empty hpool
  unfold vmemInit at h
  split at h
  · rename_i hne
    obtain ⟨hlink', hadds⟩ := vmemAdd_spec hlink nofun h
    exact ⟨hlink', .inl ⟨hne, hadds⟩⟩
  · rename_i hne
    rw [← Option.some.inj h]
    exact ⟨hlink, .inr ⟨hne, rfl⟩⟩

/-- What `vmem_init` sets up satisfies the invariant, and no two free segments are neighbours. -/
theorem inv_initial {r : ℕ → ℕ → Prop} (hr : IsGap r) (h : Initial s) :
    Inv r s ∧ Apart false (view s.arena) := by
  obtain ⟨hlive, seg, pool, env, base, size, hpool, hsize, hfin, hinit⟩ := h
  have htile : Tiled r [] := hr.refl 0
  -- an arena starts with one span, or with none when the size is 0
  obtain ⟨hlink, ⟨hne, hadds⟩ | ⟨-, hnil⟩⟩ := vmemInit_spec hpool hinit
  · refine ⟨⟨hlink, ?_, ?_, ?_⟩, apart_adds (V := []) trivial hadds⟩
    · exact tiles_adds hr htile hadds (Nat.pos_of_ne_zero hne.1) hsize hfin nofun
    · have hadd : Step ⟨⟨seg, [], [], fun _ => [], fun _ => [], pool, env⟩, []⟩ (.vmemAdd [] base size) s :=
        .add ⟨Nat.pos_of_ne_zero hne.1, hsize, hfin, nofun⟩ hadds hlive
      refine own_step ?_ hadd
      nofun
    · rw [hlive, hadds.allocs_eq]
      exact .nil
  · refine ⟨⟨hlink, ?_, ?_, ?_⟩, ?_⟩
    · rw [hnil]
      exact htile
    · rw [hnil]
      nofun
    · rw [hlive, hnil]
      exact .nil
    · rw [hnil]
      trivial

/-! ## Live ranges -/

/-- A segment without free neighbours may be dropped where gaps are allowed. -/
theorem tiled_drop {L R : List Seg} (hg : g.isSpan = false) (h : Tiled (· ≤ ·) (L ++ g :: R)) :
    Tiled (· ≤ ·) (L ++ R) :=
  h.edit isGap_le (by decide) fun _ _ _ _ _ ht => ht.drop hg

/-- The invariant says that the live ranges are sound. -/
theorem Inv.liveSound {r : ℕ → ℕ → Prop} (hr : IsGap r) (hi : Inv r s) : LiveSound s := by
  have hmem : ∀ x ∈ s.live, ⟨.kVMemSegAllocated, x.1, x.2⟩ ∈ view s.arena :=
    fun x hx => mem_allocs.mp (hi.live.mem_iff.mp hx)
  constructor
  case disjoint =>
    refine (List.Perm.pairwise_iff (fun hab => hab.symm) hi.live).mpr ?_
    refine List.pairwise_filterMap.mpr ((hi.tiled.pairwise hr).imp ?_)
    intro f g hfg x hx y hy
    split at hx
    · split at hy
      · rename_i hf hg
        cases hx
        cases hy
        exact .inl (hfg (isSpan_of_allocated hf))
      · cases hy
    · cases hx
  case in_span =>
    intro x hx
    obtain ⟨t, ht, hspan, hle, hge⟩ := hi.tiled.in_span hr (hmem x hx) rfl
    exact ⟨t, ht, hspan, hle, hge⟩
  case off_free =>
    -- a live range and a free segment are different segments of one tiling
    intro x hx f hf hfree
    refine hi.tiled.disjoint hr (hmem x hx) hf ?_ rfl (isSpan_of_free hfree)
    rintro rfl
    cases hfree

/-- The invariant holds in every run in which no request meets a free segment that would serve it
beyond its end. -/
theorem inv_reach {s₀ : State E} (h₀ : Initial s₀)
    (h : (machine E).Reach (fun s a => fits s a = true) s₀ s) : Inv (· ≤ ·) s := by
  refine h.invariant (inv_initial isGap_le h₀).1 ?_
  intro s a s' hi hf hs
  refine inv_step isGap_le hi hf ?_ hs
  intro _ _ L g R _ hg _ hV _ _
  exact tiled_drop (isSpan_of_allocated hg) (hV ▸ hi.tiled)

/-- **No address is handed out twice.** In every run of an arena without a source in which no request
meets a free segment that would serve it beyond its end, the live ranges are pairwise disjoint, each
lies in a span, and none of them meets a free segment. -/
theorem vmem_live_sound {s₀ : State E} (h₀ : Initial s₀)
    (h : (machine E).Reach (fun s a => fits s a = true) s₀ s) : LiveSound s :=
  (inv_reach h₀ h).liveSound isGap_le

/-- An arena that has just been set up without a span. -/
def emptyState : State Unit :=
  ⟨⟨fun _ => ⟨.kVMemSegFree, 0, 0⟩, [], [], fun _ => [], fun _ => [], [], ()⟩, []⟩

/-- It is what `vmem_init` leaves when it is given no size. -/
theorem initial_emptyState : Initial emptyState :=
  ⟨rfl, fun _ => ⟨.kVMemSegFree, 0, 0⟩, [], (), 0, 0, List.nodup_nil, by decide, by decide, rfl⟩

/-- A run that allocates twice from one span, once at a given address. -/
theorem vmem_live_sound_exact :
    ∃ s, (machine Unit).exec emptyState
        [.vmemAdd [0, 1] 0x1000 0x4000, .vmemXalloc [2, 3] 0x1000 0 0 0x2000 0 ⟨true⟩,
          .vmemXalloc [4, 5] 0x800 0 0 0 0 ⟨false⟩] = some s ∧
      s.live = [(0x1000, 0x800), (0x2000, 0x1000)] ∧ LiveSound s := by
  have hrun : ((machine Unit).exec emptyState
      [.vmemAdd [0, 1] 0x1000 0x4000, .vmemXalloc [2, 3] 0x1000 0 0 0x2000 0 ⟨true⟩,
        .vmemXalloc [4, 5] 0x800 0 0 0 0 ⟨false⟩]).map State.live
      = some [(0x1000, 0x800), (0x2000, 0x1000)] := by decide
  obtain ⟨s, hs, hlive⟩ := Option.map_eq_some_iff.mp hrun
  refine ⟨s, hs, hlive, ?_⟩
  exact vmem_live_sound initial_emptyState
    (Machine.reach_of_exec (c := fits) (fun _ _ hc => hc) (by decide) hs)

/-- **A range beyond its span.** In a span of 600 bytes near the top of the address space a request
for 1000 bytes is served: its end wraps to zero, which is not beyond the end of the span. -/
theorem vmem_xalloc_wraps :
    ¬ ∀ (s₀ s : State Unit), Initial s₀ → (machine Unit).Reachable s₀ s → LiveSound s := by
  intro h
  have hrun : ((machine Unit).exec emptyState
      [.vmemAdd [0, 1] (2 ^ 64 - 1000) 600, .vmemXalloc [2, 3] 1000 0 0 0 0 ⟨false⟩]).map
        (fun s => (s.live, view s.arena)) = some ([(2 ^ 64 - 1000, 1000)],
          [⟨.kVMemSegSpan, 2 ^ 64 - 1000, 600⟩, ⟨.kVMemSegAllocated, 2 ^ 64 - 1000, 1000⟩,
            ⟨.kVMemSegFree, 0, 2 ^ 64 - 400⟩]) := by decide
  obtain ⟨s, hs, hview⟩ := Option.map_eq_some_iff.mp hrun
  obtain ⟨hlive, hview⟩ := Prod.mk.inj hview
  have hin := (h _ s initial_emptyState (Machine.reachable_of_exec hs)).in_span
  rw [hlive, hview] at hin
  revert hin
  decide

/-! ## The tiling -/

/-- Segments that cover a range do not run backwards. -/
theorem Covers.le {lo hi : ℕ} {l : List Seg} (h : Covers lo hi l) : lo ≤ hi := by
  induction l generalizing lo with
  | nil => exact le_of_eq h
  | cons t l ih => exact (Nat.le_add_right _ _).trans (ih h.2.2.2)

/-- A segment that is not a span marker is free or allocated. -/
theorem free_or_allocated {t : Seg} (h : t.isSpan = false) :
    t.type = .kVMemSegFree ∨ t.type = .kVMemSegAllocated := by
  unfold Seg.isSpan at h
  split at h
  · cases h
  · cases h
  · exact .inl ‹_›
  · exact .inr ‹_›

/-- A tiling without gaps splits into the rest of the open span and groups. -/
theorem exists_groups {p hi : ℕ} (h : segScale.Tiles (· = ·) p hi V) :
    ∃ (first : List Seg) (G : List (Seg × List Seg)),
      V = first ++ G.flatMap (fun g => g.1 :: g.2) ∧ Covers p hi first ∧
      (∀ g ∈ G, hi ≤ g.1.base) ∧ (G.Pairwise fun g h => g.1.base + g.1.size ≤ h.1.base) ∧
      ∀ g ∈ G, g.1.isSpan = true ∧ Covers g.1.base (g.1.base + g.1.size) g.2 := by
  -- a span closes the group before it and opens its own
  induction V generalizing p hi with
  | nil => exact ⟨[], [], rfl, h, by simp, .nil, by simp⟩
  | cons t V ih =>
      cases ht : t.isSpan with
      | true =>
          obtain ⟨⟨hclosed, hle, -⟩, hrest⟩ := (Scale.tiles_mark (S := segScale) ht).mp h
          obtain ⟨first, G, rfl, hcov, habove, hpair, hgroups⟩ := ih hrest
          refine ⟨[], (t, first) :: G, rfl, hclosed, ?_, .cons habove hpair, ?_⟩
          · intro g hg
            rcases List.mem_cons.mp hg with rfl | hg
            · exact hle
            · exact hle.trans ((Nat.le_add_right _ _).trans (habove g hg))
          · intro g hg
            rcases List.mem_cons.mp hg with rfl | hg
            · exact ⟨ht, hcov⟩
            · exact hgroups g hg
      | false =>
          obtain ⟨⟨hgap, hpos⟩, hrest⟩ := (Scale.tiles_cons (S := segScale) ht).mp h
          obtain ⟨first, G, rfl, hcov, hG⟩ := ih hrest
          have hbase : t.base = p := Eq.symm hgap
          refine ⟨t :: first, G, rfl, ⟨free_or_allocated ht, hbase, hpos, ?_⟩, hG⟩
          rw [← hbase]
          exact hcov

/-- A tiling without gaps, in which no two neighbours are free, is one group per span. -/
theorem Tiled.grouped (h : Tiled (· = ·) V) (ha : Apart false V) : Grouped V := by
  refine ⟨?_, ha.isChain⟩
  obtain ⟨first, G, rfl, hcov, -, hpair, hgroups⟩ := exists_groups h
  cases first with
  | nil => exact ⟨G, rfl, hpair, hgroups⟩
  | cons t first =>
      -- nothing fits before the first span marker
      obtain ⟨-, -, hpos, hrest⟩ := hcov
      have := hrest.le
      omega

/-- A segment with a free neighbour is not one of those that `vmem_xfree` drops. -/
theorem not_lost_of_freeBeside {b : Bool} {addr : ℕ} {L R : List Seg}
    (h : freeBeside addr b (L ++ g :: R) = true) (hg : g.type = .kVMemSegAllocated)
    (hbase : g.base = addr) :
    apartScan.after b L = true ∨ ∃ e ∈ R.head?, e.type = .kVMemSegFree := by
  induction L generalizing b with
  | nil =>
      rw [List.nil_append, freeBeside, if_pos ⟨hg, hbase⟩, Bool.and_eq_true, Bool.or_eq_true] at h
      refine h.1.imp id fun hany => ?_
      obtain ⟨e, he, hfree⟩ := (Option.any_eq_true _ _).mp hany
      exact ⟨e, he, of_decide_eq_true hfree⟩
  | cons t L ih =>
      rw [List.cons_append, freeBeside, Bool.and_eq_true] at h
      exact ih h.2

/-- Without gaps a segment begins where the one before it ends. -/
theorem next_of_tiles {p hi : ℕ} {f : Seg} {R : List Seg} (hf : f.isSpan = false)
    (hg : g.isSpan = false) (h : segScale.Tiles (· = ·) p hi (f :: g :: R)) :
    f.base + f.size = g.base := by
  obtain ⟨-, hrest⟩ := (Scale.tiles_cons (S := segScale) hf).mp h
  exact ((Scale.tiles_cons (S := segScale) hg).mp hrest).1.1

/-- The range of a segment that is coalesced is part of a free segment afterwards. -/
theorem isFreeRange_releases (h : Tiled (· = ·) V) (hg : g.isSpan = false) (hrel : Releases g V V')
    (hdrop : ∀ L R, V = L ++ g :: R → (∀ f ∈ L.getLast?, f.type ≠ .kVMemSegFree) →
      ∃ e ∈ R.head?, e.type = .kVMemSegFree) : IsFreeRange V' g.base g.size := by
  -- the range of the block lies in the free segment that it became part of
  cases hrel with
  | both L f e R hf he =>
      obtain ⟨p, hi, -, -, hlt, ht, -⟩ := h.split isGap_eq (by decide)
      have hnext := next_of_tiles (isSpan_of_free hf) hg ht
      obtain ⟨hsum, ht⟩ := tiles_join isGap_eq hlt (isSpan_of_free hf) hg ht
      obtain ⟨hsum', -⟩ := tiles_join isGap_eq hlt rfl (isSpan_of_free he) ht
      refine ⟨_, List.mem_append_right _ List.mem_cons_self, rfl, ?_, ?_⟩
      · exact hnext ▸ Nat.le_add_right _ _
      · rw [hsum, add64, Nat.add_comm e.size, ← add64, hsum']
        dsimp only
        omega
  | left L f R hf hR =>
      obtain ⟨p, hi, -, -, hlt, ht, -⟩ := h.split isGap_eq (by decide)
      have hnext := next_of_tiles (isSpan_of_free hf) hg ht
      obtain ⟨hsum, -⟩ := tiles_join isGap_eq hlt (isSpan_of_free hf) hg ht
      refine ⟨_, List.mem_append_right _ List.mem_cons_self, rfl, ?_, ?_⟩
      · exact hnext ▸ Nat.le_add_right _ _
      · rw [hsum]
        dsimp only
        omega
  | right L e R he hL =>
      obtain ⟨p, hi, -, -, hlt, ht, -⟩ := h.split isGap_eq (by decide)
      obtain ⟨hsum, -⟩ := tiles_join isGap_eq hlt hg (isSpan_of_free he) ht
      refine ⟨_, List.mem_append_right _ List.mem_cons_self, rfl, le_rfl, ?_⟩
      rw [add64, Nat.add_comm e.size, ← add64, hsum]
      dsimp only
      omega
  -- the only case that leaves the segment Allocated is the one that `hdrop` excludes
  | lost L R hL hR =>
      obtain ⟨e, he, hfree⟩ := hdrop L R rfl hL
      exact absurd hfree (hR e he)

/-- In a step that meets the condition no segment is dropped. -/
theorem free_after_of_coalesces {pool : List Tag} {addr : ℕ} {L R : List Seg}
    (hc : coalesces s (.vmemXfree pool addr) = true) (hg : g.type = .kVMemSegAllocated)
    (hbase : g.base = addr) (hV : view s.arena = L ++ g :: R)
    (hL : ∀ f ∈ L.getLast?, f.type ≠ .kVMemSegFree) : ∃ e ∈ R.head?, e.type = .kVMemSegFree := by
  rw [coalesces, hV] at hc
  refine (not_lost_of_freeBeside hc hg hbase).resolve_left ?_
  rw [apart_after_of_last hL]
  exact Bool.false_ne_true

/-- A step leaves no free neighbours. -/
theorem apart_step (h : Apart false (view s.arena)) (hs : Step s a s') :
    Apart false (view s'.arena) := by
  cases hs with
  | add hok hv hl => exact apart_adds h hv
  | fail hv hl => exact hv ▸ h
  | alloc hpos hv hl => exact apart_allocates h hv
  | free hlive hg hbase hv hl => exact apart_releases h hg hv

/-- A range that is freed where it can be coalesced is free afterwards. -/
theorem Inv.freesRange (hi : Inv (· = ·) s) : FreesRange coalesces s := by
  intro pool addr size hlive hpool hc
  have hmem := mem_allocs.mp (hi.live.mem_iff.mp hlive)
  obtain ⟨n, v', hfree⟩ := vmemXfree_isSome (linked_withPool hi.linked hpool)
    (hi.tiled.head_isSpan isGap_eq) hi.own hmem rfl rfl
  obtain ⟨-, g, hg, hbase, -, hrel⟩ := vmemXfree_spec (linked_withPool hi.linked hpool) hfree
  refine ⟨⟨v', s.live.eraseP fun a => a.1 = addr⟩, ?_, ?_⟩
  · rw [step, if_pos ⟨hpool, List.mem_map.mpr ⟨_, hlive, rfl⟩⟩, hfree]
    rfl
  · -- the segment released is the one of the live range
    have hgmem : (g.base, g.size) ∈ allocs (view s.arena) :=
      (hrel.allocs_eq hg).mem_iff.mpr List.mem_cons_self
    have hseg := hi.tiled.eq_of_base isGap_eq (mem_allocs.mp hgmem) hmem rfl rfl hbase
    obtain rfl : g.size = size := congrArg Seg.size hseg
    subst hbase
    exact isFreeRange_releases hi.tiled (isSpan_of_allocated hg) hrel
      fun L R hV => free_after_of_coalesces hc hg rfl hV

/-- **The tiling.** In every run of an arena without a source in which no request meets a free
segment that would serve it beyond its end, and only segments with a free neighbour are released:
the queue is, in ascending order, one group per span that covers it exactly, no two neighbours are
free, and a release returns and leaves the range in a free segment. -/
theorem vmem_groups {s₀ : State E} (h₀ : Initial s₀)
    (h : (machine E).Reach (fun s a => fits s a = true ∧ coalesces s a = true) s₀ s) :
    Grouped (view s.arena) ∧ FreesRange coalesces s := by
  have hinv : Inv (· = ·) s ∧ Apart false (view s.arena) := by
    refine h.invariant (I := fun s => Inv (· = ·) s ∧ Apart false (view s.arena))
      (inv_initial isGap_eq h₀) ?_
    intro s a s' hi hc hs
    have hstep := (step_cases hi.1.linked (hi.1.tiled.head_isSpan isGap_eq) hs).2
    refine ⟨inv_step isGap_eq hi.1 hc.1 ?_ hs, apart_step hi.2 hstep⟩
    rintro pool addr L g R rfl hg hbase hV hL hR
    obtain ⟨e, he, hfree⟩ := free_after_of_coalesces hc.2 hg hbase hV hL
    exact absurd hfree (hR e he)
  exact ⟨hinv.1.tiled.grouped hinv.2, hinv.1.freesRange⟩

/-- A run that allocates two halves of a span and frees the first: it has been split off at its left,
so that it is coalesced. -/
theorem vmem_groups_coalesced :
    ∃ s, (machine Unit).exec emptyState
        [.vmemAdd [0, 1] 0x1000 0x4000, .vmemXalloc [2, 3] 0x1000 0 0 0x2000 0 ⟨true⟩,
          .vmemXalloc [4, 5] 0x800 0 0 0x3000 0 ⟨true⟩, .vmemXfree [6] 0x2000] = some s ∧
      s.live = [(0x3000, 0x800)] ∧ Grouped (view s.arena) ∧ FreesRange coalesces s := by
  have hrun : ((machine Unit).exec emptyState
      [.vmemAdd [0, 1] 0x1000 0x4000, .vmemXalloc [2, 3] 0x1000 0 0 0x2000 0 ⟨true⟩,
        .vmemXalloc [4, 5] 0x800 0 0 0x3000 0 ⟨true⟩, .vmemXfree [6] 0x2000]).map State.live
      = some [(0x3000, 0x800)] := by decide
  obtain ⟨s, hs, hlive⟩ := Option.map_eq_some_iff.mp hrun
  refine ⟨s, hs, hlive, ?_⟩
  exact vmem_groups initial_emptyState
    (Machine.reach_of_exec (c := fun s a => fits s a && coalesces s a)
      (fun _ _ hc => Bool.and_eq_true_iff.mp hc) (by decide) hs)

/-- **A lost range.** A span that is allocated as a whole and freed again is not free afterwards: its
group is empty. -/
theorem vmem_xfree_loses :
    ¬ ∀ (s₀ s : State Unit), Initial s₀ → (machine Unit).Reachable s₀ s →
      Grouped (view s.arena) ∧ FreesRange (fun _ _ => true) s := by
  intro h
  -- one span, allocated whole and freed: the segment is put on no list and dropped
  have hrun : ((machine Unit).exec emptyState
      [.vmemAdd [0, 1] 0x1000 0x1000, .vmemXalloc [2, 3] 0x1000 0 0 0 0 ⟨false⟩,
        .vmemXfree [] 0x1000]).map (fun s => view s.arena)
      = some [⟨.kVMemSegSpan, 0x1000, 0x1000⟩] := by decide
  obtain ⟨s, hs, hview⟩ := Option.map_eq_some_iff.mp hrun
  obtain ⟨⟨G, hV, -, hgroups⟩, -⟩ :=
    (h _ s initial_emptyState (Machine.reachable_of_exec hs)).1
  rw [hview] at hV
  cases G with
  | nil => cases hV
  | cons g G =>
      rw [List.flatMap_cons, List.cons_append, List.cons.injEq] at hV
      obtain ⟨hspan, hrest⟩ := hV
      obtain ⟨hempty, -⟩ := List.append_eq_nil_iff.mp hrest.symm
      have hcov := (hgroups g List.mem_cons_self).2
      rw [hempty, ← hspan] at hcov
      have : 0x1000 = 0x1000 + 0x1000 := hcov
      omega

end Scalux.Vmem
