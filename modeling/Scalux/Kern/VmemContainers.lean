import Scalux.Kern.VmemSource

/-! # The containers of an arena in every run

Runs of the calls on any arena, with or without a source.  The lists are what the code's comments say
they are, and `vmem_xfree` finds the segment of the range it is given, as long as no two live ranges
begin at the same address.

That last part can fail: the comparison of `vmem_xalloc` is over wrapped sums, and a request that is
served beyond the end of a free segment (`Fooled`) leaves a remainder that lies in another span.  So
the result is about the runs without such requests.

* **`vmem_containers`**: the free lists, the hash buckets and the span list hold exactly the segments
  of the queue they should, and the hash bucket of a live range leads to its own segment. -/

namespace Scalux.Vmem

variable {E : Type} {src : Option (Source E)} {s s' : State E} {a : Action} {V V' : List Seg} {g : Seg}

/-! ## The calls -/

/-- One call on an arena with the given source.  `none`: an assertion fails or a link is null, or the
call is not one of those considered: the range freed is live, and `min + size` does not wrap. -/
def sourceStep (src : Option (Source E)) (s : State E) : Action → Option (State E)
  | .vmemAdd pool base size =>
      if PoolOk s.arena pool then
        (vmemAdd (withPool s.arena pool) base size).map fun v => ⟨v, s.live⟩
      else none
  | .vmemXalloc pool size align phase min max flags =>
      if PoolOk s.arena pool ∧ size < 2 ^ 64 ∧ min + size ≤ 2 ^ 64 then
        (vmemXalloc src (withPool s.arena pool) size align phase min max flags).map fun r =>
          ⟨r.2, match r.1 with
            | .ok addr => (addr, size) :: s.live
            | .error _ => s.live⟩
      else none
  | .vmemXfree pool addr =>
      if PoolOk s.arena pool ∧ addr ∈ s.live.map Prod.fst then
        (vmemXfree src (withPool s.arena pool) addr).map fun r =>
          ⟨r.2, s.live.eraseP fun a => a.1 = addr⟩
      else none

/-- The calls as a machine. -/
def sourceMachine (src : Option (Source E)) : Machine (State E) Action := ⟨sourceStep src⟩

/-- What `vmem_init` sets up. -/
structure SourceInitial (src : Option (Source E)) (s : State E) : Prop where
  live_eq : s.live = []
  arena_eq : ∃ seg pool env base size, pool.Nodup ∧ size < 2 ^ 64 ∧ base + size ≤ 2 ^ 64 ∧
    vmemInit src seg pool env base size = some s.arena

/-- A call keeps the rules of the interface: a span that is added, by the caller or by the source, is
not empty, does not wrap and overlaps no other, and the source leaves the arena its tags. -/
def Proper (src : Option (Source E)) (s : State E) : Action → Prop
  | .vmemAdd _ base size => SpanOk (view s.arena) base size
  | .vmemXalloc pool size _ _ _ _ flags => ∀ f ∈ src, LendsOk f (withPool s.arena pool) size flags
  | .vmemXfree pool _ => ∀ f ∈ src, TakesOk f (withPool s.arena pool)

/-! ## The properties -/

/-- The containers agree with the queue. -/
structure Containers (v : Arena E) : Prop where
  queue_nodup : v.segqueue.Nodup
  /-- `freelist[i]` holds the free segments of a size `s` with `floor(log2 s) = i`. -/
  freelist_iff : ∀ i t, t ∈ v.freelist i ↔ t ∈ v.segqueue ∧ (v.seg t).type = .kVMemSegFree ∧
    2 ^ i ≤ (v.seg t).size ∧ (v.seg t).size < 2 ^ (i + 1)
  freelist_nodup : ∀ i, (v.freelist i).Nodup
  /-- A hash bucket holds the allocated segments whose base hashes to it. -/
  hashtab_iff : ∀ i t, t ∈ v.hashtab i ↔ t ∈ v.segqueue ∧ (v.seg t).type = .kVMemSegAllocated ∧
    hashbucket (v.seg t).base = i
  hashtab_nodup : ∀ i, (v.hashtab i).Nodup
  /-- The span list holds the span markers in ascending order. -/
  spanlist_iff : ∀ t, t ∈ v.spanlist ↔ t ∈ v.segqueue ∧ (v.seg t).isSpan = true
  spanlist_nodup : v.spanlist.Nodup
  spanlist_sorted : v.spanlist.Pairwise fun t u => (v.seg t).base < (v.seg u).base

/-- `vmem_xfree` of a live range finds the segment of that range, and so does not reach `fatal`. -/
def FindsOwn (s : State E) : Prop :=
  ∀ addr size, (addr, size) ∈ s.live → ∃ t ∈ s.arena.segqueue,
    hashFind s.arena.seg addr (s.arena.hashtab (hashbucket addr)) = some t ∧
      s.arena.seg t = ⟨.kVMemSegAllocated, addr, size⟩

/-! ## What the calls do to the segments -/

/-- An import adds one range. -/
theorem Imports.allocs_eq {addr size : ℕ} (h : Imports addr size V V') :
    (allocs V').Perm ((addr, size) :: allocs V) := by
  obtain ⟨A, B, rfl, -, -, rfl⟩ := h.split
  rw [allocs_append, allocs_append]
  exact List.perm_middle

/-- An import of a range that overlaps no span keeps the intervals apart. -/
theorem tiles_imports {addr size : ℕ} (ht : Tiled (· ≤ ·) V) (hok : SpanOk V addr size)
    (h : Imports addr size V V') : Tiled (· ≤ ·) V' := by
  obtain ⟨A, B, rfl, hA, hB, rfl⟩ := h.split
  obtain ⟨hpos, hlt, htop, hapart⟩ := hok
  exact tiles_open isGap_le ht rfl rfl rfl rfl hA hB hpos hlt htop hapart

/-- A span that one segment fills may be given back. -/
theorem tiled_removeSpan {L R : List Seg} {m f : Seg} (ht : Tiled (· ≤ ·) (L ++ m :: f :: R))
    (hm : m.type = .kVMemSegSpanImported) (hf : f.isSpan = false) (hsize : f.size = m.size) :
    Tiled (· ≤ ·) (L ++ R) := by
  have hmark : segScale.mark m = true := by
    show m.isSpan = true
    rw [Seg.isSpan, hm]
  exact ht.edit isGap_le (by decide) fun _ _ _ _ _ ht => ht.removeSpan isGap_le hmark hf hsize

/-- A release keeps the intervals apart. -/
theorem tiles_releases_le (ht : Tiled (· ≤ ·) V) (hg : g.type = .kVMemSegAllocated)
    (h : Releases g V V') : Tiled (· ≤ ·) V' :=
  tiles_releases isGap_le ht (isSpan_of_allocated hg) h
    fun _ _ hV _ _ => tiled_drop (isSpan_of_allocated hg) (hV ▸ ht)

/-- A release keeps the intervals apart, also if a span is given back. -/
theorem tiles_releasesFrom (ht : Tiled (· ≤ ·) V) (hg : g.type = .kVMemSegAllocated)
    (h : ReleasesFrom g V V') : Tiled (· ≤ ·) V' := by
  cases h with
  | keep h => exact tiles_releases_le ht hg h
  | whole hm hsize => exact tiled_removeSpan ht hm (isSpan_of_allocated hg) hsize
  | rest hm hf hsize h => exact tiled_removeSpan (tiles_releases_le ht hg h) hm (isSpan_of_free hf) hsize

/-- A release removes one range, also if a span is given back. -/
theorem ReleasesFrom.allocs_eq (h : ReleasesFrom g V V') (hg : g.type = .kVMemSegAllocated) :
    (allocs V).Perm ((g.base, g.size) :: allocs V') := by
  have hmarker : ∀ {m : Seg} (X : List Seg), m.type = .kVMemSegSpanImported →
      allocs (m :: X) = allocs X := by
    intro m X hm
    simp [allocs, hm]
  cases h with
  | keep h => exact h.allocs_eq hg
  | whole hm hsize =>
      rw [allocs_append, hmarker _ hm, allocs_allocated hg, allocs_append]
      exact List.perm_middle
  | rest hm hf hsize h =>
      refine (h.allocs_eq hg).trans (.of_eq ?_)
      rw [allocs_append, hmarker _ hm, allocs_free hf, allocs_append]

/-! ## The invariant -/

/-- The state of an arena between two calls. -/
structure SourceInv (s : State E) : Prop where
  linked : Linked none s.arena
  tiled : Tiled (· ≤ ·) (view s.arena)
  live : s.live.Perm (allocs (view s.arena))

/-- What a call does to the segments and to the live ranges. -/
inductive SourceEffect (src : Option (Source E)) (s : State E) : Action → State E → Prop
  | add {pool : List Tag} {base size : ℕ} {v : Arena E} (hlink : Linked none v)
      (hadds : Adds base size (view s.arena) (view v)) :
      SourceEffect src s (.vmemAdd pool base size) ⟨v, s.live⟩
  | fail {pool : List Tag} {size align phase min max : ℕ} {flags : Flags} {v : Arena E}
      (hlink : Linked none v) (hview : view v = view s.arena) :
      SourceEffect src s (.vmemXalloc pool size align phase min max flags) ⟨v, s.live⟩
  | alloc {pool : List Tag} {size align phase min max addr : ℕ} {flags : Flags} {v : Arena E}
      (hlink : Linked none v) (hpos : 0 < size)
      (halloc : Allocates size min flags addr (view s.arena) (view v)) :
      SourceEffect src s (.vmemXalloc pool size align phase min max flags) ⟨v, (addr, size) :: s.live⟩
  | lend {pool : List Tag} {size align phase min max addr : ℕ} {flags : Flags} {v : Arena E}
      (hlink : Linked none v)
      (hcall : ∃ f ∈ src, ∃ pool e pool', f.allocfn s.arena.env pool size flags = some (.ok addr, e, pool'))
      (hspan : SpanOk (view s.arena) addr size) (himp : Imports addr size (view s.arena) (view v)) :
      SourceEffect src s (.vmemXalloc pool size align phase min max flags) ⟨v, (addr, size) :: s.live⟩
  | free {pool : List Tag} {addr : ℕ} {g : Seg} {v : Arena E} (hlink : Linked none v)
      (hlive : addr ∈ s.live.map Prod.fst) (hg : g.type = .kVMemSegAllocated) (hbase : g.base = addr)
      (hrel : ReleasesFrom g (view s.arena) (view v))
      (hhead : (∀ t ∈ (view s.arena).head?, t.isSpan = true) → ∀ t ∈ (view v).head?, t.isSpan = true) :
      SourceEffect src s (.vmemXfree pool addr) ⟨v, s.live.eraseP fun a => a.1 = addr⟩

/-- A request is refused, or served by a free segment or by an import. -/
theorem effect_vmemXalloc {pool : List Tag} {size align phase min max : ℕ} {flags : Flags}
    (hlink : Linked none s.arena) (hhead : ∀ t ∈ (view s.arena).head?, t.isSpan = true)
    (hpool : PoolOk s.arena pool) (hp : Proper src s (.vmemXalloc pool size align phase min max flags))
    (hs : (vmemXalloc src (withPool s.arena pool) size align phase min max flags).map (fun r =>
      (⟨r.2, match r.1 with
        | .ok addr => (addr, size) :: s.live
        | .error _ => s.live⟩ : State E)) = some s') :
    SourceEffect src s (.vmemXalloc pool size align phase min max flags) s' := by
  obtain ⟨⟨res, v⟩, hv, rfl⟩ := Option.map_eq_some_iff.mp hs
  obtain ⟨hlink, hsize, hres⟩ := vmemXalloc_source_spec (linked_withPool hlink hpool) hhead hp hv
  cases res with
  | error e => exact .fail hlink hres
  | ok addr =>
      rcases hres with halloc | ⟨hcall, hspan, himp⟩
      · exact .alloc hlink (Nat.pos_of_ne_zero hsize) halloc
      · exact .lend hlink hcall hspan himp

/-- **Each call** has one of these effects. -/
theorem sourceStep_effect (hlink : Linked none s.arena)
    (hhead : ∀ t ∈ (view s.arena).head?, t.isSpan = true) (hp : Proper src s a)
    (hs : sourceStep src s a = some s') : SourceEffect src s a s' := by
  -- each call of the interface, with the effect of its own specification
  cases a with
  | vmemAdd pool base size =>
      rw [sourceStep] at hs
      split at hs
      · rename_i hpool
        obtain ⟨v, hv, rfl⟩ := Option.map_eq_some_iff.mp hs
        obtain ⟨hlink, hadds⟩ := vmemAdd_spec (linked_withPool hlink hpool) hhead hv
        exact .add hlink hadds
      · cases hs
  | vmemXalloc pool size align phase min max flags =>
      rw [sourceStep] at hs
      split at hs
      · rename_i hok
        exact effect_vmemXalloc hlink hhead hok.1 hp hs
      · cases hs
  | vmemXfree pool addr =>
      rw [sourceStep] at hs
      split at hs
      · rename_i hok
        obtain ⟨⟨n, v⟩, hv, rfl⟩ := Option.map_eq_some_iff.mp hs
        obtain ⟨hlink, ⟨g, hg, hbase, hrel⟩, hhead⟩ :=
          vmemXfree_source_spec (linked_withPool hlink hok.1) hp hv
        exact .free hlink hok.2 hg hbase hrel hhead
      · cases hs

/-- A call that keeps the rules, and does not meet a free segment that would serve it beyond its end,
keeps the invariant. -/
theorem sourceInv_step (hi : SourceInv s) (hp : Proper src s a) (hf : fits s a = true)
    (hs : sourceStep src s a = some s') : SourceInv s' := by
  cases sourceStep_effect hi.linked (hi.tiled.head_isSpan isGap_le) hp hs with
  | add hlink hadds =>
      obtain ⟨hpos, hlt, htop, hapart⟩ := hp
      exact ⟨hlink, tiles_adds isGap_le hi.tiled hadds hpos hlt htop hapart,
        hi.live.trans (.of_eq hadds.allocs_eq.symm)⟩
  | fail hlink hview => exact ⟨hlink, hview ▸ hi.tiled, hview ▸ hi.live⟩
  | alloc hlink hpos halloc =>
      have hnot : ∀ f ∈ view s.arena, Fooled f _ _ _ = false := fun f hmem =>
        Bool.not_eq_true' _ ▸ List.all_eq_true.mp hf f hmem
      exact ⟨hlink, tiles_allocates isGap_le hi.tiled hpos halloc hnot,
        (hi.live.cons _).trans halloc.allocs_eq.symm⟩
  | lend hlink hcall hspan himp =>
      exact ⟨hlink, tiles_imports hi.tiled hspan himp, (hi.live.cons _).trans himp.allocs_eq.symm⟩
  | free hlink hlive hg hbase hrel hhead =>
      exact ⟨hlink, tiles_releasesFrom hi.tiled hg hrel,
        live_erase isGap_le hi.tiled hi.live hlive hbase (hrel.allocs_eq hg)⟩

/-- What `vmem_init` sets up satisfies the invariant. -/
theorem sourceInv_initial (h : SourceInitial src s) : SourceInv s := by
  obtain ⟨hlive, seg, pool, env, base, size, hpool, hsize, hfin, hinit⟩ := h
  have htile : Tiled (· ≤ ·) [] := Nat.le_refl 0
  obtain ⟨hlink, ⟨hne, hadds⟩ | ⟨-, hnil⟩⟩ := vmemInit_spec hpool hinit
  · refine ⟨hlink, tiles_adds isGap_le htile hadds (Nat.pos_of_ne_zero hne.1) hsize hfin nofun, ?_⟩
    rw [hlive, hadds.allocs_eq]
    exact .nil
  · refine ⟨hlink, ?_, ?_⟩
    · rw [hnil]
      exact htile
    · rw [hlive, hnil]
      exact .nil

/-! ## The result -/

/-- The invariant says that the containers agree with the queue. -/
theorem SourceInv.containers (hi : SourceInv s) : Containers s.arena where
  queue_nodup := hi.linked.nodup
  freelist_iff i t := by
    have hpos : t ∈ s.arena.segqueue → (s.arena.seg t).size ≠ 0 := fun ht =>
      Nat.pos_iff_ne_zero.mp (hi.tiled.size_pos _ (List.mem_map_of_mem ht))
    rw [hi.linked.free_iff i t]
    constructor
    · rintro ⟨-, ht, hfree, hclass⟩
      exact ⟨ht, hfree, (Nat.log2_eq_iff (hpos ht)).mp hclass⟩
    · rintro ⟨ht, hfree, hclass⟩
      exact ⟨by simp, ht, hfree, (Nat.log2_eq_iff (hpos ht)).mpr hclass⟩
  freelist_nodup := hi.linked.free_nodup
  hashtab_iff i t := by
    rw [hi.linked.hash_iff i t]
    exact ⟨fun h => h.2, fun h => ⟨by simp, h⟩⟩
  hashtab_nodup := hi.linked.hash_nodup
  spanlist_iff t := by rw [hi.linked.spans_eq, List.mem_filter]
  spanlist_nodup := hi.linked.spans_eq ▸ hi.linked.nodup.filter _
  spanlist_sorted := by
    rw [hi.linked.spans_eq, List.pairwise_filter]
    have hmarks : (view s.arena).Pairwise _ := Scale.Tiles.marks_pairwise hi.tiled
    rw [view, List.pairwise_map] at hmarks
    refine List.Pairwise.imp_of_mem ?_ hmarks
    -- two spans of the list are apart, so the order of their bases is strict
    intro t u ht hu hord htspan huspan
    have hpos : 0 < (s.arena.seg t).size := hi.tiled.size_pos _ (List.mem_map_of_mem ht)
    have hle : (s.arena.seg t).base + (s.arena.seg t).size ≤ (s.arena.seg u).base :=
      hord htspan huspan
    omega

/-- The invariant says that a live range is found: no other segment begins at its address. -/
theorem SourceInv.findsOwn (hi : SourceInv s) : FindsOwn s := by
  intro addr size hlive
  have hmem : ⟨.kVMemSegAllocated, addr, size⟩ ∈ view s.arena :=
    mem_allocs.mp (hi.live.mem_iff.mp hlive)
  obtain ⟨t₀, ht₀, hseg⟩ := List.mem_map.mp hmem
  have hbase₀ : (s.arena.seg t₀).base = addr := congrArg Seg.base hseg
  have hbucket₀ : t₀ ∈ s.arena.hashtab (hashbucket addr) :=
    (hi.linked.hash_iff _ t₀).mpr ⟨by simp, ht₀, congrArg Seg.type hseg, by rw [hbase₀]⟩
  obtain ⟨t, hfind⟩ := hashFind_isSome hbucket₀ hbase₀
  obtain ⟨hbucket, hbase⟩ := hashFind_some hfind
  obtain ⟨-, ht, halloc, -⟩ := (hi.linked.hash_iff _ t).mp hbucket
  refine ⟨t, ht, hfind, ?_⟩
  exact hi.tiled.eq_of_base isGap_le (List.mem_map_of_mem ht) hmem (isSpan_of_allocated halloc) rfl
    hbase

/-- The invariant holds in every run of calls that keep the rules and fit. -/
theorem sourceInv_reach {s₀ : State E} (h₀ : SourceInitial src s₀)
    (h : (sourceMachine src).Reach (fun s a => Proper src s a ∧ fits s a = true) s₀ s) :
    SourceInv s := by
  refine h.invariant (sourceInv_initial h₀) ?_
  intro s a s' hi hc hs
  exact sourceInv_step hi hc.1 hc.2 hs

/-- **The containers agree with the queue.** In every run of an arena, with any source or none, in
which the calls keep the rules of the interface and no request meets a free segment that would serve
it beyond its end: the free lists, the hash buckets and the span list hold exactly the segments they
should, each once, and `vmem_xfree` of a live range finds the segment of that range. -/
theorem vmem_containers {s₀ : State E} (h₀ : SourceInitial src s₀)
    (h : (sourceMachine src).Reach (fun s a => Proper src s a ∧ fits s a = true) s₀ s) :
    Containers s.arena ∧ FindsOwn s :=
  have hinv := sourceInv_reach h₀ h
  ⟨hinv.containers, hinv.findsOwn⟩

/-- A source that lends one range after another from a given address on. -/
def bumpSource : Source ℕ where
  allocfn next pool size _ :=
    if next + size ≤ 2 ^ 64 then some (.ok next, next + size, pool)
    else some (.error (-eResourceExhausted), next, pool)
  freefn next pool _ _ := some (next, pool)

/-- Its ranges are new as long as the spans of the arena end where it lends from. -/
theorem bumpSource_lendsOk {v : Arena ℕ} {size : ℕ} {flags : Flags} (hpos : 0 < size)
    (hlt : size < 2 ^ 64) (hbelow : ∀ s ∈ view v, s.isSpan = true → s.base + s.size ≤ v.env) :
    LendsOk bumpSource v size flags := by
  intro pool used r e pool' _ hunused hcall
  unfold bumpSource at hcall
  dsimp only at hcall
  split at hcall
  · rename_i hle
    cases hcall
    refine ⟨hunused, fun addr haddr => ?_⟩
    cases haddr
    exact ⟨hpos, hlt, hle, fun s hs hspan => .inl (hbelow s hs hspan)⟩
  · cases hcall
    exact ⟨hunused, fun addr haddr => by cases haddr⟩

/-- It puts no tags on the shared list. -/
theorem bumpSource_takesOk (v : Arena ℕ) : TakesOk bumpSource v := by
  intro pool used base size e pool' _ hunused hcall
  cases hcall
  exact hunused

/-- An arena with that source, before its first import. -/
def importing : State ℕ :=
  ⟨⟨fun _ => ⟨.kVMemSegFree, 0, 0⟩, [], [], fun _ => [], fun _ => [], [], 0x1000⟩, []⟩

/-- Two imports, and the first of them given back. -/
def importRun : List Action :=
  [.vmemXalloc [0, 1, 2, 3] 0x100 0 0 0 0 ⟨false⟩, .vmemXalloc [4, 5, 6, 7] 0x300 0 0 0 0 ⟨false⟩,
    .vmemXfree [8] 0x1000]

/-- The rules of the interface for calls on an arena with that source, as a test. -/
def bumpProper (s : State ℕ) : Action → Bool
  | .vmemAdd _ base size => decide (SpanOk (view s.arena) base size)
  | .vmemXalloc _ size _ _ _ _ _ => decide (0 < size) && decide (size < 2 ^ 64) &&
      (view s.arena).all fun t => !t.isSpan || decide (t.base + t.size ≤ s.arena.env)
  | .vmemXfree _ _ => true

/-- Calls that pass the test keep the rules. -/
theorem proper_of_bumpProper {s : State ℕ} {a : Action} (h : bumpProper s a = true) :
    Proper (some bumpSource) s a := by
  cases a with
  | vmemAdd pool base size =>
      have hok : SpanOk (view s.arena) base size := of_decide_eq_true h
      exact hok
  | vmemXalloc pool size align phase min max flags =>
      simp only [bumpProper, Bool.and_eq_true, decide_eq_true_eq, List.all_eq_true] at h
      rintro f ⟨⟩
      refine bumpSource_lendsOk h.1.1 h.1.2 fun t ht hspan => ?_
      have hle : t.base + t.size ≤ s.arena.env := by simpa [hspan] using h.2 t ht
      exact hle
  | vmemXfree pool addr =>
      rintro f ⟨⟩
      exact bumpSource_takesOk _

/-- A run with two imported spans, one of which is given back. -/
theorem vmem_containers_imported :
    ∃ s, (sourceMachine (some bumpSource)).exec importing importRun = some s ∧
      s.live = [(0x1100, 0x300)] ∧ Containers s.arena ∧ FindsOwn s := by
  have hrun : ((sourceMachine (some bumpSource)).exec importing importRun).map State.live
      = some [(0x1100, 0x300)] := by decide
  obtain ⟨s, hs, hlive⟩ := Option.map_eq_some_iff.mp hrun
  refine ⟨s, hs, hlive, ?_⟩
  have hinit : SourceInitial (some bumpSource) importing :=
    ⟨rfl, fun _ => ⟨.kVMemSegFree, 0, 0⟩, [], 0x1000, 0, 0, List.nodup_nil, by decide, by decide, rfl⟩
  refine vmem_containers hinit ?_
  refine Machine.reach_of_exec (c := fun s a => bumpProper s a && fits s a) ?_ (by decide) hs
  intro s a hc
  obtain ⟨hp, hf⟩ := Bool.and_eq_true_iff.mp hc
  exact ⟨proper_of_bumpProper hp, hf⟩

/-- The rules of the interface for calls on an arena without a source, as a test. -/
def spansOk (s : State E) : Action → Bool
  | .vmemAdd _ base size => decide (SpanOk (view s.arena) base size)
  | _ => true

/-- Calls that pass the test keep the rules. -/
theorem proper_of_spansOk (h : spansOk s a = true) : Proper none s a := by
  cases a with
  | vmemAdd pool base size =>
      have hok : SpanOk (view s.arena) base size := of_decide_eq_true h
      exact hok
  | vmemXalloc pool size align phase min max flags =>
      intro f hf
      cases hf
  | vmemXfree pool addr =>
      intro f hf
      cases hf

theorem sourceInitial_emptyState : SourceInitial none emptyState :=
  ⟨rfl, fun _ => ⟨.kVMemSegFree, 0, 0⟩, [], (), 0, 0, List.nodup_nil, by decide, by decide, rfl⟩

/-- **Two live ranges at one address.** A request that is served beyond the end of the span near the
top of the address space leaves a remainder that begins at zero, where another span begins; both
serve a request there, and freeing the first of the two finds the segment of the second. -/
theorem vmem_xfree_other :
    ¬ ∀ (s₀ s : State Unit), SourceInitial none s₀ →
      (sourceMachine none).Reach (Proper none) s₀ s → Containers s.arena ∧ FindsOwn s := by
  intro h
  have hrun : ((sourceMachine none).exec emptyState
      [.vmemAdd [0, 1] (2 ^ 64 - 1000) 600, .vmemAdd [2, 3] 0 0x1000,
        .vmemXalloc [4, 5] 1000 0 0 0 0 ⟨false⟩, .vmemXalloc [6, 7] 0x1000 0 0 0 0 ⟨false⟩,
        .vmemXalloc [8, 9] 8 0 0 0 0 ⟨false⟩]).map
      (fun s => (s.live, (hashFind s.arena.seg 0 (s.arena.hashtab (hashbucket 0))).map s.arena.seg))
      = some ([(0, 8), (0, 0x1000), (2 ^ 64 - 1000, 1000)], some ⟨.kVMemSegAllocated, 0, 8⟩) := by
    decide
  obtain ⟨s, hs, hres⟩ := Option.map_eq_some_iff.mp hrun
  obtain ⟨hlive, hfound⟩ := Prod.mk.inj hres
  have hreach : (sourceMachine (none : Option (Source Unit))).Reach (Proper none) emptyState s :=
    Machine.reach_of_exec (c := spansOk) (fun _ _ => proper_of_spansOk) (by decide) hs
  obtain ⟨t, -, hfind, hseg⟩ := (h _ s sourceInitial_emptyState hreach).2 0 0x1000 (by rw [hlive]; decide)
  rw [hfind, Option.map_some, hseg] at hfound
  cases hfound

end Scalux.Vmem
