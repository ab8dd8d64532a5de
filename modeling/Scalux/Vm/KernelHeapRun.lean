import Scalux.Vm.KernelHeapInv

/-! # Runs of the kernel heap

`vm_kfree` gives a block back through both arenas and unmaps its pages, and so every run of `vm_kalloc`
and `vm_kfree` keeps the two arenas and the page table in step.

* **`Inv.free`**: `vm_kfree` of a block returns, and the block is gone.
* **`kernel_heap`**: what holds in every state of every run. -/

namespace Scalux.KernelHeap

open Vmem (Arena Tag Seg view tags)

variable {h h' : Heap} {held : List Tag} {live : List (ℕ × ℕ)} {addr size : ℕ}

/-! ## Freeing a block -/

/-- A size below `2 ^ 31` is not changed when it becomes an `int`. -/
theorem bmod_of_lt {n : ℕ} (hn : n < 2 ^ 31) : Int.bmod n (2 ^ 32) = n := by
  rw [Int.bmod_def, if_pos]
  · omega
  · omega

/-- A page loop over a multiple of the page size below `2 ^ 31` does not overflow. -/
theorem loopOk_of_lt {n : ℕ} (hdvd : pgSize ∣ n) (hn : n < 2 ^ 31) : loopOk n = true := by
  obtain ⟨k, rfl⟩ := hdvd
  unfold loopOk
  rw [decide_eq_true_eq]
  unfold pgSize at hn ⊢
  omega

/-- Removing the range at an address removes the one range that begins there. -/
theorem perm_eraseP {l : List (ℕ × ℕ)} (hmem : (addr, size) ∈ l)
    (huniq : ∀ b ∈ l, b.1 = addr → b = (addr, size)) :
    l.Perm ((addr, size) :: l.eraseP fun a => a.1 = addr) := by
  obtain ⟨b, l₁, l₂, -, hb, rfl, herase⟩ :=
    List.exists_of_eraseP (p := fun a : ℕ × ℕ => a.1 = addr) hmem (decide_eq_true rfl)
  obtain rfl := huniq b (List.mem_append_right _ List.mem_cons_self) (of_decide_eq_true hb)
  rw [herase]
  exact List.perm_middle

/-- A block is determined by its address. -/
theorem Inv.block_unique (hi : Inv held [] live h) {b c : ℕ × ℕ} (hb : b ∈ blocks live h)
    (hc : c ∈ blocks live h) (heq : b.1 = c.1) : b = c := by
  have hseg := hi.kmap.tiled.eq_of_base isGap_le (Vmem.mem_allocs.mp (hi.kmap.live.mem_iff.mp hb))
    (Vmem.mem_allocs.mp (hi.kmap.live.mem_iff.mp hc)) rfl rfl heq
  injection hseg with _ hbase hsize
  exact Prod.ext hbase hsize

/-- `internal_freewired` of a block: `kmap.vmem` releases it and its pages are unmapped. -/
theorem Inv.freewired (hi : Inv held [] live h) (hb : (addr, size) ∈ blocks live h) :
    ∃ v ptes, internalFreewired h addr size = .ok { h.setArena .kmap v with ptes := ptes } ∧
      Vmem.Inv (· ≤ ·)
        (⟨v, (blocks live h).eraseP fun a => a.1 = addr⟩ : Vmem.State Unit) ∧
      Vmem.Quantized kheapBase kheapSize pgSize (view v) ∧
      (tags v).Perm (tags (h.arena .kmap)) ∧
      Mapped ((blocks live h).eraseP fun a => a.1 = addr) ptes ∧
      ∀ va page, ptes va = some page → h.ptes va = some page := by
  obtain ⟨hlo, hhi, hbdvd, hsdvd, hpos⟩ := hi.block hb
  have hlt : size < 2 ^ 31 := hi.small _ hb
  have hmem : ⟨.kVMemSegAllocated, addr, size⟩ ∈ view (h.arena .kmap) :=
    Vmem.mem_allocs.mp (hi.kmap.live.mem_iff.mp hb)
  obtain ⟨n, v, hfree⟩ := Vmem.vmemXfree_isSome hi.kmap.linked (hi.kmap.tiled.head_isSpan isGap_le)
    hi.kmap.own hmem rfl rfl
  obtain ⟨hq, hk⟩ := Vmem.quantized_xfree hi.kmap hi.quantized (by decide) hfree
  obtain ⟨-, g, hg, hgbase, hn, hrel⟩ := Vmem.vmemXfree_spec hi.kmap.linked hfree
  -- the segment released is the one of the block, so its size is reported
  have hgmem : (g.base, g.size) ∈ blocks live h :=
    hi.kmap.live.mem_iff.mpr ((hrel.allocs_eq hg).mem_iff.mpr List.mem_cons_self)
  have hgsize : g.size = size := congrArg Prod.snd (hi.block_unique hgmem hb hgbase)
  have hperm : (blocks live h).Perm ((addr, size) :: (blocks live h).eraseP fun a => a.1 = addr) :=
    perm_eraseP hb fun b hb' heq => hi.block_unique hb' hb heq
  have hmapped : Mapped ((addr, size) :: (blocks live h).eraseP fun a => a.1 = addr) h.ptes :=
    hi.mapped.perm hperm
  have hinheap : ∀ o, o < size → InHeap (addr + o) := fun o ho => ⟨by omega, by omega⟩
  have hall : ∀ o ∈ pageOffsets size, ((h.setArena .kmap v).ptes (addr + o)).isSome = true := by
    intro o ho
    obtain ⟨hdvd, holt⟩ := (mem_pageOffsets hsdvd (by omega) (by omega) hpos).mp ho
    refine (hmapped.iff _ (hinheap o holt)).mpr ⟨Nat.dvd_add hbdvd hdvd, _, List.mem_cons_self, ?_⟩
    exact ⟨Nat.le_add_right _ _, by dsimp only; omega⟩
  obtain ⟨ptes, hrun, hptes⟩ := unwirePages_spec (nodup_pageOffsets size) hall
  refine ⟨v, ptes, ?_, hk, hq, Vmem.vmemXfree_tags hi.kmap.linked hfree, ?_, ?_⟩
  · have hsize : Int.bmod size (2 ^ 32) = size := bmod_of_lt hlt
    have hxfree : orStop .assertion (Vmem.vmemXfree none (h.arena .kmap) addr)
        = .ok ((size : ℤ), v) := by
      rw [hfree, hn, hgsize, hsize]
      rfl
    unfold internalFreewired
    rw [hxfree, hsize]
    dsimp only [bind, Except.bind]
    rw [if_neg (Int.not_lt.mpr (Int.natCast_nonneg size)), Int.toNat_natCast,
      if_pos (loopOk_of_lt hsdvd hlt)]
    exact hrun
  · refine mapped_unwirePages hmapped hbdvd hsdvd hpos ?_ hptes
    have hapart : ((blocks live h).Pairwise fun a b => a.1 + a.2 ≤ b.1 ∨ b.1 + b.2 ≤ a.1) := hi.apart
    have hapart := (List.Perm.pairwise_iff (fun hab => hab.symm) hperm).mp hapart
    exact (List.pairwise_cons.mp hapart).1
  · intro va page hp
    rw [hptes va] at hp
    split at hp
    · cases hp
    · exact hp

/-- The segments around the allocated segment of a pair: its marker and other pairs. -/
theorem pairs_around {B : List (ℕ × ℕ)} {L R : List Seg}
    (hB : B.flatMap pairOf = L ++ ⟨.kVMemSegAllocated, addr, size⟩ :: R) :
    ∃ B₁ B₂, B = B₁ ++ (addr, size) :: B₂ ∧
      L = B₁.flatMap pairOf ++ [⟨.kVMemSegSpanImported, addr, size⟩] ∧ R = B₂.flatMap pairOf := by
  induction B generalizing L with
  | nil => exact absurd hB.symm (by simp)
  | cons b B ih =>
      rw [List.flatMap_cons, pairOf, List.cons_append, List.cons_append, List.nil_append] at hB
      -- the allocation is the second of its pair, so its span stands right before it
      cases L with
      | nil => exact absurd (List.cons.inj hB).1 (by simp)
      | cons s L =>
          rw [List.cons_append, List.cons.injEq] at hB
          obtain ⟨rfl, hB⟩ := hB
          cases L with
          | nil =>
              rw [List.nil_append, List.cons.injEq] at hB
              obtain ⟨heq, rfl⟩ := hB
              obtain rfl : b = (addr, size) := by
                injection heq with _ hbase hsize
                exact Prod.ext hbase hsize
              exact ⟨[], B, rfl, rfl, rfl⟩
          | cons s L =>
              rw [List.cons_append, List.cons.injEq] at hB
              obtain ⟨rfl, hB⟩ := hB
              obtain ⟨B₁, B₂, rfl, rfl, rfl⟩ := ih hB
              exact ⟨b :: B₁, B₂, rfl, rfl, rfl⟩

/-- The state behind the source does not matter for the containers. -/
theorem linked_withEnv {E F : Type} {x : Option Tag} {v : Arena E} (hv : Vmem.Linked x v) (env : F) :
    Vmem.Linked x (withEnv v env) where
  nodup := hv.nodup
  pool_nodup := hv.pool_nodup
  pool_disjoint := hv.pool_disjoint
  free_iff := hv.free_iff
  hash_iff := hv.hash_iff
  free_nodup := hv.free_nodup
  hash_nodup := hv.hash_nodup
  spans_eq := hv.spans_eq

/-- The hash table of `vm_kernel_wired` leads to the segment of a block, which stands between its
marker and other pairs. -/
theorem Inv.wired_find (hi : Inv held [] live h) (hb : (addr, size) ∈ blocks live h) :
    ∃ t B₁ B₂, Vmem.hashFind h.wired.seg addr (h.wired.hashtab (Vmem.hashbucket addr)) = some t ∧
      (B₁ ++ (addr, size) :: B₂).Perm (blocks live h) ∧
      Vmem.Around (h.arena .wired) t ⟨.kVMemSegAllocated, addr, size⟩
        (B₁.flatMap pairOf ++ [⟨.kVMemSegSpanImported, addr, size⟩]) (B₂.flatMap pairOf) := by
  obtain ⟨B, hB, hview⟩ := hi.pairs
  have hmem : (⟨.kVMemSegAllocated, addr, size⟩ : Seg) ∈ view h.wired := by
    rw [hview]
    exact List.mem_flatMap.mpr ⟨_, hB.mem_iff.mpr hb, List.mem_cons_of_mem _ List.mem_cons_self⟩
  obtain ⟨t₀, ht₀, hseg₀⟩ := List.mem_map.mp hmem
  have hbase₀ : (h.wired.seg t₀).base = addr := congrArg Seg.base hseg₀
  have hbucket₀ : t₀ ∈ h.wired.hashtab (Vmem.hashbucket addr) :=
    (hi.wired.hash_iff (Vmem.hashbucket addr) t₀).mpr
      ⟨by simp, ht₀, congrArg Seg.type hseg₀, congrArg Vmem.hashbucket hbase₀⟩
  obtain ⟨t, hfind⟩ := Vmem.hashFind_isSome hbucket₀ hbase₀
  obtain ⟨hbucket, hbase⟩ := Vmem.hashFind_some hfind
  obtain ⟨-, htq, halloc, -⟩ := (hi.wired.hash_iff _ t).mp hbucket
  -- whatever is found is the segment of a block at that address, and there is only one
  have hseg : h.wired.seg t = ⟨.kVMemSegAllocated, addr, size⟩ := by
    have htmem : h.wired.seg t ∈ B.flatMap pairOf := hview ▸ List.mem_map_of_mem htq
    obtain ⟨b, hbB, hbt⟩ := List.mem_flatMap.mp htmem
    have halloc : (h.wired.seg t).type = .kVMemSegAllocated := halloc
    rcases List.mem_cons.mp hbt with heq | hbt
    · rw [heq] at halloc
      cases halloc
    · have heq := List.mem_singleton.mp hbt
      rw [heq] at hbase
      obtain rfl := hi.block_unique (hB.mem_iff.mp hbB) hb hbase
      exact heq
  obtain ⟨L, R, ha⟩ := Vmem.exists_around (v := h.arena .wired) htq
  have hseg' : (h.arena .wired).seg t = ⟨.kVMemSegAllocated, addr, size⟩ := hseg
  rw [hseg'] at ha
  obtain ⟨B₁, B₂, rfl, rfl, rfl⟩ := pairs_around (hview.symm.trans ha.view_eq)
  exact ⟨t, B₁, B₂, hfind, hB, ha⟩

/-- **`vm_kfree` of a block returns.** If the block is one that a caller holds, the invariant holds
without it. -/
theorem Inv.free (hi : Inv held [] live h) (hb : (addr, size) ∈ blocks live h) :
    ∃ h', vmKfree addr h = .ok h' ∧
      ((addr, size) ∈ live → Inv held [] (live.eraseP fun a => a.1 = addr) h') := by
  obtain ⟨v, ptes, hfw, hk, hq, htags, hmapped, hsub⟩ := hi.freewired hb
  obtain ⟨t, B₁, B₂, hfind, hB, ha⟩ := hi.wired_find hb
  -- the unused tags that `kmap.vmem` leaves are not on the queue of the other arena
  have hall : (tags v ++ (h.wired.segqueue ++ held)).Perm (allTags held h) := htags.append_right _
  have hnd := hall.nodup_iff.mpr hi.tags_nodup
  have hunused : Vmem.Unused v.freeSegs h.wired.segqueue :=
    ⟨hk.linked.pool_nodup, fun u hu hmem => List.disjoint_of_nodup_append hnd
      (List.mem_append_right _ hu) (List.mem_append_left _ hmem)⟩
  have hcall : wiredSource.freefn h h.freeSegs addr size
      = some ({ h.setArena .kmap v with ptes := ptes }, v.freeSegs) := by
    show ((internalFreewired h addr size).toOption.map fun h => (h, h.freeSegs)) = _
    rw [hfw]
    rfl
  have hlink : Vmem.Linked none (withEnv (h.arena .wired) h) := linked_withEnv hi.wired h
  obtain ⟨v', hx, hlink', hview', henv, htags'⟩ := Vmem.vmemXfree_whole hlink hfind
    (g := ⟨.kVMemSegAllocated, addr, size⟩) (m := ⟨.kVMemSegSpanImported, addr, size⟩)
    (L := B₁.flatMap pairOf) (R := B₂.flatMap pairOf) ⟨ha.seg_eq, ha.queue⟩ rfl rfl
    (by
      intro e he
      cases B₂ with
      | nil => cases he
      | cons b B₂ => rw [← Option.some.inj he])
    hcall hunused
  refine ⟨{ h.setArena .kmap v with ptes := ptes }.setArena .wired (withEnv v' ()), ?_, fun hlive => ?_⟩
  · unfold vmKfree vmemXfree
    rw [hx, orStop, ← henv]
    rfl
  · -- the tags of the two arenas are still all different
    have hwired : (tags v').Perm (h.wired.segqueue ++ v.freeSegs) := htags'
    have hall' : (allTags held ({ h.setArena .kmap v with ptes := ptes }.setArena .wired
        (withEnv v' ()))).Perm (allTags held h) := by
      refine (allTags_perm _ _).trans (List.Perm.trans ?_ hall)
      show (tags v' ++ (v.segqueue ++ held)).Perm ((v.segqueue ++ v.freeSegs)
        ++ (h.wired.segqueue ++ held))
      rw [List.perm_iff_count]
      intro u
      have := List.perm_iff_count.mp hwired u
      simp only [List.count_append] at this ⊢
      omega
    have hnd' := hall'.nodup_iff.mpr hi.tags_nodup
    have hblocks : blocks (live.eraseP fun a => a.1 = addr) ({ h.setArena .kmap v with
        ptes := ptes }.setArena .wired (withEnv v' ()))
          = (blocks live h).eraseP fun a => a.1 = addr :=
      (List.eraseP_append_left (p := fun a : ℕ × ℕ => decide (a.1 = addr)) (a := (addr, size))
        (decide_eq_true rfl) _ hlive).symm
    have hperm : (blocks live h).Perm ((addr, size) :: (blocks live h).eraseP fun a => a.1 = addr) :=
      perm_eraseP hb fun b hb' heq => hi.block_unique hb' hb heq
    constructor
    case kmap =>
      rw [List.nil_append, hblocks]
      refine Vmem.inv_withPool hk ⟨hlink'.pool_nodup, fun u hu hmem => ?_⟩
      have hnodup : (v.segqueue ++ v'.freeSegs).Nodup := (List.nodup_append.mp hnd').1
      exact List.disjoint_of_nodup_append hnodup hmem hu
    case quantized => exact hq
    case wired => exact linked_withEnv hlink' ()
    case pairs =>
      rw [hblocks]
      refine ⟨B₁ ++ B₂, ?_, ?_⟩
      · refine List.Perm.cons_inv (a := (addr, size)) ?_
        exact (List.perm_middle.symm.trans hB).trans hperm
      · rw [List.flatMap_append]
        exact hview'
    case tags_nodup => exact hnd'
    case tags_known => exact fun u hu => hi.tags_known u (hall'.mem_iff.mp hu)
    case small =>
      rw [List.nil_append, hblocks]
      exact fun b hb' => hi.small b (List.mem_of_mem_eraseP hb')
    case mapped =>
      rw [hblocks]
      exact hmapped
    case pages =>
      exact ⟨hi.pages.nodup, fun page hp va hva hmap => hi.pages.unused page hp va hva
        (hsub va page hmap)⟩

/-! ## Every run -/

/-- The kernel heap and the blocks that callers of `vm_kalloc` hold. -/
structure State where
  heap : Heap
  live : List (ℕ × ℕ)

/-- The calls; `vm_kalloc` with the pages that `vm_pagealloc` returns in it. -/
inductive Action
  | vmKalloc (pages : List ℕ) (npages : ℕ)
  | vmKfree (addr : ℕ)
  deriving DecidableEq, Repr

/-- One call.  `none`: the call stops, or it is not one of those considered: `vm_kalloc` is for at
least one page and less than `2 ^ 31` bytes, `vm_kfree` for a block that the caller holds. -/
def step (fuel : ℕ) (s : State) : Action → Option State
  | .vmKalloc pages npages =>
      if 1 ≤ npages ∧ npages * pgSize < 2 ^ 31 then
        match vmKalloc fuel npages { s.heap with pages := pages } with
        | .ok (.ok addr, h) => some ⟨h, (addr, npages * pgSize) :: s.live⟩
        | .ok (.error _, h) => some ⟨h, s.live⟩
        | .error _ => none
      else none
  | .vmKfree addr =>
      if addr ∈ s.live.map Prod.fst then
        (vmKfree addr s.heap).toOption.map fun h => ⟨h, s.live.eraseP fun a => a.1 = addr⟩
      else none

/-- The calls as a machine. -/
def machine (fuel : ℕ) : Machine State Action := ⟨step fuel⟩

/-- `vm_pagealloc` returns pages that are not in use. -/
def FreshPages (s : State) : Action → Prop
  | .vmKalloc pages _ => PagesOk { s.heap with pages := pages }
  | .vmKfree _ => True

/-- The two arenas and the page table agree. -/
structure HeapSound (s : State) : Prop where
  /-- `vm_kernel_wired` is one pair of segments for each block. -/
  pairs : ∃ B : List (ℕ × ℕ), B.Perm (blocks s.live s.heap) ∧
    view s.heap.wired = B.flatMap pairOf
  freelists : ∀ i, s.heap.wired.freelist i = []
  /-- The imported spans are the allocations of `kmap.vmem`. -/
  imports : (Vmem.allocs (view s.heap.kmap)).Perm (blocks s.live s.heap)
  apart : (blocks s.live s.heap).Pairwise fun a b => a.1 + a.2 ≤ b.1 ∨ b.1 + b.2 ≤ a.1
  placed : ∀ b ∈ blocks s.live s.heap, pgSize ∣ b.1 ∧ pgSize ∣ b.2 ∧ kheapBase ≤ b.1 ∧
    b.1 + b.2 ≤ kheapBase + kheapSize
  /-- Exactly the pages of the blocks are mapped, to different pages. -/
  mapped : Mapped (blocks s.live s.heap) s.heap.ptes
  /-- `vm_kfree` of a block returns, so that none of its assertions fails. -/
  frees : ∀ b ∈ blocks s.live s.heap, ∃ h', vmKfree b.1 s.heap = .ok h'

/-- The invariant says that the arenas and the page table agree. -/
theorem Inv.heapSound {s : State} (hi : Inv [] [] s.live s.heap) : HeapSound s where
  pairs := hi.pairs
  freelists := by
    have hsearch : (∀ i, s.heap.wired.freelist i = []) ∧
        Vmem.search (s.heap.arena .wired) 0 0 ⟨false⟩ [] = none := hi.wired_search []
    exact hsearch.1
  imports := hi.kmap.live.symm
  apart := hi.apart
  placed b hb := by
    obtain ⟨hlo, hhi, hbase, hsize, -⟩ := hi.block hb
    exact ⟨hbase, hsize, hlo, hhi⟩
  mapped := hi.mapped
  frees b hb := by
    obtain ⟨h', hfree, -⟩ := hi.free hb
    exact ⟨h', hfree⟩

/-- What `vm_kernel_init` sets up, with no address of the heap mapped. -/
theorem inv_vmKernelInit {ptes : ℕ → Option ℕ} (hs : vmKernelInit ptes = some h)
    (hclear : ∀ va, InHeap va → ptes va = none) : Inv [] [] [] h := by
  unfold vmKernelInit at hs
  obtain ⟨kmap, hkmap, hs⟩ := Option.bind_eq_some_iff.mp hs
  obtain ⟨wired, hwired, hs⟩ := Option.bind_eq_some_iff.mp hs
  cases hs
  have hstatic : staticSegs.reverse.Nodup := List.nodup_reverse.mpr List.nodup_range
  have hbase : pgSize ∣ kheapBase := by decide
  obtain ⟨hk, hq⟩ := Vmem.quantized_init hstatic hbase (by decide) (by decide) (by decide) hkmap
  unfold Vmem.vmemInit at hkmap hwired
  rw [if_pos (by decide)] at hkmap
  rw [if_neg (by decide)] at hwired
  obtain rfl := Option.some.inj hwired
  obtain ⟨⟨t, v⟩, hadd, rfl⟩ := Option.map_eq_some_iff.mp hkmap
  -- the span of the heap takes two of the static tags, the others stay in the pool
  obtain ⟨hlink, -, ⟨n, hpool, hqueue⟩, -⟩ :=
    Vmem.vmemAddInternal_spec (Vmem.linked_empty hstatic) nofun rfl hadd
  constructor
  case kmap => exact hk
  case quantized => exact hq
  case wired => exact Vmem.linked_empty hlink.pool_nodup
  case pairs => exact ⟨[], .nil, rfl⟩
  case tags_nodup =>
    show ((v.segqueue ++ v.freeSegs) ++ ([] ++ [])).Nodup
    rw [List.append_nil, List.append_nil]
    exact List.nodup_append'.mpr ⟨hlink.nodup, hlink.pool_nodup, fun u hu hp =>
      hlink.pool_disjoint u hp hu⟩
  case tags_known =>
    intro u hu
    have hu : u ∈ (v.segqueue ++ v.freeSegs) ++ ([] ++ []) := hu
    rw [List.append_nil, List.append_nil, List.mem_append, hqueue.mem_iff] at hu
    have hpool : staticSegs.reverse = n :: t :: v.freeSegs := hpool
    refine .inl (List.mem_reverse.mp ?_)
    rw [hpool]
    rcases hu with hu | hu
    · rcases List.mem_cons.mp hu with rfl | hu
      · exact List.mem_cons_self
      · rw [List.mem_singleton.mp hu]
        exact List.mem_cons_of_mem _ List.mem_cons_self
    · exact List.mem_cons_of_mem _ (List.mem_cons_of_mem _ hu)
  case small => exact nofun
  -- nothing is mapped in the heap at boot
  case mapped =>
    refine ⟨fun va hva => ?_, fun va va' page hva _ hp _ => ?_⟩
    · show (ptes va).isSome = true ↔ _
      rw [hclear va hva]
      exact ⟨by simp, fun hmem => by obtain ⟨-, b, hb, -⟩ := hmem; cases hb⟩
    · have hp : ptes va = some page := hp
      rw [hclear va hva] at hp
      cases hp
  case pages => exact ⟨List.nodup_nil, by simp⟩

/-- Other pages to come. -/
theorem Inv.withPages {pages : List ℕ} (hi : Inv held [] live h)
    (hok : PagesOk { h with pages := pages }) : Inv held [] live { h with pages := pages } :=
  ⟨hi.kmap, hi.quantized, hi.wired, hi.pairs, hi.tags_nodup, hi.tags_known, hi.small, hi.mapped, hok⟩

/-- One call keeps the invariant. -/
theorem inv_step {fuel : ℕ} {s s' : State} {a : Action} (hi : Inv [] [] s.live s.heap)
    (hpages : FreshPages s a) (hs : step fuel s a = some s') : Inv [] [] s'.live s'.heap := by
  cases a with
  | vmKalloc pages npages =>
      rw [step] at hs
      split at hs
      · rename_i hok
        have hsize : npages * pgSize % 2 ^ 64 = npages * pgSize := Nat.mod_eq_of_lt (by omega)
        unfold vmKalloc at hs
        rw [hsize] at hs
        -- the pages that are free are an input of the call
        have hinv := fun res h' hrun => (vmemXalloc_inv fuel).2 [] s.live
          { s.heap with pages := pages } (npages * pgSize) false res h' (hi.withPages hpages)
          (Nat.dvd_mul_left _ _) hok.2 hrun
        split at hs
        · rename_i addr h₁ hrun
          cases hs
          obtain ⟨addr', haddr, hinv⟩ := hinv _ _ hrun
          cases haddr
          exact hinv
        · rename_i e h₁ hrun
          obtain ⟨addr', haddr, -⟩ := hinv _ _ hrun
          cases haddr
        · cases hs
      · cases hs
  | vmKfree addr =>
      rw [step] at hs
      split at hs
      · rename_i hlive
        obtain ⟨h', hrun, rfl⟩ := Option.map_eq_some_iff.mp hs
        -- the address is one that `vm_kalloc` returned, so its block is known
        obtain ⟨b, hb, rfl⟩ := List.mem_map.mp hlive
        have hblock : (b.1, b.2) ∈ blocks s.live s.heap := List.mem_append_left _ hb
        obtain ⟨h₁, hfree, hinv⟩ := hi.free hblock
        rw [hfree] at hrun
        cases hrun
        exact hinv hb
      · cases hs

/-- **The kernel heap.** In every run of `vm_kalloc` and `vm_kfree` from `vm_kernel_init` on:
`vm_kernel_wired` is one imported span, allocated as a whole, for each block, and these are the
allocations of `kmap.vmem`; the blocks are apart, page-aligned and in the heap; exactly their pages are
mapped, to different pages; and `vm_kfree` of a block returns. -/
theorem kernel_heap {fuel : ℕ} {ptes : ℕ → Option ℕ} {h₀ : Heap} {s : State}
    (hinit : vmKernelInit ptes = some h₀) (hclear : ∀ va, InHeap va → ptes va = none)
    (hreach : (machine fuel).Reach FreshPages ⟨h₀, []⟩ s) : HeapSound s := by
  have hinv : Inv [] [] s.live s.heap := by
    refine hreach.invariant (I := fun s => Inv [] [] s.live s.heap)
      (inv_vmKernelInit hinit hclear) ?_
    intro s a s' hi hpages hs
    exact inv_step hi hpages hs
  exact hinv.heapSound

/-- A run in which the first allocation refills the reserve of tags, so that there is a page of tags
beside the block. -/
theorem kernel_heap_refill :
    ∃ h₀ s, vmKernelInit (fun _ => none) = some h₀ ∧
      (machine 4).exec ⟨h₀, []⟩ [.vmKalloc [1, 2, 3] 2] = some s ∧
      blocks s.live s.heap = [(kheapBase + pgSize, 2 * pgSize), (kheapBase, pgSize)] ∧
      HeapSound s := by
  have hrun : (((vmKernelInit fun _ => none).bind fun h => (machine 4).exec ⟨h, []⟩
      [.vmKalloc [1, 2, 3] 2]).map fun s => blocks s.live s.heap)
        = some [(kheapBase + pgSize, 2 * pgSize), (kheapBase, pgSize)] := by
    decide +kernel
  obtain ⟨s, hexec, hblocks⟩ := Option.map_eq_some_iff.mp hrun
  obtain ⟨h₀, hinit, hexec⟩ := Option.bind_eq_some_iff.mp hexec
  have hptes : h₀.ptes = fun _ => none := by
    unfold vmKernelInit at hinit
    obtain ⟨kmap, -, hinit⟩ := Option.bind_eq_some_iff.mp hinit
    obtain ⟨wired, -, hinit⟩ := Option.bind_eq_some_iff.mp hinit
    cases hinit
    rfl
  -- three pages, none of which is mapped at the start
  have hfresh : FreshPages ⟨h₀, []⟩ (.vmKalloc [1, 2, 3] 2) := by
    have hnodup : [1, 2, 3].Nodup := by decide
    refine ⟨hnodup, fun page _ va _ hmap => ?_⟩
    have hmap : h₀.ptes va = some page := hmap
    rw [hptes] at hmap
    cases hmap
  have hreach : (machine 4).Reach FreshPages ⟨h₀, []⟩ s := by
    obtain ⟨s₁, hstep, hrest⟩ := Option.bind_eq_some_iff.mp hexec
    obtain rfl := Option.some.inj hrest
    exact .step .init hfresh hstep
  exact ⟨h₀, s, hinit, hexec, hblocks, kernel_heap hinit (fun _ _ => rfl) hreach⟩

end Scalux.KernelHeap
