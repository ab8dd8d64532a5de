import Scalux.Kern.VmemRelease
import Scalux.Vm.MapArena
import Scalux.Vm.KernelHeapRun

/-! # Releasing blocks of any size

A size is a 64-bit word, but `vmem_xfree` returns it as an `int`, and two callers read the result:
`unmap_entry` asserts that it is not negative, and `internal_freewired` returns without unmapping
anything if it is, and otherwise counts the pages with an `int`.  The arenas are 4 GiB, so a block may
be too large for that.

* **`KernelHeap.freesBlock_iff`**: when `internal_freewired` unmaps and frees every page of a block.
* **`release_reports_size`**: blocks below 2 GiB, and only these, are released as they should be.
* **`unmap_entry_asserts`**: a mapping of 2 GiB cannot be removed. -/

namespace Scalux.KernelHeap

open Vmem (Arena view)

variable {h h' : Heap} {addr size : ℕ} {os : List ℕ} {freed freed' : List ℕ}

/-! ## `internal_freewired` with the pages it frees -/

/-- The body of the page loop of `internal_freewired`: `pmap_unenter_kern`, and `vm_page_free` of the
page it returns, here added to the pages freed. -/
def unwirePage (addr : ℕ) (x : Heap × List ℕ) (i : ℕ) : Except Stop (Heap × List ℕ) :=
  match x.1.ptes (addr + i) with
  | none => .error .assertion
  | some page =>
      .ok ({ x.1 with ptes := Function.update x.1.ptes (addr + i) none }, x.2 ++ [page])

/-- `internal_freewired`, with the pages it frees. -/
def internalFreewiredPages (h : Heap) (addr size : ℕ) : Except Stop (Heap × List ℕ) := do
  let (r, v) ← orStop .assertion (Vmem.vmemXfree none (h.arena .kmap) addr)
  let h := h.setArena .kmap v
  if r < 0 then return (h, [])
  else
    let r := (Int.bmod size (2 ^ 32)).toNat
    if loopOk r then (pageOffsets r).foldlM (unwirePage addr) (h, [])
    else .error .overflow

/-- The loop without the pages it frees. -/
theorem unwirePages_fst (addr : ℕ) (os : List ℕ) (x : Heap × List ℕ) :
    (os.foldlM (unwirePage addr) x).map Prod.fst
      = os.foldlM (fun h i => pmapUnenterKern h (addr + i)) x.1 := by
  induction os generalizing x with
  | nil => rfl
  | cons i os ih =>
      rw [List.foldlM_cons, List.foldlM_cons, unwirePage, pmapUnenterKern]
      cases x.1.ptes (addr + i) with
      | none => rfl
      | some page => exact ih _

/-- It does to the heap what `internalFreewired` does. -/
theorem internalFreewiredPages_fst (h : Heap) (addr size : ℕ) :
    (internalFreewiredPages h addr size).map Prod.fst = internalFreewired h addr size := by
  unfold internalFreewiredPages internalFreewired
  cases orStop .assertion (Vmem.vmemXfree none (h.arena .kmap) addr) with
  | error e => rfl
  | ok x =>
      dsimp only [bind, Except.bind]
      split
      · rfl
      · split
        · exact unwirePages_fst _ _ _
        · rfl

/-- The loop frees one page for each offset. -/
theorem unwirePages_length (hrun : os.foldlM (unwirePage addr) (h, freed) = .ok (h', freed')) :
    freed'.length = freed.length + os.length := by
  induction os generalizing h freed with
  | nil =>
      cases hrun
      rfl
  | cons i os ih =>
      rw [List.foldlM_cons, unwirePage] at hrun
      cases hpage : h.ptes (addr + i) with
      | none =>
          rw [hpage] at hrun
          cases hrun
      | some page =>
          rw [hpage] at hrun
          have hlen : freed'.length = (freed ++ [page]).length + os.length := ih hrun
          rw [List.length_append, List.length_singleton] at hlen
          rw [List.length_cons, hlen]
          omega

/-- The pages at a list of offsets are unmapped and freed in order, if all of them are mapped. -/
theorem unwirePages_run (h : Heap) (freed : List ℕ) (hnd : os.Nodup)
    (hmap : ∀ o ∈ os, (h.ptes (addr + o)).isSome = true) :
    ∃ h', os.foldlM (unwirePage addr) (h, freed)
        = .ok (h', freed ++ os.filterMap fun o => h.ptes (addr + o)) ∧
      ∀ va, h'.ptes va = if va ∈ os.map (addr + ·) then none else h.ptes va := by
  induction os generalizing h freed with
  | nil =>
      refine ⟨h, ?_, fun va => rfl⟩
      rw [List.filterMap_nil, List.append_nil]
      rfl
  | cons i os ih =>
      obtain ⟨hi, hnd⟩ := List.nodup_cons.mp hnd
      obtain ⟨page, hpage⟩ := Option.isSome_iff_exists.mp (hmap i List.mem_cons_self)
      -- the offsets differ, so the pages still to come are mapped as before
      have hsame : ∀ o ∈ os, Function.update h.ptes (addr + i) none (addr + o) = h.ptes (addr + o) := by
        intro o ho
        refine Function.update_of_ne (fun heq => ?_) _ _
        exact hi (Nat.add_left_cancel heq ▸ ho)
      obtain ⟨h', hrun, hptes⟩ := ih { h with ptes := Function.update h.ptes (addr + i) none }
        (freed ++ [page]) hnd (by
          intro o ho
          show (Function.update h.ptes (addr + i) none (addr + o)).isSome = true
          rw [hsame o ho]
          exact hmap o (List.mem_cons_of_mem _ ho))
      refine ⟨h', ?_, fun va => ?_⟩
      · rw [List.foldlM_cons, unwirePage, hpage, List.filterMap_cons, hpage,
          ← List.filterMap_congr hsame]
        rw [List.append_assoc, List.singleton_append] at hrun
        exact hrun
      · rw [hptes va]
        by_cases hva : va = addr + i
        · simp [hva]
        · simp [hva]

/-- `internal_freewired` unmaps the pages of a block, and frees each of them. -/
def FreesBlock (h : Heap) (addr size : ℕ) : Prop :=
  ∃ h', internalFreewired h addr size = .ok h' ∧ internalFreewiredPages h addr size
      = .ok (h', (pageOffsets size).filterMap fun o => h.ptes (addr + o)) ∧
    ∀ o ∈ pageOffsets size, h'.ptes (addr + o) = none

/-- The number of pages of a block. -/
theorem length_pageOffsets (n : ℕ) : (pageOffsets n).length = (n + (pgSize - 1)) / pgSize := by
  rw [pageOffsets, List.length_map, List.length_range]

/-- Its result for a block that `vmem_xfree` of `kmap.vmem` finds; `r` is the size as an `int`. -/
theorem internalFreewiredPages_eq {v : Arena Unit} {r : ℤ}
    (hx : Vmem.vmemXfree none (h.arena .kmap) addr = some (r, v))
    (hr : Int.bmod size (2 ^ 32) = r) : internalFreewiredPages h addr size =
      if r < 0 then .ok (h.setArena .kmap v, [])
      else if loopOk r.toNat then
        (pageOffsets r.toNat).foldlM (unwirePage addr) (h.setArena .kmap v, [])
      else .error .overflow := by
  unfold internalFreewiredPages
  rw [hx, hr]
  rfl

/-- A block of 2 GiB or more has more pages than the loop counts to. -/
theorem lt_of_freesBlock {v : Arena Unit} (hsize : pgSize ∣ size)
    (hmap : ∀ o ∈ pageOffsets size, (h.ptes (addr + o)).isSome = true)
    (hx : Vmem.vmemXfree none (h.arena .kmap) addr = some (Int.bmod size (2 ^ 32), v))
    (hfrees : FreesBlock h addr size) : size < 2 ^ 31 := by
  by_contra hlarge
  obtain ⟨h', -, hfreed, -⟩ := hfrees
  have hall : ((pageOffsets size).filterMap fun o => h.ptes (addr + o)).length
      = (pageOffsets size).length := by
    rw [List.length_filterMap_eq_countP, List.countP_eq_length]
    exact hmap
  -- the size comes back through an `int`: that is what the pages are unwired by
  obtain ⟨r, hr⟩ : ∃ r, Int.bmod size (2 ^ 32) = r := ⟨_, rfl⟩
  rw [hr] at hx
  rw [internalFreewiredPages_eq hx hr] at hfreed
  -- every page of the block was freed, so as many offsets were walked
  have hcount : (pageOffsets size).length ≤ (pageOffsets r.toNat).length := by
    split at hfreed
    · obtain ⟨-, hnil⟩ := Prod.mk.inj (Except.ok.inj hfreed)
      rw [← hall, ← hnil]
      exact Nat.zero_le _
    · split at hfreed
      · have hlen := unwirePages_length hfreed
        rw [hall, List.length_nil, Nat.zero_add] at hlen
        exact hlen.le
      · cases hfreed
  obtain ⟨k, rfl⟩ := hsize
  have hlt : r.toNat ≤ 2 ^ 31 - pgSize := by
    rw [← hr, Int.bmod_def]
    unfold pgSize
    split
    · omega
    · omega
  rw [length_pageOffsets, length_pageOffsets] at hcount
  unfold pgSize at hcount hlt hlarge
  omega

/-- **Only a block below 2 GiB is freed.** For a block that `vmem_xfree` of `kmap.vmem` finds, with all
of its pages mapped. -/
theorem freesBlock_iff {v : Arena Unit} (hsize : pgSize ∣ size)
    (hmap : ∀ o ∈ pageOffsets size, (h.ptes (addr + o)).isSome = true)
    (hx : Vmem.vmemXfree none (h.arena .kmap) addr = some (Int.bmod size (2 ^ 32), v)) :
    FreesBlock h addr size ↔ size < 2 ^ 31 := by
  refine ⟨lt_of_freesBlock hsize hmap hx, fun hlt => ?_⟩
  have hr : Int.bmod size (2 ^ 32) = size := bmod_of_lt hlt
  rw [hr] at hx
  have hrun := internalFreewiredPages_eq hx hr
  rw [if_neg (Int.not_lt.mpr (Int.natCast_nonneg size)), Int.toNat_natCast,
    if_pos (loopOk_of_lt hsize hlt)] at hrun
  obtain ⟨h', hfold, hptes⟩ := unwirePages_run (h.setArena .kmap v) []
    (nodup_pageOffsets size) hmap
  refine ⟨h', ?_, hrun.trans hfold, fun o ho => ?_⟩
  · rw [← internalFreewiredPages_fst, hrun.trans hfold]
    rfl
  · rw [hptes, if_pos (List.mem_map_of_mem ho)]

end Scalux.KernelHeap

namespace Scalux.Vm

open Vmem (view vmemXfree SourceInitial sourceMachine Proper fits Unmixed SourceInv SpansFrom TakesBack)

variable {s s' : State} {m : MapId} {map : Map} {e : Entry}

/-! ## `unmap_entry` -/

/-- The assertion of `unmap_entry` holds: `vmem_xfree` returns a value that is not negative. -/
def UnmapAsserts (s : State) (m : MapId) (e : Entry) : Prop :=
  ∃ map n vmem, s.maps.get? m = some map ∧ vmemXfree none map.vmem e.start = some (n, vmem) ∧ 0 ≤ n

/-- `unmap_entry` returns only if its assertion holds. -/
theorem unmapAsserts_of_unmapEntry (h : unmapEntry s m e = some s') : UnmapAsserts s m e := by
  unfold unmapEntry at h
  obtain ⟨map, hmap, h⟩ := Option.bind_eq_some_iff.mp h
  obtain ⟨⟨n, vmem⟩, hx, h⟩ := Option.bind_eq_some_iff.mp h
  dsimp only at h
  split at h
  · exact ⟨map, n, vmem, hmap, hx, ‹_›⟩
  · cases h

/-- The arena of a user map, without a source, is in the state of an arena between two calls. -/
theorem InStep.sourceInv (h : InStep map) :
    SourceInv ⟨map.vmem, map.entries.map Entry.range⟩ ∧
      SpansFrom (none : Option (Vmem.Source Unit)) (view map.vmem) := by
  refine ⟨⟨h.arena.linked, h.arena.tiled, h.arena.live⟩, fun t ht _ => ?_⟩
  exact ⟨fun himp => absurd himp (h.arena.own t ht), fun hsome => absurd hsome (by simp)⟩

/-- Freeing the range of an entry returns its size as an `int`. -/
theorem InStep.vmemXfree_returns (h : InStep map) (he : e ∈ map.entries) :
    ∃ vmem, vmemXfree none map.vmem e.start
      = some (Int.bmod (e.stop - e.start : ℕ) (2 ^ 32), vmem) :=
  h.sourceInv.1.vmemXfree_returns h.sourceInv.2 nofun (List.mem_map_of_mem he)

/-- The assertion holds of an entry below 2 GiB, and of one that fills the map: its size becomes 0. -/
theorem InStep.unmapAsserts_iff (h : InStep map) (hmap : s.maps.get? m = some map)
    (he : e ∈ map.entries) :
    UnmapAsserts s m e ↔ e.stop - e.start < 2 ^ 31 ∨ e.stop - e.start = 2 ^ 32 := by
  obtain ⟨vmem, hx⟩ := h.vmemXfree_returns he
  have hle : e.stop - e.start ≤ 2 ^ 32 := by
    obtain ⟨hlo, hhi⟩ := h.in_span he
    unfold userSize at hhi
    omega
  have hiff : UnmapAsserts s m e ↔ 0 ≤ Int.bmod (e.stop - e.start : ℕ) (2 ^ 32) := by
    constructor
    · rintro ⟨map', n, vmem', hmap', hx', hn⟩
      obtain rfl := Option.some.inj (hmap.symm.trans hmap')
      obtain ⟨heq, -⟩ := Prod.mk.inj (Option.some.inj (hx.symm.trans hx'))
      exact heq ▸ hn
    · exact fun hn => ⟨map, _, vmem, hmap, hx, hn⟩
  rw [hiff, Vmem.bmod_nonneg_iff]
  omega

/-! ## The result -/

/-- A run of an arena that keeps the rules of the interface, meets no free segment that would serve a
request beyond its end, and adds no span to an arena with a source. -/
def ArenaRun {E : Type} (src : Option (Vmem.Source E)) (s : Vmem.State E) : Prop :=
  ∃ s₀, SourceInitial src s₀ ∧ (sourceMachine src).Reach
    (fun s a => Proper src s a ∧ fits s a = true ∧ Unmixed src a) s₀ s

/-- `vmem_xfree` of a live range in such a run. -/
theorem ArenaRun.vmemXfree_returns {E : Type} {src : Option (Vmem.Source E)} {s : Vmem.State E}
    {addr size : ℕ} (h : ArenaRun src s) (hfree : ∀ f ∈ src, TakesBack f s.arena)
    (hlive : (addr, size) ∈ s.live) :
    ∃ v', vmemXfree src s.arena addr = some (Int.bmod size (2 ^ 32), v') := by
  obtain ⟨s₀, h₀, hreach⟩ := h
  obtain ⟨hinv, hfrom⟩ := Vmem.released_reach h₀ hreach
  exact hinv.vmemXfree_returns hfrom hfree hlive

/-- **Blocks below 2 GiB, and only these, are released as they should be.**
* `vmem_xfree` of a live range of any arena returns, and returns its size, not negative, if and only if
  the range is shorter than `2 ^ 31`.
* The assertion of `unmap_entry` holds of a mapping if and only if it is shorter than `2 ^ 31`, or as
  long as the map; `unmap_entry` returns for no other.
* `internal_freewired` unmaps and frees every page of a block, all of whose pages are mapped, if and only
  if it is shorter than `2 ^ 31`. -/
theorem release_reports_size {E : Type} (src : Option (Vmem.Source E)) (s : Vmem.State E)
    (hrun : ArenaRun src s) (htake : ∀ f ∈ src, TakesBack f s.arena) (t₀ t : Sys) (h₀ : Boot t₀)
    (ht : machine.Reach NoWrap t₀ t) (k : Vmem.State Unit) (hk : ArenaRun none k)
    (h : KernelHeap.Heap) (hkmap : h.arena .kmap = k.arena) :
    (∀ addr size, (addr, size) ∈ s.live → ∃ n v', vmemXfree src s.arena addr = some (n, v') ∧
      (n = size ∧ 0 ≤ n ↔ size < 2 ^ 31)) ∧
    (∀ m map e, m ≠ kmap → t.st.maps.get? m = some map → e ∈ map.entries →
      (UnmapAsserts t.st m e ↔ e.stop - e.start < 2 ^ 31 ∨ e.stop - e.start = 2 ^ 32) ∧
      ∀ s', unmapEntry t.st m e = some s' → e.stop - e.start < 2 ^ 31 ∨ e.stop - e.start = 2 ^ 32) ∧
    (∀ addr size, (addr, size) ∈ k.live → pgSize ∣ size →
      (∀ o ∈ KernelHeap.pageOffsets size, (h.ptes (addr + o)).isSome = true) →
      (KernelHeap.FreesBlock h addr size ↔ size < 2 ^ 31)) := by
  -- the arena, the map and the kernel heap: each passes the size through an int
  refine ⟨?_, ?_, ?_⟩
  · intro addr size hlive
    obtain ⟨v', hx⟩ := hrun.vmemXfree_returns htake hlive
    exact ⟨_, v', hx, Vmem.bmod_eq_self_iff size⟩
  · intro m map e hm hmap he
    have hiff := (userOk_reach h₀ ht m map hm hmap).unmapAsserts_iff hmap he
    exact ⟨hiff, fun s' hunmap => hiff.mp (unmapAsserts_of_unmapEntry hunmap)⟩
  · intro addr size hlive hsize hmapped
    obtain ⟨v', hx⟩ := hk.vmemXfree_returns nofun hlive
    exact KernelHeap.freesBlock_iff hsize hmapped (hkmap ▸ hx)

/-- A map with one mapping of a page. -/
def smallRun : List Action :=
  [.call (.vmMapNew 1 [0, 1]), .call (.segRefill 1 [2, 3]), .call (.vmAllocate 1 0 0x2000 0x1000)]

/-- An arena with a block of a page and one of 2 GiB. -/
def largeRun : List Vmem.Action :=
  [.vmemAdd [0, 1] 0x1000 0x100000000, .vmemXalloc [2, 3] 0x1000 0 0 0 0 ⟨false⟩,
    .vmemXalloc [4, 5] 0x80000000 0 0 0 0 ⟨false⟩]

theorem arenaRun_largeRun : ∃ s, (sourceMachine none).exec Vmem.emptyState largeRun = some s ∧
    s.live = [(0x2000, 0x80000000), (0x1000, 0x1000)] ∧ ArenaRun none s := by
  have hrun : ((sourceMachine none).exec Vmem.emptyState largeRun).map Vmem.State.live
      = some [(0x2000, 0x80000000), (0x1000, 0x1000)] := by decide
  obtain ⟨s, hs, hlive⟩ := Option.map_eq_some_iff.mp hrun
  refine ⟨s, hs, hlive, Vmem.emptyState, Vmem.sourceInitial_emptyState, ?_⟩
  refine Machine.reach_of_exec (c := fun s a => Vmem.spansOk s a && fits s a) ?_ (by decide) hs
  intro s a hc
  obtain ⟨hspan, hfits⟩ := Bool.and_eq_true_iff.mp hc
  refine ⟨Vmem.proper_of_spansOk hspan, hfits, ?_⟩
  cases a with
  | vmemAdd pool base size => exact rfl
  | vmemXalloc pool size align phase min max flags => exact trivial
  | vmemXfree pool addr => exact trivial

/-- Of the two blocks the page is released as it should be, by `vmem_xfree` and by `internal_freewired`,
and the other is not; and the mapping of a page can be removed. -/
theorem release_reports_size_page :
    ∃ s : Vmem.State Unit, s.live = [(0x2000, 0x80000000), (0x1000, 0x1000)] ∧
      (∃ v', vmemXfree none s.arena 0x1000 = some (0x1000, v')) ∧
      (∀ v', vmemXfree none s.arena 0x2000 ≠ some (0x80000000, v')) ∧
      (∃ t map e, machine.exec bootSys smallRun = some t ∧ t.st.maps.get? 1 = some map ∧
        map.entries = [e] ∧ e.range = (0x2000, 0x1000) ∧ UnmapAsserts t.st 1 e) ∧
      ∃ h : KernelHeap.Heap, h.arena .kmap = s.arena ∧ KernelHeap.FreesBlock h 0x1000 0x1000 ∧
        ¬ KernelHeap.FreesBlock h 0x2000 0x80000000 := by
  obtain ⟨s, -, hlive, hs⟩ := arenaRun_largeRun
  have hrun : (machine.exec bootSys smallRun).bind (fun t => (t.st.maps.get? 1).map Map.entries)
      = some [⟨0x2000, 0x3000, 0, 0⟩] := by decide
  obtain ⟨t, ht, hmap⟩ := Option.bind_eq_some_iff.mp hrun
  obtain ⟨map, hmap, hentries⟩ := Option.map_eq_some_iff.mp hmap
  have hreach : machine.Reach NoWrap bootSys t := Machine.reach_of_exec
    (c := fun t x => decide (NoWrap t x)) (fun _ _ hc => of_decide_eq_true hc) (by decide) ht
  -- the arena as that of the kernel's map, with a page behind every address
  let heap : KernelHeap.Heap := ⟨s.arena, s.arena, s.arena.freeSegs, [], some, []⟩
  obtain ⟨hfree, hassert, hwired⟩ := release_reports_size none s hs nofun bootSys t boot_bootSys hreach
    s hs heap rfl
  have hpage : (0x1000, 0x1000) ∈ s.live := by rw [hlive]; decide
  have hlarge : (0x2000, 0x80000000) ∈ s.live := by rw [hlive]; decide
  refine ⟨s, hlive, ?_, ?_, ⟨t, map, _, ht, hmap, hentries, rfl, ?_⟩, heap, rfl, ?_, ?_⟩
  · obtain ⟨n, v', hx, hiff⟩ := hfree _ _ hpage
    obtain ⟨rfl, -⟩ := hiff.mpr (by decide)
    exact ⟨v', hx⟩
  · intro v' hx
    obtain ⟨n, v'', hx', hiff⟩ := hfree _ _ hlarge
    obtain ⟨rfl, -⟩ := Prod.mk.inj (Option.some.inj (hx.symm.trans hx'))
    exact absurd (hiff.mp ⟨by decide, by decide⟩) (by decide)
  · exact (hassert 1 map ⟨0x2000, 0x3000, 0, 0⟩ (by decide) hmap (by rw [hentries]; decide)).1.mpr
      (.inl (by decide))
  · exact (hwired _ _ hpage (by decide) fun _ _ => rfl).mpr (by decide)
  · exact fun hfrees => absurd ((hwired _ _ hlarge (by decide) fun _ _ => rfl).mp hfrees) (by decide)

/-- **A mapping of 2 GiB cannot be removed.** -/
theorem unmap_entry_asserts :
    ¬ ∀ (t₀ t : Sys) (m : MapId) (map : Map) (e : Entry), Boot t₀ → machine.Reach NoWrap t₀ t →
      m ≠ kmap → t.st.maps.get? m = some map → e ∈ map.entries → UnmapAsserts t.st m e := by
  intro h
  have hrun : (machine.exec bootSys [.call (.vmMapNew 1 [0, 1]), .call (.segRefill 1 [2, 3]),
      .call (.vmAllocate 1 0 vaddrMax 0x80000000)]).bind
      (fun t => (t.st.maps.get? 1).map fun map =>
        (map.entries, (vmemXfree none map.vmem 0x1000).map Prod.fst))
      = some ([⟨0x1000, 0x80001000, 0, 0⟩], some (-0x80000000)) := by decide
  obtain ⟨t, ht, hmap⟩ := Option.bind_eq_some_iff.mp hrun
  obtain ⟨map, hmap, hres⟩ := Option.map_eq_some_iff.mp hmap
  obtain ⟨hentries, hfreed⟩ := Prod.mk.inj hres
  have hreach : machine.Reach NoWrap bootSys t := Machine.reach_of_exec
    (c := fun t x => decide (NoWrap t x)) (fun _ _ hc => of_decide_eq_true hc) (by decide) ht
  obtain ⟨map', n, vmem, hmap', hx, hn⟩ := h bootSys t 1 map ⟨0x1000, 0x80001000, 0, 0⟩ boot_bootSys
    hreach (by decide) hmap (by rw [hentries]; decide)
  obtain rfl := Option.some.inj (hmap.symm.trans hmap')
  rw [hx] at hfreed
  obtain rfl := Option.some.inj hfreed
  exact absurd hn (by decide)

end Scalux.Vm
