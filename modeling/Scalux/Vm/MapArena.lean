import Scalux.Kern.VmemExact
import Scalux.Vm.Coherence

/-! # The entries of a map and the segments of its arena

A map keeps two records of the addresses in use: the list of its entries, and the allocated segments of
its arena.  `vm_map_object` and `unmap_entry` change one after the other, with exits in between.  The
assertions of `vm_map_fork` and `vmem_destroy` hold only because the two agree.

* **`InStep`**: the live ranges of the arena are the ranges of the entries.
* **`Fresh`**: an arena from which nothing has been freed; a range off its entries can be mapped.
* **`entries_in_step`**: the two agree in every run, and what follows for the assertions. -/

namespace Scalux.Vm

open Vmem (Quantized view allocs vmemInit vmemXalloc vmemXfree vmemDestroy)

variable {s s' : State} {m : MapId} {o : ObjId} {a : AnonId} {p : Page} {v : ℕ} {map : Map}
  {maps : Heap Map} {e : Entry} {t t' : Sys}

/-! ## What does not change the maps -/

/-- `vm_anon_release` leaves the maps. -/
theorem anonRelease_maps (h : anonRelease s a = some s') : s'.maps = s.maps := by
  obtain ⟨anon, -, ⟨-, rfl⟩ | ⟨-, rfl⟩⟩ := anonRelease_cases h
  · rfl
  · rfl

/-- `vm_object_release` leaves the maps. -/
theorem vmObjectRelease_maps (h : vmObjectRelease s o = some s') : s'.maps = s.maps := by
  obtain ⟨obj, -, ⟨-, rfl⟩ | ⟨-, s₁, hrel, rfl⟩⟩ := vmObjectRelease_cases h
  · rfl
  · exact foldlM_invariant (P := fun x => x.maps = s.maps) hrel rfl
      fun _ _ _ _ hx hs => (anonRelease_maps hs).trans hx

/-- `vm_object_retain` leaves the maps. -/
theorem vmObjectRetain_maps (h : vmObjectRetain s o = some s') : s'.maps = s.maps := by
  obtain ⟨obj, -, rfl⟩ := vmObjectRetain_eq h
  rfl

/-- Sharing an anon leaves the maps. -/
theorem anonShare_maps (h : anonShare s a = some s') : s'.maps = s.maps := by
  obtain ⟨anon, -, rfl⟩ := anonShare_eq h
  set s₁ := setAnon s a { anon with refcnt := incr 24 anon.refcnt } with hs₁
  obtain ⟨f, hf, -⟩ := foldl_reenter_eq (s := s₁) (p := anon.physpage) (s₁.pv anon.physpage)
  rw [pmapReenterAllReadonly, hf, hs₁]
  rfl

/-- `vm_object_copy` leaves the maps. -/
theorem vmObjectCopy_maps {newobj : ObjId} (h : vmObjectCopy s o newobj = some s') :
    s'.maps = s.maps := by
  obtain ⟨obj, s₁, objs, -, hshare, -, rfl⟩ := vmObjectCopy_eq h
  exact foldlM_invariant (P := fun x => x.maps = s.maps) hshare rfl
    fun _ _ _ _ hx hs => (anonShare_maps hs).trans hx

/-- `vm_aobj_new` leaves the maps. -/
theorem vmAobjNew_maps {size : ℕ} (h : vmAobjNew s o size = some s') : s'.maps = s.maps := by
  obtain ⟨objs, -, rfl⟩ := vmAobjNew_eq h
  rfl

/-- `pmap_unenter` leaves the maps. -/
theorem pmapUnenter_maps {page : Option Page} (h : pmapUnenter s m page v = some s') :
    s'.maps = s.maps := by
  rcases pmapUnenter_cases h with ⟨-, rfl⟩ | ⟨pte, -, -, rfl⟩
  · rfl
  · rfl

/-- `anon_new` leaves the maps. -/
theorem anonNew_maps (h : anonNew s a p = some s') : s'.maps = s.maps := by
  obtain ⟨-, anons, -, rfl⟩ := anonNew_eq h
  rfl

/-- `anon_copy` leaves the maps. -/
theorem anonCopy_maps {anon : Anon} (h : anonCopy s anon a p = some s') : s'.maps = s.maps := by
  obtain ⟨-, anons, -, rfl⟩ := anonCopy_eq h
  rfl

/-- A fault leaves the maps. -/
theorem FaultCase.maps_eq {obj : Object} {page : ℕ} {flags : FaultFlags}
    (h : FaultCase s m o obj v page flags a p s') : s'.maps = s.maps := by
  cases h with
  | read | reenter | enter => rfl
  | copy old anon _ _ _ _ s₁ s₂ hcopy hun =>
      have hcopied : s₁.maps = (setAnon s old _).maps := anonCopy_maps hcopy
      have hslot : s₂.maps = (setSlot s₁ o obj page a).maps := by
        split at hun
        · exact pmapUnenter_maps hun
        · rw [hun]
      exact hslot.trans hcopied
  | zero _ s₁ hnew =>
      have hmaps : s₁.maps = s.maps := anonNew_maps hnew
      exact hmaps

/-- An access changes no map. -/
theorem touch_maps {write : Bool} (h : touch s m v write a p = some s') : s'.maps = s.maps := by
  rcases touch_cases h with ⟨-, rfl⟩ | ⟨flags, -, hfault⟩
  · rfl
  · obtain ⟨map, e, -, -, haobj⟩ := vmFault_cases hfault
    obtain ⟨obj, slots, -, -, hcase⟩ := faultAobj_cases haobj
    exact hcase.maps_eq

/-- A store leaves the maps. -/
theorem store_maps {b : UInt8} (h : store s m v b = some s') : s'.maps = s.maps := by
  obtain ⟨pte, -, -, rfl⟩ := store_eq h
  rfl

/-- `unmap_entry` gives the addresses back to the arena, and then drops the entry. -/
theorem unmapEntry_maps (hmap : s.maps.get? m = some map) (hs : unmapEntry s m e = some s') :
    ∃ n vmem, vmemXfree none map.vmem e.start = some (n, vmem) ∧
      s'.maps = s.maps.set m ⟨map.entries.erase e, vmem⟩ := by
  obtain ⟨map₁, n, vmem, s₁, s₂, map₂, hmap₁, hfree, hun, hrel, hmap₂, rfl⟩ := unmapEntry_cases hs
  obtain rfl := Option.some.inj (hmap.symm.trans hmap₁)
  have hmaps₁ : s₁.maps = s.maps.set m { map with vmem := vmem } :=
    foldlM_invariant (P := fun x => x.maps = s.maps.set m { map with vmem := vmem }) hun rfl
      fun _ _ _ _ hx hs => (pmapUnenter_maps hs).trans hx
  have hmaps₂ := (vmObjectRelease_maps hrel).trans hmaps₁
  rw [hmaps₂, Heap.get?_set hmap, if_pos rfl] at hmap₂
  cases hmap₂
  refine ⟨n, vmem, hfree, ?_⟩
  show s₂.maps.set m _ = _
  rw [hmaps₂, Heap.set_set]

/-- `vm_map_object` asks the arena for addresses, and adds an entry if it gets them. -/
theorem vmMapObject_maps {vaddr size offset : ℕ} {newobj : Option ObjId} {r : Except ℤ ℕ}
    (h : vmMapObject s m o vaddr size offset newobj = some (r, s')) :
    ∃ map vmem, s.maps.get? m = some map ∧
      vmemXalloc none map.vmem size 0 0 (if vaddr ≠ vaddrMax then vaddr else 0) 0
        ⟨decide (vaddr ≠ vaddrMax)⟩ = some (r, vmem) ∧
      s'.maps = s.maps.set m ⟨entriesAfter map.entries (newobj.getD o) size offset r, vmem⟩ := by
  obtain ⟨-, s₁, hobj, hins⟩ := vmMapObject_cases h
  obtain ⟨map, vmem, hmap, hx, rfl⟩ := mapInsert_cases hins
  have hmaps : s₁.maps = s.maps := by
    cases newobj with
    | some new => exact vmObjectCopy_maps hobj
    | none => exact vmObjectRetain_maps hobj
  refine ⟨map, vmem, hmaps ▸ hmap, hx, ?_⟩
  show s₁.maps.set m _ = _
  rw [hmaps]

/-! ## Entries and segments -/

/-- The address and the size of an entry. -/
def Entry.range (e : Entry) : ℕ × ℕ := (e.start, e.stop - e.start)

/-- The live ranges of the arena of a user map are the ranges of its entries. -/
structure InStep (map : Map) : Prop where
  arena : Vmem.Inv (· ≤ ·) ⟨map.vmem, map.entries.map Entry.range⟩
  quantized : Quantized userBase userSize 1 (view map.vmem)
  nonempty : ∀ e ∈ map.entries, e.start < e.stop

/-- The span of a user map is far from the top of the address space. -/
theorem user_top : userBase + 2 * userSize < 2 ^ 64 := by decide

/-- A live range is in the span of the arena. -/
theorem range_in_span {vmem : Vmem.Arena Unit} {live : List (ℕ × ℕ)} {x : ℕ × ℕ}
    (hi : Vmem.Inv (· ≤ ·) ⟨vmem, live⟩) (hq : Quantized userBase userSize 1 (view vmem))
    (hx : x ∈ live) : userBase ≤ x.1 ∧ x.1 + x.2 ≤ userBase + userSize := by
  obtain ⟨t, ht, hspan, hlo, hhi⟩ := (hi.liveSound isGap_le).in_span x hx
  obtain ⟨hbase, hsize⟩ := hq.span t ht hspan
  rw [hbase] at hlo hhi
  rw [hsize] at hhi
  exact ⟨hlo, hhi⟩

/-- An entry lies in the span of user space. -/
theorem InStep.in_span (h : InStep map) (he : e ∈ map.entries) :
    userBase ≤ e.start ∧ e.stop ≤ userBase + userSize := by
  obtain ⟨hlo, hhi⟩ := range_in_span h.arena h.quantized (List.mem_map_of_mem he)
  have := h.nonempty e he
  simp only [Entry.range] at hlo hhi
  exact ⟨hlo, by omega⟩

/-- Two entries are apart, as the allocations of the arena are. -/
theorem InStep.apart (h : InStep map) : map.entries.Pairwise Entry.Apart := by
  have hdisj := List.pairwise_map.mp (h.arena.liveSound isGap_le).disjoint
  refine hdisj.imp_of_mem fun {e f} he hf hap => ?_
  have := h.nonempty e he
  have := h.nonempty f hf
  unfold Entry.range at hap
  unfold Entry.Apart
  omega

/-- No entry is there twice. -/
theorem InStep.nodup (h : InStep map) : map.entries.Nodup := nodup_of_apart h.nonempty h.apart

/-- Addresses that the arena gives become an entry. -/
theorem inStep_insert (h : InStep map) {size min offset : ℕ} {flags : Vmem.Flags} {r : Except ℤ ℕ}
    {vmem : Vmem.Arena Unit} (hlt : min + size < 2 ^ 64)
    (hx : vmemXalloc none map.vmem size 0 0 min 0 flags = some (r, vmem)) :
    InStep ⟨entriesAfter map.entries o size offset r, vmem⟩ := by
  -- a refused allocation enters nothing, a served one enters its own range
  cases r with
  | error n =>
      obtain ⟨hq, hinv⟩ := Vmem.quantized_xalloc_error h.arena h.quantized hx
      exact ⟨hinv, hq, h.nonempty⟩
  | ok addr =>
      obtain ⟨hq, hinv, -, hpos, -⟩ := Vmem.quantized_xalloc h.arena h.quantized (Nat.one_dvd _)
        user_top (Nat.one_dvd _) (Nat.one_dvd _) hlt hx
      obtain ⟨-, hhi⟩ := range_in_span hinv hq List.mem_cons_self
      have htop := user_top
      have hsum : add64 addr size = addr + size := add64_eq (by dsimp only at hhi; omega)
      refine ⟨⟨hinv.linked, hinv.tiled, hinv.own, ?_⟩, hq, ?_⟩
      · show ((map.entries ++ [(⟨addr, add64 addr size, offset, o⟩ : Entry)]).map Entry.range).Perm _
        rw [List.map_append, hsum]
        refine List.perm_append_comm.trans ?_
        show ((addr, addr + size - addr) :: map.entries.map Entry.range).Perm _
        rw [Nat.add_sub_cancel_left]
        exact hinv.live
      · intro e he
        rcases List.mem_append.mp he with he | he
        · exact h.nonempty e he
        · rw [List.mem_singleton.mp he]
          show addr < add64 addr size
          rw [hsum]
          omega

/-- Addresses that are given back are those of the entry that is removed. -/
theorem inStep_remove (h : InStep map) (he : e ∈ map.entries) {n : ℤ} {vmem : Vmem.Arena Unit}
    (hx : vmemXfree none map.vmem e.start = some (n, vmem)) :
    InStep ⟨map.entries.erase e, vmem⟩ := by
  have hperm : (map.entries.map Entry.range).Perm
      (e.range :: (map.entries.erase e).map Entry.range) :=
    (List.perm_cons_erase he).map Entry.range
  have hinv : Vmem.Inv (· ≤ ·)
      ⟨map.vmem, e.range :: (map.entries.erase e).map Entry.range⟩ :=
    ⟨h.arena.linked, h.arena.tiled, h.arena.own, hperm.symm.trans h.arena.live⟩
  obtain ⟨hq, hinv'⟩ := Vmem.quantized_xfree hinv h.quantized (Nat.one_dvd _) hx
  rw [List.eraseP_cons_of_pos (by simp [Entry.range])] at hinv'
  exact ⟨hinv', hq, fun f hf => h.nonempty f (List.mem_of_mem_erase hf)⟩

/-- A new map has no entries, and its arena no allocated segments. -/
theorem inStep_new {pool : List Vmem.Tag} {vmem : Vmem.Arena Unit} (hpool : pool.Nodup)
    (hinit : vmemInit none (fun _ => ⟨.kVMemSegFree, 0, 0⟩) pool () userBase userSize = some vmem) :
    InStep ⟨[], vmem⟩ := by
  obtain ⟨hinv, hq⟩ := Vmem.quantized_init hpool (Nat.one_dvd _) (Nat.one_dvd _) (by decide)
    (by decide) hinit
  exact ⟨hinv, hq, by simp⟩

/-- An arena without allocated segments can be destroyed. -/
theorem InStep.destroy (h : InStep map) (hempty : map.entries = []) :
    (vmemDestroy map.vmem).isSome = true := by
  have hallocs : allocs (view map.vmem) = [] := by
    have hlive := h.arena.live
    rw [hempty] at hlive
    exact hlive.nil_eq.symm
  unfold vmemDestroy
  rw [if_pos]
  · rfl
  · intro i _
    refine List.eq_nil_iff_forall_not_mem.mpr fun t ht => ?_
    obtain ⟨-, hq, htype, -⟩ := (h.arena.linked.hash_iff i t).mp ht
    -- a tag in a bucket has an allocated segment
    have hmem : ((map.vmem.seg t).base, (map.vmem.seg t).size) ∈ allocs (view map.vmem) := by
      rw [Vmem.mem_allocs, ← htype]
      exact List.mem_map_of_mem hq
    rw [hallocs] at hmem
    cases hmem

/-! ## Arenas from which nothing has been freed -/

/-- Nothing has been freed from the arena of the map: it has no gaps, and no two neighbours are
free. -/
structure Fresh (map : Map) : Prop where
  inStep : InStep map
  tiled : Vmem.Tiled (· = ·) (view map.vmem)
  spaced : Vmem.Apart false (view map.vmem)
  span : ∃ t ∈ view map.vmem, t.isSpan = true

/-- A map just made is fresh: it has no entries, and its arena is one free segment in a span. -/
theorem fresh_new {pool : List Vmem.Tag} {vmem : Vmem.Arena Unit} (hpool : pool.Nodup)
    (hinit : vmemInit none (fun _ => ⟨.kVMemSegFree, 0, 0⟩) pool () userBase userSize = some vmem) :
    Fresh ⟨[], vmem⟩ := by
  have hinitial : Vmem.Initial (⟨vmem, []⟩ : Vmem.State Unit) :=
    ⟨rfl, _, pool, (), userBase, userSize, hpool, by decide, by decide, hinit⟩
  obtain ⟨hinv, hspaced⟩ := Vmem.inv_initial isGap_eq hinitial
  exact ⟨inStep_new hpool hinit, hinv.tiled, hspaced, Vmem.span_init hpool (by decide) hinit⟩

/-- An allocation keeps it so. -/
theorem fresh_insert (h : Fresh map) {size min offset addr : ℕ} {flags : Vmem.Flags}
    {vmem : Vmem.Arena Unit} (hlt : min + size < 2 ^ 64)
    (hx : vmemXalloc none map.vmem size 0 0 min 0 flags = some (.ok addr, vmem)) :
    Fresh ⟨entriesAfter map.entries o size offset (.ok addr), vmem⟩ := by
  have harena := h.inStep.arena
  have hinv : Vmem.Inv (· = ·) ⟨map.vmem, map.entries.map Entry.range⟩ :=
    ⟨harena.linked, h.tiled, harena.own, harena.live⟩
  obtain ⟨-, -, -, hallocates⟩ := Vmem.vmemXalloc_spec harena.linked hx
  obtain ⟨t, ht, hts⟩ := h.span
  exact ⟨inStep_insert h.inStep hlt hx,
    (Vmem.inv_xalloc isGap_eq hinv h.inStep.quantized user_top hlt hx).tiled,
    Vmem.apart_allocates h.spaced hallocates, t, hallocates.mem_of_span ht hts, hts⟩

/-- **A range of the span that no entry meets can be mapped**, at its own address. -/
theorem Fresh.exact_ok (h : Fresh map) {vmem : Vmem.Arena Unit} {r : Except ℤ ℕ}
    (he : userBase ≤ e.start ∧ e.stop ≤ userBase + userSize) (hne : e.start < e.stop)
    (hoff : ∀ x ∈ map.entries.map Entry.range, x.1 + x.2 ≤ e.start ∨ e.stop ≤ x.1)
    (hx : vmemXalloc none map.vmem (e.stop - e.start) 0 0 e.start 0 ⟨true⟩ = some (r, vmem)) :
    r = .ok e.start := by
  have hq := h.inStep.quantized
  have harena := h.inStep.arena
  have hlt : e.start + (e.stop - e.start) < 2 ^ 64 := by
    have := user_top
    omega
  -- no block meets the entry, and it is in the span: there is a free segment that holds it
  have hfree : Vmem.IsFreeRange (view map.vmem) e.start (e.stop - e.start) := by
    obtain ⟨t, ht, hts⟩ := h.span
    obtain ⟨hbase, hsize⟩ := hq.span t ht hts
    refine Vmem.isFreeRange_of_disjoint h.tiled h.spaced (by omega)
      ⟨t, ht, hts, hbase ▸ he.1, by rw [hbase, hsize]; omega⟩ fun x hx => ?_
    have := hoff x (harena.live.mem_iff.mpr hx)
    omega
  -- the span ends below `2^64`, so the exact comparison does not wrap
  have hend : ∀ t ∈ view map.vmem, t.base + t.size < 2 ^ 64 := by
    have htop := user_top
    intro t ht
    cases hts : t.isSpan with
    | true =>
        obtain ⟨hbase, hsize⟩ := hq.span t ht hts
        rw [hbase, hsize]
        omega
    | false =>
        obtain ⟨u, hu, hus, -, hhi⟩ := harena.tiled.in_span isGap_le ht hts
        obtain ⟨hbase, hsize⟩ := hq.span u hu hus
        have hhi : t.base + t.size ≤ u.base + u.size := hhi
        omega
  obtain ⟨addr, rfl⟩ := Vmem.xalloc_exact_ok harena.linked hfree hend hx
  obtain ⟨-, -, -, -, hexact⟩ := Vmem.quantized_xalloc harena hq (Nat.one_dvd _) user_top
    (Nat.one_dvd _) (Nat.one_dvd _) hlt hx
  rw [hexact rfl]

/-! ## Forking -/

/-- `vm_map_fork` at one entry, up to the assertion: what `vm_map_object` returns for the copy. -/
def forkMap (newmap : MapId) (s : State) (e : Entry) (newobj : ObjId) :
    Option (Except ℤ ℕ × State) := do
  let obj ← s.objs.get? e.obj
  if obj.type = .kVMObjAnon then
    let s ← vmObjectCopy s e.obj newobj
    vmMapObject s newmap newobj e.start (sub64 e.stop e.start) e.offset none
  else none

/-- The assertion and what comes after it. -/
theorem forkEntry_eq (newmap : MapId) (s : State) (e : Entry) (newobj : ObjId) :
    forkEntry newmap s e newobj = (forkMap newmap s e newobj).bind fun x =>
      match x.1 with
      | .error _ => none
      | .ok _ => vmObjectRelease x.2 newobj := by
  unfold forkEntry forkMap
  cases s.objs.get? e.obj with
  | none => rfl
  | some obj =>
      show (if _ then _ else _) = (if _ then _ else _ : Option _).bind _
      split
      · cases vmObjectCopy s e.obj newobj with
        | none => rfl
        | some s₁ => rfl
      · rfl

/-- The child of a fork after the entries `done`: nothing has been freed, and each of them has been
made again. -/
def Child (maps : Heap Map) (newmap : MapId) (done : List Entry) (s : State) : Prop :=
  ∃ child, s.maps.get? newmap = some child ∧
    (∀ m, m ≠ newmap → s.maps.get? m = maps.get? m) ∧ Fresh child ∧
    child.entries.map Entry.range = done.map Entry.range

/-- **The next entry can be made again** at its address. -/
theorem forkMap_spec {newmap : MapId} {done rest : List Entry} {newobj : ObjId} {r : Except ℤ ℕ}
    (h : InStep map) (hentries : map.entries = done ++ e :: rest) (hc : Child maps newmap done s)
    (hs : forkMap newmap s e newobj = some (r, s')) :
    r = .ok e.start ∧ Child maps newmap (done ++ [e]) s' := by
  obtain ⟨child, hchild, hother, hfresh, hranges⟩ := hc
  unfold forkMap at hs
  obtain ⟨obj, -, hs⟩ := Option.bind_eq_some_iff.mp hs
  split at hs
  swap
  · cases hs
  obtain ⟨s₁, hcopy, hmapobj⟩ := Option.bind_eq_some_iff.mp hs
  obtain ⟨child', vmem, hchild', hx, hmaps⟩ := vmMapObject_maps hmapobj
  have hmaps₁ := vmObjectCopy_maps hcopy
  rw [hmaps₁, hchild] at hchild'
  obtain rfl := Option.some.inj hchild'
  rw [hmaps₁] at hmaps
  have he : e ∈ map.entries := hentries ▸ List.mem_append_right _ List.mem_cons_self
  have hne := h.nonempty e he
  have hspan := h.in_span he
  have htop : userBase + userSize < 2 ^ 64 - 1 := by decide
  have hsub : sub64 e.stop e.start = e.stop - e.start := sub64_eq (by omega) (by omega)
  have hexact : e.start ≠ vaddrMax := by
    unfold vaddrMax
    omega
  rw [hsub, if_pos hexact, decide_eq_true hexact] at hx
  -- the entries made before are those before it in the list
  have hoff : ∀ x ∈ child.entries.map Entry.range, x.1 + x.2 ≤ e.start ∨ e.stop ≤ x.1 := by
    rw [hranges]
    intro x hx
    obtain ⟨f, hf, rfl⟩ := List.mem_map.mp hx
    have hapart := h.apart
    rw [hentries] at hapart
    have hfe := (List.pairwise_append.mp hapart).2.2 f hf e List.mem_cons_self
    have := h.nonempty f (hentries ▸ List.mem_append_left _ hf)
    unfold Entry.Apart at hfe
    unfold Entry.range
    omega
  obtain rfl := hfresh.exact_ok hspan hne hoff hx
  have hstop : add64 e.start (e.stop - e.start) = e.stop := by
    rw [add64_eq (by omega), Nat.add_sub_cancel' (by omega)]
  rw [hsub] at hmaps
  refine ⟨rfl, ⟨entriesAfter child.entries newobj (e.stop - e.start) e.offset (.ok e.start), vmem⟩,
    ?_, fun m hm => ?_, fresh_insert hfresh (by omega) hx, ?_⟩
  · rw [hmaps, Heap.get?_set hchild, if_pos rfl]
    rfl
  · rw [hmaps, Heap.get?_set hchild, if_neg hm]
    exact hother m hm
  · show (child.entries ++ [(⟨e.start, add64 e.start (e.stop - e.start), e.offset, newobj⟩ : Entry)]).map
      Entry.range = _
    rw [List.map_append, List.map_append, hranges, hstop]
    rfl

/-- The loop of `vm_map_fork`. -/
theorem forkEntries_child {newmap : MapId} {done es rest : List Entry} {os : List ObjId}
    (h : InStep map) (hentries : map.entries = done ++ (es ++ rest)) (hc : Child maps newmap done s)
    (hs : forkEntries newmap s es os = some s') : Child maps newmap (done ++ es) s' := by
  -- `done` are the entries forked so far: the child consists of their ranges
  induction es generalizing s done os with
  | nil =>
      rw [forkEntries] at hs
      obtain rfl := Option.some.inj hs
      rwa [List.append_nil]
  | cons e es ih =>
      cases os with
      | nil => cases hs
      | cons o os =>
          rw [forkEntries] at hs
          obtain ⟨s₁, hone, hs⟩ := Option.bind_eq_some_iff.mp hs
          rw [forkEntry_eq] at hone
          obtain ⟨⟨r, s₂⟩, hmap, hone⟩ := Option.bind_eq_some_iff.mp hone
          obtain ⟨rfl, hc₂⟩ := forkMap_spec h hentries hc hmap
          have hmaps : s₁.maps = s₂.maps := vmObjectRelease_maps hone
          have hc₁ : Child maps newmap (done ++ [e]) s₁ := by
            unfold Child
            rw [hmaps]
            exact hc₂
          have hentries' : map.entries = (done ++ [e]) ++ (es ++ rest) := by
            rw [hentries]
            simp
          have := ih hentries' hc₁ hs
          rwa [List.append_assoc] at this

/-- A new map is a child without entries. -/
theorem child_new {newmap : MapId} {pool : List Vmem.Tag} (hpool : pool.Nodup)
    (hs : vmMapNew s newmap pool = some s') : Child s.maps newmap [] s' := by
  obtain ⟨vmem, maps, hinit, halloc, rfl⟩ := vmMapNew_eq hs
  refine ⟨⟨[], vmem⟩, ?_, fun m hm => ?_, fresh_new hpool hinit, rfl⟩
  · rw [Heap.get?_alloc halloc, if_pos rfl]
  · rw [Heap.get?_alloc halloc, if_neg hm]

/-! ## Calls -/

/-- Every user map is in step. -/
def UserOk (maps : Heap Map) : Prop := ∀ m map, m ≠ kmap → maps.get? m = some map → InStep map

/-- One map has changed. -/
structure Becomes (m : MapId) (map' : Map) (s s' : State) : Prop where
  this : s'.maps.get? m = some map'
  other : ∀ m', m' ≠ m → s'.maps.get? m' = s.maps.get? m'

/-- One map is replaced and the others stay. -/
theorem becomes_set (hmap : s.maps.get? m = some map) {map' : Map}
    (hmaps : s'.maps = s.maps.set m map') : Becomes m map' s s' := by
  refine ⟨?_, fun m' hm' => ?_⟩
  · rw [hmaps, Heap.get?_set hmap, if_pos rfl]
  · rw [hmaps, Heap.get?_set hmap, if_neg hm']

/-- Replacing a map by one that is in step keeps every user map in step. -/
theorem userOk_becomes {map' : Map} (h : UserOk s.maps) (hb : Becomes m map' s s')
    (hnew : m ≠ kmap → InStep map') : UserOk s'.maps := by
  intro m₁ map₁ hm₁ hget
  by_cases hm : m₁ = m
  · subst hm
    rw [hb.this] at hget
    exact Option.some.inj hget ▸ hnew hm₁
  · rw [hb.other m₁ hm] at hget
    exact h m₁ map₁ hm₁ hget

/-- A request for any address, or for one whose range does not wrap around. -/
def RequestOk (vaddr size : ℕ) : Prop := vaddr = vaddrMax ∨ vaddr + size < 2 ^ 64

instance (vaddr size : ℕ) : Decidable (RequestOk vaddr size) := inferInstanceAs (Decidable (_ ∨ _))

/-- A request does not pass `2 ^ 64`, whether its address is given or not. -/
theorem RequestOk.lt {vaddr size : ℕ} (h : RequestOk vaddr size) (hsize : size < 2 ^ 64) :
    (if vaddr ≠ vaddrMax then vaddr else 0) + size < 2 ^ 64 := by
  split
  · exact h.resolve_left ‹_›
  · omega

/-- `vm_map_object` keeps every user map in step. -/
theorem userOk_mapObject {vaddr size offset : ℕ} {newobj : Option ObjId} {r : Except ℤ ℕ}
    (h : UserOk s.maps) (hsize : size < 2 ^ 64) (hreq : RequestOk vaddr size)
    (hs : vmMapObject s m o vaddr size offset newobj = some (r, s')) : UserOk s'.maps := by
  obtain ⟨map, vmem, hmap, hx, hmaps⟩ := vmMapObject_maps hs
  exact userOk_becomes h (becomes_set hmap hmaps)
    fun hm => inStep_insert (h m map hm hmap) (hreq.lt hsize) hx

/-- **`vm_deallocate`** keeps a map in step, and drops the entries inside the range. -/
theorem inStep_deallocate {start size : ℕ} (h : InStep map) (hmap : s.maps.get? m = some map)
    (hs : vmDeallocate s m start size = some s') :
    ∃ map', (InStep map' ∧ Becomes m map' s s') ∧ ∀ e, e ∈ map'.entries ↔
      e ∈ map.entries ∧ ¬ (start ≤ e.start ∧ e.stop ≤ add64 start size) := by
  refine deallocate_rule (R := fun x map' => InStep map' ∧ Becomes m map' s x)
    (fun _ _ hR => hR.1.nodup) (fun _ _ hR => hR.1.nonempty) ?_ hmap ⟨h, hmap, fun _ _ => rfl⟩ hs
  intro x map₁ e x' hR he hun
  obtain ⟨hin, hthis, hother⟩ := hR
  obtain ⟨n, vmem, hfree, hmaps⟩ := unmapEntry_maps hthis hun
  have hb := becomes_set hthis hmaps
  exact ⟨vmem, inStep_remove hin he hfree, hb.this, fun m' hm' =>
    (hb.other m' hm').trans (hother m' hm')⟩

/-- What `vm_deallocate` does to the maps: entries of one map go, one by one. -/
theorem deallocate_maps {P : Heap Map → Prop} {start size : ℕ} (hs : vmDeallocate s m start size = some s')
    (h : P s.maps) (hstep : ∀ maps map e vmem, maps.get? m = some map → P maps →
      P (maps.set m ⟨map.entries.erase e, vmem⟩)) : P s'.maps := by
  unfold vmDeallocate at hs
  obtain ⟨map, -, hs⟩ := Option.bind_eq_some_iff.mp hs
  refine foldlM_invariant (P := fun x => P x.maps) hs h ?_
  intro x e _ x' hx hone
  rcases deallocateEntry_cases hone with rfl | ⟨-, -, hun⟩
  · exact hx
  · obtain ⟨map₁, -, -, -, -, -, hmap₁, -⟩ := unmapEntry_cases hun
    obtain ⟨n, vmem, -, hmaps⟩ := unmapEntry_maps hmap₁ hun
    rw [hmaps]
    exact hstep x.maps map₁ e vmem hmap₁ hx

/-- `vm_deallocate` of the kernel's map changes no other map. -/
theorem deallocate_other {start size : ℕ} (hs : vmDeallocate s m start size = some s') :
    ∀ m', m' ≠ m → s'.maps.get? m' = s.maps.get? m' := by
  intro m' hm'
  refine deallocate_maps (P := fun maps => maps.get? m' = s.maps.get? m') hs rfl ?_
  intro maps map e vmem hmap hx
  rw [Heap.get?_set hmap, if_neg hm', hx]

/-- `vm_deallocate` keeps every user map in step. -/
theorem userOk_deallocate {start size : ℕ} (h : UserOk s.maps)
    (hs : vmDeallocate s m start size = some s') : UserOk s'.maps := by
  have hmap : ∃ map, s.maps.get? m = some map := by
    unfold vmDeallocate at hs
    obtain ⟨map, hmap, -⟩ := Option.bind_eq_some_iff.mp hs
    exact ⟨map, hmap⟩
  obtain ⟨map, hmap⟩ := hmap
  by_cases hm : m = kmap
  · intro m' map' hm' hget
    rw [deallocate_other hs m' (hm ▸ hm')] at hget
    exact h m' map' hm' hget
  · obtain ⟨map', ⟨hin, hb⟩, -⟩ := inStep_deallocate (h m map hm hmap) hmap hs
    exact userOk_becomes h hb fun _ => hin

/-- A child that is fresh is in step, and the other maps are as they were. -/
theorem userOk_child {newmap : MapId} {done : List Entry} (h : UserOk s.maps)
    (hc : Child s.maps newmap done s') : UserOk s'.maps := by
  obtain ⟨child, hchild, hother, hfresh, -⟩ := hc
  exact userOk_becomes h ⟨hchild, hother⟩ fun _ => hfresh.inStep

/-- **`vm_map_fork`** keeps every map in step. -/
theorem userOk_fork {newmap : MapId} {newobjs : List ObjId} {pool : List Vmem.Tag}
    (h : UserOk s.maps) (hpool : pool.Nodup) (hs : vmMapFork s m newmap newobjs pool = some s') :
    UserOk s'.maps := by
  obtain ⟨s₁, hnew, ⟨-, rfl⟩ | ⟨hm, map, hmap, hfork⟩⟩ := vmMapFork_cases hs
  · exact userOk_child h (child_new hpool hnew)
  · have hc := child_new hpool hnew
    have hin := userOk_child h hc m map hm hmap
    have hentries : map.entries = [] ++ (map.entries ++ []) := by simp
    exact userOk_child h (forkEntries_child hin hentries hc hfork)

/-- The addresses a step asks for do not wrap around. -/
def NoWrap (_ : Sys) : Action → Prop
  | .call (.vmMapObject _ _ vaddr size _ _) => RequestOk vaddr size
  | .call (.vmAllocate _ _ vaddr size) => RequestOk vaddr size
  | _ => True

instance (t : Sys) (x : Action) : Decidable (NoWrap t x) :=
  match x with
  | .call (.vmMapObject _ _ vaddr size _ _) => inferInstanceAs (Decidable (RequestOk vaddr size))
  | .call (.vmAllocate _ _ vaddr size) => inferInstanceAs (Decidable (RequestOk vaddr size))
  | .call (.segRefill ..) | .call (.kheapAlloc ..) | .call (.kheapFree ..) | .call (.vmMapNew ..)
  | .call (.vmAobjNew ..) | .call (.vmObjectRetain ..) | .call (.vmObjectRelease ..)
  | .call (.vmObjectCopy ..) | .call (.vmDeallocate ..) | .call (.vmMapFork ..) | .read ..
  | .write .. | .vmMapRelease .. => isTrue trivial

/-- **Every call keeps the user maps in step.** -/
theorem userOk_call {c : Call} (h : UserOk t.st.maps) (hok : NoWrap t (.call c))
    (hs : call t c = some t') : UserOk t'.st.maps := by
  -- the kernel map is left out, the others change by one entry at a time
  cases call_cases hs with
  | segRefill m pool map hmap hpool =>
      refine userOk_becomes h (becomes_set hmap rfl) fun hm => ?_
      have hin := h m map hm hmap
      exact ⟨Vmem.inv_withPool hin.arena hpool, hin.quantized, hin.nonempty⟩
  | kheapAlloc npages hsize map addr vmem hmap hx =>
      exact userOk_becomes h (becomes_set hmap rfl) fun hm => absurd rfl hm
  | kheapFree addr map n vmem hmap hother hx =>
      exact userOk_becomes h (becomes_set hmap rfl) fun hm => absurd rfl hm
  | vmMapNew m pool hpool st hst => exact userOk_child h (child_new hpool hst)
  | vmAobjNew o size st hst => exact vmAobjNew_maps hst ▸ h
  | vmObjectRetain o st hst => exact vmObjectRetain_maps hst ▸ h
  | vmObjectRelease o hheld st hst => exact vmObjectRelease_maps hst ▸ h
  | vmObjectCopy o newobj st hst => exact vmObjectCopy_maps hst ▸ h
  | vmMapObject m o vaddr size offset newobj _ hsize _ _ r st hst =>
      exact userOk_mapObject h hsize hok hst
  | vmAllocate m o vaddr size _ hsize r st hst =>
      obtain ⟨s₁, s₂, hnew, hmapobj, hrel⟩ := vmAllocate_cases hst
      have h₁ : UserOk s₁.maps := vmAobjNew_maps hnew ▸ h
      exact vmObjectRelease_maps hrel ▸ userOk_mapObject h₁ hsize hok hmapobj
  | vmDeallocate m start size _ _ st hst => exact userOk_deallocate h hst
  | vmMapFork m newmap newobjs pool hpool st hst => exact userOk_fork h hpool hst

/-- A step of the system keeps every user map in step. -/
theorem userOk_step {x : Action} (h : UserOk t.st.maps) (hok : NoWrap t x)
    (hs : step t x = some t') : UserOk t'.st.maps := by
  cases step_cases hs with
  | call c t' hcall => exact userOk_call h hok hcall
  | read m v b a p st _ htouch => exact touch_maps htouch ▸ h
  | write m v b a p st st' _ htouch hstore =>
      have h₁ : UserOk st.maps := touch_maps htouch ▸ h
      exact store_maps hstore ▸ h₁
  | vmMapRelease m st hm hrel =>
      obtain ⟨s₁, map, hdealloc, -, -, rfl⟩ := vmMapRelease_cases hrel
      have h₁ := userOk_deallocate h hdealloc
      intro m' map' hm' hget
      show InStep map'
      have hget : (s₁.maps.free m).get? m' = some map' := hget
      rw [Heap.get?_free] at hget
      split at hget
      · cases hget
      · exact h₁ m' map' hm' hget

/-! ## Runs -/

/-- **The two records of a user map agree**, and what follows. -/
structure Agrees (s : State) (m : MapId) (map : Map) : Prop where
  /-- The ranges of the entries are the allocated segments of the arena. -/
  ranges : (map.entries.map Entry.range).Perm (allocs (view map.vmem))
  apart : map.entries.Pairwise Entry.Apart
  in_span : ∀ e ∈ map.entries, userBase ≤ e.start ∧ e.start < e.stop ∧ e.stop ≤ userBase + userSize
  /-- An exact request to `vm_map_object` that succeeds is placed at the address asked for. -/
  mapped : ∀ o vaddr size offset newobj addr s', vaddr ≠ vaddrMax → vaddr + size < 2 ^ 64 →
    vmMapObject s m o vaddr size offset newobj = some (.ok addr, s') →
      addr = vaddr ∧ ∃ map', s'.maps.get? m = some map' ∧
        map'.entries = map.entries ++ [⟨vaddr, vaddr + size, offset, newobj.getD o⟩]
  /-- And one to `vm_allocate`. -/
  allocated : ∀ o vaddr size addr s', vaddr ≠ vaddrMax → vaddr + size < 2 ^ 64 →
    vmAllocate s m o vaddr size = some (.ok addr, s') →
      addr = vaddr ∧ ∃ map', s'.maps.get? m = some map' ∧
        map'.entries = map.entries ++ [⟨vaddr, vaddr + size, 0, o⟩]
  /-- `vm_map_fork` makes every entry it comes to again, at its address. -/
  forks : ∀ newmap pool s₁ done e rest os newobj s₂ r s₃, pool.Nodup →
    vmMapNew s newmap pool = some s₁ → map.entries = done ++ e :: rest →
    forkEntries newmap s₁ done os = some s₂ → forkMap newmap s₂ e newobj = some (r, s₃) →
      r = .ok e.start
  /-- After the deallocation in `vm_map_release` no allocation is left. -/
  destroys : ∀ s', vmDeallocate s m userBase userSize = some s' →
    ∃ map', s'.maps.get? m = some map' ∧ (vmemDestroy map'.vmem).isSome = true

/-- An exact request that is served. -/
theorem mapObject_exact (h : InStep map) (hmap : s.maps.get? m = some map)
    {vaddr size offset addr : ℕ} {newobj : Option ObjId} (hexact : vaddr ≠ vaddrMax)
    (hlt : vaddr + size < 2 ^ 64)
    (hs : vmMapObject s m o vaddr size offset newobj = some (.ok addr, s')) :
    addr = vaddr ∧ ∃ map', s'.maps.get? m = some map' ∧
      map'.entries = map.entries ++ [⟨vaddr, vaddr + size, offset, newobj.getD o⟩] := by
  obtain ⟨map₁, vmem, hmap₁, hx, hmaps⟩ := vmMapObject_maps hs
  obtain rfl := Option.some.inj (hmap.symm.trans hmap₁)
  rw [if_pos hexact, decide_eq_true hexact] at hx
  obtain ⟨-, -, -, -, haddr⟩ := Vmem.quantized_xalloc h.arena h.quantized (Nat.one_dvd _) user_top
    (Nat.one_dvd _) (Nat.one_dvd _) hlt hx
  obtain rfl := haddr rfl
  refine ⟨rfl, _, (becomes_set hmap hmaps).this, ?_⟩
  show map.entries ++ [⟨addr, add64 addr size, offset, newobj.getD o⟩] = _
  rw [add64_eq hlt]

/-- A map in step agrees with its arena. -/
theorem InStep.agrees (h : InStep map) (hmap : s.maps.get? m = some map) :
    Agrees s m map where
  ranges := h.arena.live
  apart := h.apart
  in_span e he := ⟨(h.in_span he).1, h.nonempty e he, (h.in_span he).2⟩
  mapped _ _ _ _ _ _ _ hexact hlt hs := mapObject_exact h hmap hexact hlt hs
  allocated o vaddr size addr s' hexact hlt hs := by
    obtain ⟨s₁, s₂, hnew, hmapobj, hrel⟩ := vmAllocate_cases hs
    have hmap₁ : s₁.maps.get? m = some map := vmAobjNew_maps hnew ▸ hmap
    rw [vmObjectRelease_maps hrel]
    exact mapObject_exact h hmap₁ hexact hlt hmapobj
  forks newmap pool s₁ done e rest os newobj s₂ r s₃ hpool hnew hentries hfork hs := by
    have hentries' : map.entries = [] ++ (done ++ (e :: rest)) := hentries
    have hc := forkEntries_child h hentries' (child_new hpool hnew) hfork
    exact (forkMap_spec h hentries hc hs).1
  destroys s' hs := by
    obtain ⟨map', ⟨hin, hb⟩, hentries⟩ := inStep_deallocate h hmap hs
    refine ⟨map', hb.this, hin.destroy (List.eq_nil_iff_forall_not_mem.mpr fun e he => ?_)⟩
    obtain ⟨he, hout⟩ := (hentries e).mp he
    exact hout (h.in_span he)

/-- In every run in which no request wraps around, every user map is in step. -/
theorem userOk_reach {t₀ t : Sys} (h₀ : Boot t₀) (h : machine.Reach NoWrap t₀ t) : UserOk t.st.maps := by
  refine h.invariant (I := fun t => UserOk t.st.maps) ?_ fun _ _ _ hi hc hs => userOk_step hi hc hs
  intro m map hm hget
  exact absurd (h₀.maps_eq m (by rw [hget]; simp)) hm

/-- **Entries and address space stay in step.** In every run in which no request for an exact address
wraps around, the entries of every user map are the allocated segments of its arena, disjoint and in
its span; exact requests are placed where they ask for; and the assertions of `vm_map_fork` and
`vmem_destroy` hold. -/
theorem entries_in_step {t₀ t : Sys} (h₀ : Boot t₀) (h : machine.Reach NoWrap t₀ t) (m : MapId)
    (map : Map) (hm : m ≠ kmap) (hmap : t.st.maps.get? m = some map) : Agrees t.st m map :=
  (userOk_reach h₀ h m map hm hmap).agrees hmap

/-- A parent with memory at `0x2000` and wherever there is room; a request for `0x2000` that fails; a
fork; and the parent gives its first range back. -/
def exactRun : List Action :=
  [.call (.vmMapNew 1 [0, 1]), .call (.segRefill 1 [2, 3]), .call (.vmAllocate 1 0 0x2000 0x1000),
    .write 1 0x2000 7 0 0, .call (.segRefill 1 [4, 5]), .call (.vmAllocate 1 1 vaddrMax 0x1000),
    .write 1 0x1000 8 1 1, .call (.segRefill 1 [6, 7]), .call (.vmAllocate 1 2 0x2000 0x1000),
    .call (.vmMapFork 1 2 [3, 4] [0, 1, 2, 3, 4, 5]), .call (.vmDeallocate 1 0x2000 0x1000)]

/-- Parent and child are in step afterwards. -/
theorem entries_in_step_forked :
    ∃ t parent child, machine.exec bootSys exactRun = some t ∧
      t.st.maps.get? 1 = some parent ∧ t.st.maps.get? 2 = some child ∧
      parent.entries.map Entry.range = [(0x1000, 0x1000)] ∧
      child.entries.map Entry.range = [(0x2000, 0x1000), (0x1000, 0x1000)] ∧
      Agrees t.st 1 parent ∧ Agrees t.st 2 child := by
  have hrun : (machine.exec bootSys exactRun).map (fun t => [1, 2].map fun m =>
      (t.st.maps.get? m).map fun map => map.entries.map Entry.range)
        = some [some [(0x1000, 0x1000)], some [(0x2000, 0x1000), (0x1000, 0x1000)]] := by decide
  obtain ⟨t, ht, hmaps⟩ := Option.map_eq_some_iff.mp hrun
  rw [List.map_cons, List.map_cons, List.map_nil, List.cons.injEq, List.cons.injEq] at hmaps
  obtain ⟨h₁, h₂, -⟩ := hmaps
  obtain ⟨parent, hparent, hranges₁⟩ := Option.map_eq_some_iff.mp h₁
  obtain ⟨child, hchild, hranges₂⟩ := Option.map_eq_some_iff.mp h₂
  have hreach : machine.Reach NoWrap bootSys t := Machine.reach_of_exec
    (c := fun t x => decide (NoWrap t x)) (fun _ _ hc => of_decide_eq_true hc) (by decide) ht
  exact ⟨t, parent, child, ht, hparent, hchild, hranges₁, hranges₂,
    entries_in_step boot_bootSys hreach 1 parent (by decide) hparent,
    entries_in_step boot_bootSys hreach 2 child (by decide) hchild⟩

end Scalux.Vm
