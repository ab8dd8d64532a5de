import Scalux.Vm.Coherence

/-! # A fork is a deep copy

The memory of a user map as its threads see it is a function from addresses to bytes.  The
specification (`RefStep`) gives every map a memory of its own: `vm_allocate` installs zero bytes, a
fork copies the whole memory at once, a write changes one byte of one map.

The state has more structure than that: anons are shared by objects, mapped read-only while they are
shared, and copied when they are written.  Where each object is mapped by one entry, the memory of a
map is what its entries find in the slots of their objects (`mem`), and every step on the state is a
step of the specification on these memories.

* **`cow_refines`**: every run whose addresses are pages and whose counts have room is a run of the
  specification, and every read of a mapped address can be made and returns the specification's byte.
* **`cow_stale`**: a map whose second page is not a page of its own. -/

namespace Scalux.Vm

variable {s s' : State} {m : MapId} {o : ObjId} {a : AnonId} {p : Page} {v : ℕ} {map : Map}
  {maps : Heap Map} {held : List ObjId} {e f : Entry} {t t' : Sys}

/-! ## The specification -/

/-- A flat memory: the byte at each mapped address. -/
abbrev Memory := ℕ → Option UInt8

/-- The memory of each map that is in use. -/
abbrev Memories := MapId → Option Memory

/-- What a step means for the memories. -/
inductive RefAction
  | tau
  | new (m : MapId)
  | allocate (m : MapId) (vaddr addr size : ℕ)
  | deallocate (m : MapId) (start size : ℕ)
  | fork (m newmap : MapId)
  | release (m : MapId)
  | read (m : MapId) (v : ℕ) (b : UInt8)
  | write (m : MapId) (v : ℕ) (b : UInt8)
  deriving DecidableEq, Repr

/-- **The specification**: each map owns a private memory. -/
inductive RefStep (M : Memories) : RefAction → Memories → Prop
  | tau : RefStep M .tau M
  | new {m : MapId} (hm : M m = none) :
      RefStep M (.new m) (Function.update M m (some fun _ => none))
  | allocate {m : MapId} {f : Memory} {vaddr addr size : ℕ} (hm : M m = some f)
      (hexact : vaddr ≠ vaddrMax → addr = vaddr)
      (hfresh : ∀ v, addr ≤ v → v < addr + size → f v = none) :
      RefStep M (.allocate m vaddr addr size)
        (Function.update M m
          (some fun v => if addr ≤ v ∧ v < addr + size then some 0 else f v))
  | deallocate {m : MapId} {f : Memory} {start size : ℕ} (hm : M m = some f) :
      RefStep M (.deallocate m start size)
        (Function.update M m
          (some fun v => if start ≤ v ∧ v < start + size then none else f v))
  | fork {m newmap : MapId} {f : Memory} (hm : M m = some f) (hnew : M newmap = none) :
      RefStep M (.fork m newmap) (Function.update M newmap (some f))
  | release {m : MapId} {f : Memory} (hm : M m = some f) :
      RefStep M (.release m) (Function.update M m none)
  | read {m : MapId} {f : Memory} {v : ℕ} {b : UInt8} (hm : M m = some f) (hv : f v = some b) :
      RefStep M (.read m v b) M
  | write {m : MapId} {f : Memory} {v : ℕ} {b : UInt8} (hm : M m = some f) (hv : f v ≠ none) :
      RefStep M (.write m v b) (Function.update M m (some (Function.update f v (some b))))

/-- What a step shows of itself: an access its byte, `vm_allocate` the address it returns. -/
inductive Observed : Action → RefAction → Prop
  | segRefill (m : MapId) (pool : List Vmem.Tag) : Observed (.call (.segRefill m pool)) .tau
  | vmMapNew (m : MapId) (pool : List Vmem.Tag) : Observed (.call (.vmMapNew m pool)) (.new m)
  | vmAllocate (m : MapId) (o : ObjId) (vaddr size addr : ℕ) :
      Observed (.call (.vmAllocate m o vaddr size)) (.allocate m vaddr addr size)
  | vmDeallocate (m : MapId) (start size : ℕ) :
      Observed (.call (.vmDeallocate m start size)) (.deallocate m start size)
  | vmMapFork (m newmap : MapId) (newobjs : List ObjId) (pool : List Vmem.Tag) :
      Observed (.call (.vmMapFork m newmap newobjs pool)) (.fork m newmap)
  | vmMapRelease (m : MapId) : Observed (.vmMapRelease m) (.release m)
  | read (m : MapId) (v : ℕ) (b : UInt8) (a : AnonId) (p : Page) :
      Observed (.read m v b a p) (.read m v b)
  | write (m : MapId) (v : ℕ) (b : UInt8) (a : AnonId) (p : Page) :
      Observed (.write m v b a p) (.write m v b)

/-! ## Memories of the state -/

/-- The byte that a map has at an address. -/
def mem (s : State) (m : MapId) (v : ℕ) : Option UInt8 :=
  (objPage s m v).map fun x => content s x.1 x.2 (v % pgSize)

/-- The memories of the user maps. -/
def memories (s : State) : Memories := fun m =>
  if m = kmap then none else (s.maps.get? m).map fun _ => mem s m

/-- Every object is mapped by one entry at most, from its start. -/
structure Private (maps : Heap Map) : Prop where
  sole : ∀ m map e m' map' e', maps.get? m = some map → e ∈ map.entries →
    maps.get? m' = some map' → e' ∈ map'.entries → e'.obj = e.obj → m' = m ∧ e' = e
  offset_eq : ∀ m map, maps.get? m = some map → ∀ e ∈ map.entries, e.offset = 0

/-- What a map has at an address, by its entries. -/
theorem mem_eq_some (hok : MapsOk s.maps) {b : UInt8} :
    mem s m v = some b ↔ ∃ map e, s.maps.get? m = some map ∧ e ∈ map.entries ∧ e.Has v ∧
      content s e.obj (e.page v) (v % pgSize) = b := by
  rw [mem, Option.map_eq_some_iff, objPage, objPageIn_eq]
  constructor
  · rintro ⟨⟨o, page⟩, hop, hb⟩
    obtain ⟨map, hmap, hop⟩ := Option.bind_eq_some_iff.mp hop
    obtain ⟨e, he, hhas, rfl, rfl⟩ := (hok m map hmap).objPageOf_eq.mp hop
    exact ⟨map, e, hmap, he, hhas, hb⟩
  · rintro ⟨map, e, hmap, he, hhas, hb⟩
    rw [hmap]
    exact ⟨(e.obj, e.page v), (hok m map hmap).objPageOf_eq.mpr ⟨e, he, hhas, rfl, rfl⟩, hb⟩

/-- Contents are the same where the slots are and pages and their bytes are. -/
theorem content_congr {o' : ObjId} {page : ℕ} (hr : Refs s'.objs [] s') (hbytes : s'.bytes = s.bytes)
    (hanon : ∀ a x, s'.anons.get? a = some x → ∃ y, s.anons.get? a = some y ∧
      x.physpage = y.physpage)
    (hslot : slotIn s'.objs o' page = slotIn s.objs o page) (off : ℕ) :
    content s' o' page off = content s o page off := by
  unfold content
  rw [← hslot]
  cases hs : slotIn s'.objs o' page with
  | none => rfl
  | some a =>
      obtain ⟨obj, hobj, hmem⟩ := mem_slots_of_slotIn hs
      obtain ⟨x, hx⟩ := hr.slot_valid o' obj a hobj hmem
      obtain ⟨y, hy, hpage⟩ := hanon a x hx
      rw [Option.bind_some, Option.bind_some, hx, hy, Option.elim_some, Option.elim_some, hbytes,
        hpage]

theorem Keeps.content_eq (h : Keeps s s') (hr : Refs s'.objs [] s') (ho : s'.objs.get? o ≠ none)
    (page off : ℕ) : content s' o page off = content s o page off :=
  content_congr hr h.bytes_eq h.anon_page ((h.slot_eq o ho).2 page) off

/-- The object of an entry is there. -/
theorem Inv.obj_ne_none (h : Inv held s) (hmap : s.maps.get? m = some map) (he : e ∈ map.entries) :
    s.objs.get? e.obj ≠ none := by
  obtain ⟨obj, hobj⟩ := h.sound.holds.entry_valid m map hmap e he
  rw [hobj]
  simp

/-- The memory of a map is the same if its entries and the contents of their objects are. -/
theorem mem_congr {m' : MapId} {map' : Map} (hok : MapsOk s.maps) (hok' : MapsOk s'.maps)
    (hmap : s.maps.get? m = some map) (hmap' : s'.maps.get? m' = some map')
    (hentries : map'.entries = map.entries)
    (hcontent : ∀ e ∈ map.entries, ∀ page off, content s' e.obj page off = content s e.obj page off) :
    mem s' m' = mem s m := by
  funext v
  refine Option.ext fun b => ?_
  rw [mem_eq_some hok, mem_eq_some hok']
  constructor
  · rintro ⟨x, e, hx, he, hhas, hb⟩
    obtain rfl := Option.some.inj (hmap'.symm.trans hx)
    rw [hentries] at he
    exact ⟨map, e, hmap, he, hhas, (hcontent e he _ _).symm.trans hb⟩
  · rintro ⟨x, e, hx, he, hhas, hb⟩
    obtain rfl := Option.some.inj (hmap.symm.trans hx)
    exact ⟨map', e, hmap', hentries ▸ he, hhas, (hcontent e he _ _).trans hb⟩

/-- The memories of maps that have what they had. -/
theorem memories_congr (hok : MapsOk s.maps) (hok' : MapsOk s'.maps)
    (hget : s'.maps.get? m = s.maps.get? m)
    (hcontent : ∀ map, s.maps.get? m = some map → ∀ e ∈ map.entries, ∀ page off,
      content s' e.obj page off = content s e.obj page off) :
    memories s' m = memories s m := by
  unfold memories
  rw [hget]
  split
  · rfl
  · cases hmap : s.maps.get? m with
    | none => rfl
    | some map =>
        exact congrArg some (mem_congr hok hok' hmap (hget.trans hmap) rfl (hcontent map hmap))

/-- The memory of one map has changed. -/
theorem memories_eq_update {x : Option Memory} (hother : ∀ m', m' ≠ m → memories s' m' = memories s m')
    (hthis : memories s' m = x) : memories s' = Function.update (memories s) m x := by
  funext m'
  rw [Function.update_apply]
  split
  · rename_i hm
    rw [hm, hthis]
  · rename_i hm
    exact hother m' hm

/-- The memory of a user map in use. -/
theorem memories_eq (hm : m ≠ kmap) (hmap : s.maps.get? m = some map) :
    memories s m = some (mem s m) := by
  rw [memories, if_neg hm, hmap]
  rfl

/-! ## One entry for each object -/

/-- The page of an entry that maps its object from the start. -/
theorem EntryOk.page_eq {lo : ℕ} (hok : EntryOk lo e) (htop : lo + userSize < 2 ^ 64)
    (hoffset : e.offset = 0) (hhas : e.Has v) : e.page v = (pgRoundDown v - e.start) / pgSize := by
  obtain ⟨hlo, hhi⟩ := hok.has_pgRoundDown hhas
  have hle := hok.le_hi
  unfold Entry.page add64 sub64
  rw [hoffset]
  congr 1
  omega

/-- Addresses with one page of an object that one entry maps are in one map, in one page. -/
theorem eq_of_objPageIn (hok : MapsOk maps) {m' : MapId} {v' page : ℕ}
    (hsole : ∀ m map, maps.get? m = some map → ∀ e ∈ map.entries, ∀ m' map', maps.get? m' = some map' →
      ∀ e' ∈ map'.entries, e.obj = o → e'.obj = o → m' = m ∧ e' = e ∧ e.offset = 0)
    (h : objPageIn maps m v = some (o, page)) (h' : objPageIn maps m' v' = some (o, page)) :
    m' = m ∧ pgRoundDown v' = pgRoundDown v := by
  rw [objPageIn_eq] at h h'
  obtain ⟨map, hmap, h⟩ := Option.bind_eq_some_iff.mp h
  obtain ⟨map', hmap', h'⟩ := Option.bind_eq_some_iff.mp h'
  obtain ⟨e, he, hhas, hobj, rfl⟩ := (hok m map hmap).objPageOf_eq.mp h
  obtain ⟨e', he', hhas', hobj', hpage⟩ := (hok m' map' hmap').objPageOf_eq.mp h'
  -- the object has one entry, so both addresses lie in it and the page numbers tell them apart
  obtain ⟨rfl, rfl, hoffset⟩ := hsole m map hmap e he m' map' hmap' e' he' hobj hobj'
  obtain rfl := Option.some.inj (hmap.symm.trans hmap')
  have hentry := (hok m' map hmap).entry_ok e' he
  have htop := mapLo_top m'
  rw [hentry.page_eq (by omega) hoffset hhas, hentry.page_eq (by omega) hoffset hhas'] at hpage
  obtain ⟨hlo, -⟩ := hentry.has_pgRoundDown hhas
  obtain ⟨hlo', -⟩ := hentry.has_pgRoundDown hhas'
  have hmod := pgRoundDown_mod v
  have hmod' := pgRoundDown_mod v'
  obtain ⟨k, hk⟩ := hentry.start_dvd
  refine ⟨rfl, ?_⟩
  unfold pgSize at *
  omega

theorem Private.eq_of_objPageIn (hpriv : Private maps) (hok : MapsOk maps) {m' : MapId} {v' page : ℕ}
    (h : objPageIn maps m v = some (o, page)) (h' : objPageIn maps m' v' = some (o, page)) :
    m' = m ∧ pgRoundDown v' = pgRoundDown v := by
  refine Vm.eq_of_objPageIn hok (fun m map hmap e he m' map' hmap' e' he' hobj hobj' => ?_) h h'
  obtain ⟨hm, he'⟩ := hpriv.sole m map e m' map' e' hmap he hmap' he' (hobj'.trans hobj.symm)
  exact ⟨hm, he', hpriv.offset_eq m map hmap e he⟩

/-- Where the page of an object is in one place, no other mapping shows its slot. -/
theorem cowAlone_of_sole (h : Inv held s)
    (hsole : ∀ o page m' v', objPage s m v = some (o, page) → objPage s m' v' = some (o, page) →
      m' = m ∧ pgRoundDown v' = pgRoundDown v) : CowAlone s m v := by
  intro _
  refine List.filter_eq_nil_iff.mpr fun x hx hP => ?_
  obtain ⟨hop, hkey⟩ := of_decide_eq_true hP
  cases hxop : objPage s x.1 x.2 with
  | none =>
      -- a mapping on record has an entry
      obtain ⟨p, hxp⟩ : ∃ p, x ∈ s.pv p := by
        cases hslot : slotPage s m v with
        | none =>
            rw [hslot] at hx
            cases hx
        | some p =>
            rw [hslot] at hx
            exact ⟨p, hx⟩
      obtain ⟨o, page, -, -, -, hop', -⟩ := h.sound.ptes p x hxp
      rw [objPage, hop'] at hxop
      cases hxop
  | some y =>
      obtain ⟨o, page⟩ := y
      obtain ⟨hm, hround⟩ := hsole o page x.1 x.2 (hop.symm.trans hxop) hxop
      refine hkey (Prod.ext hm ?_)
      show pteIndex x.2 = pteIndex v
      rw [← pteIndex_pgRoundDown x.2, hround, pteIndex_pgRoundDown]

/-- Where each object has one entry, no other mapping shows a slot. -/
theorem cowAlone_of_private (h : Inv held s) (hpriv : Private s.maps) : CowAlone s m v :=
  cowAlone_of_sole h fun _ _ _ _ hop hop' => hpriv.eq_of_objPageIn h.mapsOk hop hop'

/-! ## Accesses -/

/-- A page table entry of a user map is at an address that the map has. -/
theorem Inv.objPage_of_pte (h : Inv held s) (hm : m ≠ kmap) (hv : v < 2 ^ 47) {pte : Pte}
    (hpte : s.pmap m (pteIndex v) = some pte) : ∃ o page, objPage s m v = some (o, page) := by
  obtain ⟨⟨m', w⟩, hx, rfl, hq⟩ := h.sound.pvInv.exact.exists_mem hpte
  obtain ⟨o, page, -, -, halign, hop, -⟩ := h.sound.ptes _ _ hx
  dsimp only at hq halign hop hm
  obtain ⟨hlo, hhi⟩ := mem_span h.mapsOk hop
  rw [mapLo, if_neg hm] at hlo hhi
  have hw : w = pgRoundDown v := by
    unfold pteIndex at hq
    unfold pgRoundDown
    unfold userBase userSize at hhi
    unfold pgSize at *
    omega
  subst hw
  rw [objPageIn_eq] at hop
  obtain ⟨map, hmap, hop⟩ := Option.bind_eq_some_iff.mp hop
  obtain ⟨e, he, hhas, -⟩ := (h.mapsOk _ map hmap).objPageOf_eq.mp hop
  refine ⟨e.obj, e.page v, ?_⟩
  rw [objPage, objPageIn_eq, hmap]
  refine (h.mapsOk _ map hmap).objPageOf_eq.mpr ⟨e, he, ?_, rfl, rfl⟩
  -- an entry that has the start of a page has the page
  have hok := (h.mapsOk _ map hmap).entry_ok e he
  obtain ⟨k, hk⟩ := hok.stop_dvd
  obtain ⟨hlo, hhi⟩ := hhas
  unfold Entry.Has
  unfold pgRoundDown at hlo hhi
  unfold pgSize at *
  omega

/-- A user address is looked up in the map of the thread. -/
theorem mapFor_of_lt (hv : v < 2 ^ 47) : mapFor m v = m := by
  refine if_neg ?_
  unfold kheapBase
  omega

/-- What an access finds: the byte of the map's memory. -/
theorem bytes_eq_content (h : Inv held s) {page : ℕ} {pte : Pte}
    (hpte : s.pmap m (pteIndex v) = some pte) (hop : objPage s m v = some (o, page)) (off : ℕ) :
    s.bytes pte.page off = content s o page off := by
  obtain ⟨a, anon, hslot, hanon, hpage, -⟩ := h.pte_shows hpte hop
  rw [content, hslot, Option.bind_some, hanon, Option.elim_some, hpage]

/-- Memories do not change when a trap is handled. -/
theorem Faulted.mem_eq {write : Bool} (h : Faulted m v write s s') : mem s' = mem s := by
  funext m' v'
  unfold mem objPage
  rw [h.maps_eq]
  exact congrArg (Option.map · _) (funext fun x => h.content_eq x.1 x.2 _)

theorem Faulted.memories_eq {write : Bool} (h : Faulted m v write s s') :
    memories s' = memories s := by
  funext m'
  rw [memories, memories, h.maps_eq, h.mem_eq]

/-- **A read** returns the byte of the map's memory. -/
theorem read_spec (h : Inv held s) (hm : m ≠ kmap) (hv : v < 2 ^ 47) {b : UInt8}
    (htouch : touch s m v false a p = some s') (hload : load s' m v = some b) :
    mem s m v = some b ∧ memories s' = memories s ∧ s'.maps = s.maps := by
  obtain ⟨h', hfault⟩ := touch_spec h (fun hw => absurd hw Bool.false_ne_true) htouch
  rw [load, Option.map_eq_some_iff] at hload
  obtain ⟨pte, hpte, rfl⟩ := hload
  rw [mapFor_of_lt hv] at hpte
  obtain ⟨o, page, hop⟩ := h'.objPage_of_pte hm hv hpte
  refine ⟨?_, hfault.memories_eq, hfault.maps_eq⟩
  rw [← hfault.mem_eq, mem, hop, bytes_eq_content h' hpte hop]
  rfl

/-- An anon with one reference is in one slot. -/
theorem slot_unique {anon : Anon} {o' : ObjId} {page page' : ℕ} (hr : Refs s.objs [] s)
    (hanon : s.anons.get? a = some anon) (hone : anon.refcnt = 1)
    (h : slotIn s.objs o page = some a) (h' : slotIn s.objs o' page' = some a) :
    o' = o ∧ page' = page := by
  by_contra hne
  have hcount := hr.refcnt_eq a anon hanon
  rw [List.count_nil, hone] at hcount
  rw [slotIn] at h
  obtain ⟨obj, hobj, hslot⟩ := Option.bind_eq_some_iff.mp h
  have hslot := Option.join_eq_some_iff.mp hslot
  have hlen := (List.getElem?_eq_some_iff.mp hslot).1
  -- without the one slot there would still be the other
  have hweigh := weigh_setSlot hobj (y := none) hslot a
  rw [if_pos rfl, if_neg (by simp)] at hweigh
  have hleft := one_le_weigh ((slotIn_setSlot hobj hlen none o' page').trans ((if_neg hne).trans h'))
  omega

/-- A write changes one byte of one page of one object. -/
theorem content_store {anon : Anon} {page off : ℕ} {b : UInt8} (hr : Refs s.objs [] s)
    (hslot : slotIn s.objs o page = some a) (hanon : s.anons.get? a = some anon)
    (hone : anon.refcnt = 1) (o' : ObjId) (page' off' : ℕ) :
    content (setByte s anon.physpage off b) o' page' off'
      = if o' = o ∧ page' = page ∧ off' = off then b else content s o' page' off' := by
  unfold content setByte
  dsimp only
  cases hslot' : slotIn s.objs o' page' with
  | none =>
      rw [if_neg]
      · rfl
      · rintro ⟨rfl, rfl, -⟩
        rw [hslot] at hslot'
        cases hslot'
  | some c =>
      obtain ⟨obj, hobj, hmem⟩ := mem_slots_of_slotIn hslot'
      obtain ⟨x, hx⟩ := hr.slot_valid o' obj c hobj hmem
      rw [Option.bind_some, hx, Option.elim_some, Option.elim_some]
      -- another slot has another anon, and that one another page
      by_cases hk : o' = o ∧ page' = page
      · obtain ⟨rfl, rfl⟩ := hk
        obtain rfl := Option.some.inj (hslot.symm.trans hslot')
        obtain rfl := Option.some.inj (hanon.symm.trans hx)
        rw [Function.update_self, Function.update_apply]
        simp only [true_and]
      · rw [if_neg fun hall => hk ⟨hall.1, hall.2.1⟩, Function.update_of_ne]
        intro hpage
        obtain rfl := hr.page_inj c a x anon hx hanon hpage
        exact hk (slot_unique hr hanon hone hslot hslot')

/-- **A write** changes one byte of the map's memory and nothing else. -/
theorem write_spec (h : Inv held s) (hpriv : Private s.maps) (hm : m ≠ kmap) (hv : v < 2 ^ 47)
    {b : UInt8} {s₁ : State} (htouch : touch s m v true a p = some s₁)
    (hstore : store s₁ m v b = some s') :
    mem s m v ≠ none ∧
      memories s' = Function.update (memories s) m (some (Function.update (mem s m) v (some b))) ∧
      s'.maps = s.maps := by
  obtain ⟨h₁, hfault⟩ := touch_spec h (fun _ => cowAlone_of_private h hpriv) htouch
  obtain ⟨pte, hpte, hwrite, rfl⟩ := store_eq hstore
  rw [mapFor_of_lt hv] at hpte
  obtain ⟨o, page, hop⟩ := h₁.objPage_of_pte hm hv hpte
  obtain ⟨c, anon, hslot, hanon, hpage, hone⟩ := h₁.pte_shows hpte hop
  have hpriv₁ : Private s₁.maps := hfault.maps_eq ▸ hpriv
  rw [← hpage]
  set s₂ := setByte s₁ anon.physpage (v % pgSize) b
  have hcontent (o' : ObjId) (page' off' : ℕ) : content s₂ o' page' off'
      = if o' = o ∧ page' = page ∧ off' = v % pgSize then b else content s₁ o' page' off' :=
    content_store h₁.sound.refs hslot hanon (hone hwrite) o' page' off'
  have hmem : ∀ m' v', mem s₂ m' v' = if m' = m ∧ v' = v then some b else mem s₁ m' v' := by
    intro m' v'
    have hsame : objPage s₂ m' v' = objPage s₁ m' v' := rfl
    unfold mem
    rw [hsame]
    by_cases hk : m' = m ∧ v' = v
    · obtain ⟨rfl, rfl⟩ := hk
      rw [if_pos ⟨rfl, rfl⟩, hop, Option.map_some, hcontent, if_pos ⟨rfl, rfl, rfl⟩]
    · rw [if_neg hk]
      cases hop' : objPage s₁ m' v' with
      | none => rfl
      | some y =>
          obtain ⟨o', page'⟩ := y
          rw [Option.map_some, Option.map_some, hcontent, if_neg]
          -- another address with the same byte of the same page would be this address
          rintro ⟨rfl, rfl, hoff⟩
          obtain ⟨hm', hround⟩ := hpriv₁.eq_of_objPageIn h₁.mapsOk hop hop'
          refine hk ⟨hm', ?_⟩
          unfold pgRoundDown at hround
          have := Nat.mod_le v pgSize
          have := Nat.mod_le v' pgSize
          omega
  refine ⟨?_, ?_, hfault.maps_eq⟩
  · rw [← hfault.mem_eq, mem, hop]
    simp
  · rw [← hfault.memories_eq, ← hfault.mem_eq]
    have huse : ∃ map, s₁.maps.get? m = some map := by
      rw [objPage, objPageIn_eq] at hop
      obtain ⟨map, hmap, -⟩ := Option.bind_eq_some_iff.mp hop
      exact ⟨map, hmap⟩
    obtain ⟨map, hmap⟩ := huse
    have hmap₂ : s₂.maps.get? m = some map := hmap
    refine memories_eq_update (fun m' hm' => ?_) ?_
    · have hother : mem s₂ m' = mem s₁ m' :=
        funext fun v' => (hmem m' v').trans (if_neg fun hk => hm' hk.1)
      rw [memories, memories, hother]
      rfl
    · rw [memories_eq hm hmap₂]
      refine congrArg some (funext fun v' => ?_)
      rw [hmem, Function.update_apply]
      simp only [true_and]

/-! ## Maps -/

/-- Memories of the maps in use when no object they map has changed. -/
theorem memories_of_keeps (h : Inv held s) (h' : Inv held s') (hkeeps : Keeps s s')
    (hget : s'.maps.get? m = s.maps.get? m) : memories s' m = memories s m :=
  memories_congr h.mapsOk h'.mapsOk hget fun _ hmap _ he page off =>
    hkeeps.content_eq h'.sound.refs (h'.obj_ne_none (hget.trans hmap) he) page off

/-- The entries of a map that has lost some. -/
theorem mem_removed (h : Inv held s) (h' : Inv held s') {P : Entry → Prop} {start stop : ℕ}
    (hmap : s.maps.get? m = some map) (hrem : Removed m P map s s')
    (hP : ∀ e ∈ map.entries, ∀ v, e.Has v → (P e ↔ start ≤ v ∧ v < stop)) (v : ℕ) :
    mem s' m v = if start ≤ v ∧ v < stop then none else mem s m v := by
  obtain ⟨hkeeps, ⟨map', hmap', hentries⟩, -⟩ := hrem
  have hcontent : ∀ e ∈ map'.entries, ∀ page off, content s' e.obj page off
      = content s e.obj page off := fun e he page off =>
    hkeeps.content_eq h'.sound.refs (h'.obj_ne_none hmap' he) page off
  refine Option.ext fun b => ?_
  -- both readings go through an entry: the same one, unless it was removed
  rw [mem_eq_some h'.mapsOk]
  constructor
  · rintro ⟨x, e, hx, he, hhas, hb⟩
    obtain rfl := Option.some.inj (hmap'.symm.trans hx)
    obtain ⟨hemap, hnot⟩ := (hentries e).mp he
    rw [if_neg fun hin => hnot ((hP e hemap v hhas).mpr hin)]
    exact (mem_eq_some h.mapsOk).mpr ⟨map, e, hmap, hemap, hhas, (hcontent e he _ _).symm.trans hb⟩
  · intro hb
    split at hb
    · cases hb
    · rename_i hout
      obtain ⟨x, e, hx, he, hhas, hb⟩ := (mem_eq_some h.mapsOk).mp hb
      obtain rfl := Option.some.inj (hmap.symm.trans hx)
      have he' := (hentries e).mpr ⟨he, fun hp => hout ((hP e he v hhas).mp hp)⟩
      exact ⟨map', e, hmap', he', hhas, (hcontent e he' _ _).trans hb⟩

/-- Entries that were there before are private. -/
theorem Private.mono (hpriv : Private maps) (hback : ∀ m x, maps'.get? m = some x → ∀ e ∈ x.entries,
    ∃ y, maps.get? m = some y ∧ e ∈ y.entries) : Private maps' where
  sole m₁ x e m₂ y e' hx he hy he' hobj := by
    obtain ⟨x', hx', hxe⟩ := hback m₁ x hx e he
    obtain ⟨y', hy', hye⟩ := hback m₂ y hy e' he'
    exact hpriv.sole m₁ x' e m₂ y' e' hx' hxe hy' hye hobj
  offset_eq m₁ x hx e he := by
    obtain ⟨x', hx', hxe⟩ := hback m₁ x hx e he
    exact hpriv.offset_eq m₁ x' hx' e hxe

/-- Removing entries keeps the others private. -/
theorem private_removed {P : Entry → Prop} (hpriv : Private s.maps) (hmap : s.maps.get? m = some map)
    (hrem : Removed m P map s s') : Private s'.maps := by
  obtain ⟨-, ⟨map', hmap', hentries⟩, hother⟩ := hrem
  refine hpriv.mono fun m₁ x hx e he => ?_
  by_cases hm : m₁ = m
  · subst hm
    obtain rfl := Option.some.inj (hmap'.symm.trans hx)
    exact ⟨map, hmap, ((hentries e).mp he).1⟩
  · exact ⟨x, (hother m₁ hm) ▸ hx, he⟩

section Insert

variable {vmem : Vmem.Arena Unit} {maps' : Heap Map}

/-- An entry for an object that no entry has is private. -/
theorem private_insert (hpriv : Private maps) (hmap : maps.get? m = some map)
    (hmap' : maps'.get? m = some ⟨map.entries ++ [e], vmem⟩)
    (hother : ∀ m', m' ≠ m → maps'.get? m' = maps.get? m')
    (hfresh : ∀ m' x, maps.get? m' = some x → ∀ e' ∈ x.entries, e'.obj ≠ e.obj)
    (hoffset : e.offset = 0) : Private maps' := by
  -- an entry of the new maps is the one inserted, or was there before
  have hback : ∀ m₁ x, maps'.get? m₁ = some x → ∀ e₁ ∈ x.entries,
      (m₁ = m ∧ e₁ = e) ∨ ∃ y, maps.get? m₁ = some y ∧ e₁ ∈ y.entries := by
    intro m₁ x hx e₁ he₁
    by_cases hm : m₁ = m
    · subst hm
      obtain rfl := Option.some.inj (hmap'.symm.trans hx)
      rcases List.mem_append.mp he₁ with he₁ | he₁
      · exact .inr ⟨map, hmap, he₁⟩
      · exact .inl ⟨rfl, List.mem_singleton.mp he₁⟩
    · exact .inr ⟨x, (hother m₁ hm) ▸ hx, he₁⟩
  constructor
  case sole =>
    intro m₁ x e₁ m₂ y e₂ hx he₁ hy he₂ hobj
    rcases hback m₁ x hx e₁ he₁ with ⟨rfl, rfl⟩ | ⟨x', hx', he₁'⟩
    · rcases hback m₂ y hy e₂ he₂ with ⟨rfl, rfl⟩ | ⟨y', hy', he₂'⟩
      · exact ⟨rfl, rfl⟩
      · exact absurd hobj (hfresh m₂ y' hy' e₂ he₂')
    · rcases hback m₂ y hy e₂ he₂ with ⟨rfl, rfl⟩ | ⟨y', hy', he₂'⟩
      · exact absurd hobj.symm (hfresh m₁ x' hx' e₁ he₁')
      · exact hpriv.sole m₁ x' e₁ m₂ y' e₂ hx' he₁' hy' he₂' hobj
  case offset_eq =>
    intro m₁ x hx e₁ he₁
    rcases hback m₁ x hx e₁ he₁ with ⟨-, rfl⟩ | ⟨x', hx', he₁'⟩
    · exact hoffset
    · exact hpriv.offset_eq m₁ x' hx' e₁ he₁'

/-- The memory of a map with one more entry. -/
theorem mem_insert (hok : MapsOk s.maps) (hok' : MapsOk s'.maps) (hmap : s.maps.get? m = some map)
    (hmap' : s'.maps.get? m = some ⟨map.entries ++ [e], vmem⟩)
    (hcontent : ∀ e' ∈ map.entries, ∀ page off,
      content s' e'.obj page off = content s e'.obj page off) {b : UInt8} :
    mem s' m v = some b ↔
      mem s m v = some b ∨ (e.Has v ∧ content s' e.obj (e.page v) (v % pgSize) = b) := by
  rw [mem_eq_some hok, mem_eq_some hok']
  constructor
  · rintro ⟨x, e', hx, he', hhas, hb⟩
    obtain rfl := Option.some.inj (hmap'.symm.trans hx)
    rcases List.mem_append.mp he' with he' | he'
    · exact .inl ⟨map, e', hmap, he', hhas, (hcontent e' he' _ _).symm.trans hb⟩
    · obtain rfl := List.mem_singleton.mp he'
      exact .inr ⟨hhas, hb⟩
  · rintro (⟨x, e', hx, he', hhas, hb⟩ | ⟨hhas, hb⟩)
    · obtain rfl := Option.some.inj (hmap.symm.trans hx)
      exact ⟨_, e', hmap', List.mem_append_left _ he', hhas, (hcontent e' he' _ _).trans hb⟩
    · exact ⟨_, e, hmap', List.mem_append_right _ List.mem_cons_self, hhas, hb⟩

end Insert

/-- **The copies of a fork** have the contents of the objects they were made from. -/
theorem forkRun_mem {newmap : MapId} {es : List Entry} (h : ForkRun held newmap s es s')
    (hpriv : Private s.maps) (hobj : ∀ e ∈ es, s.objs.get? e.obj ≠ none)
    (hoffset : ∀ e ∈ es, e.offset = 0) :
    Private s'.maps ∧ (∀ m', m' ≠ newmap → s'.maps.get? m' = s.maps.get? m') ∧
      (s.maps.get? newmap ≠ none → s'.maps.get? newmap ≠ none) ∧
      (∀ o, s.objs.get? o ≠ none → ∀ page off, content s' o page off = content s o page off) ∧
      ∀ v b, mem s' newmap v = some b ↔ mem s newmap v = some b ∨
        ∃ e ∈ es, e.Has v ∧ content s e.obj (e.page v) (v % pgSize) = b := by
  induction h with
  | nil h => exact ⟨hpriv, fun _ _ => rfl, id, fun _ _ _ _ => rfl, fun v b => by simp⟩
  -- one entry: its object is copied, the copy is entered in the new map, the rest follows
  | @cons s s₁ s' e es newobj h hfork hrest ih =>
      have h₁ : Inv held s₁ := hrest.inv_start
      obtain ⟨map, vmem, hmap, hmap₁⟩ := hfork.this
      have hcontent₁ : ∀ o, s.objs.get? o ≠ none → ∀ page off,
          content s₁ o page off = content s o page off := by
        intro o ho page off
        have hne : o ≠ newobj := fun heq => ho (heq ▸ hfork.fresh)
        refine content_congr h₁.sound.refs hfork.bytes_eq hfork.anon_page ?_ off
        rw [slotIn, slotIn, hfork.other_eq o hne]
      -- nothing maps the copy yet
      have hfresh : ∀ m' x, s.maps.get? m' = some x → ∀ e' ∈ x.entries, e'.obj ≠ newobj := by
        intro m' x hx e' he' heq
        exact h.obj_ne_none hx he' (heq ▸ hfork.fresh)
      have hpriv₁ : Private s₁.maps := private_insert (e := { e with obj := newobj }) hpriv hmap
        hmap₁ hfork.other hfresh (hoffset e List.mem_cons_self)
      have hobj₁ : ∀ e' ∈ es, s₁.objs.get? e'.obj ≠ none := by
        intro e' he'
        have ho := hobj e' (List.mem_cons_of_mem e he')
        have hne : e'.obj ≠ newobj := fun heq => ho (heq ▸ hfork.fresh)
        rw [hfork.other_eq _ hne]
        exact ho
      obtain ⟨hpriv', hother, huse, hcontent, hmem⟩ := ih hpriv₁ hobj₁
        fun e' he' => hoffset e' (List.mem_cons_of_mem e he')
      have hkeep : ∀ o, s.objs.get? o ≠ none → s₁.objs.get? o ≠ none := by
        intro o ho
        have hne : o ≠ newobj := fun heq => ho (heq ▸ hfork.fresh)
        rw [hfork.other_eq o hne]
        exact ho
      refine ⟨hpriv', fun m' hm' => (hother m' hm').trans (hfork.other m' hm'), fun _ => huse ?_,
        fun o ho page off => (hcontent o (hkeep o ho) page off).trans (hcontent₁ o ho page off),
        fun v b => ?_⟩
      · rw [hmap₁]
        simp
      -- the copy shares the anons of the original, so it shows the same bytes
      have hnew : ∀ page off, content s₁ newobj page off = content s e.obj page off :=
        fun page off => content_congr h₁.sound.refs hfork.bytes_eq hfork.anon_page
          (hfork.slot_eq page) off
      have hinsert := mem_insert (v := v) (b := b) h.mapsOk h₁.mapsOk hmap hmap₁
        fun e' he' => hcontent₁ e'.obj (h.obj_ne_none hmap he')
      have hrest' : (∃ e' ∈ es, e'.Has v ∧ content s₁ e'.obj (e'.page v) (v % pgSize) = b) ↔
          ∃ e' ∈ es, e'.Has v ∧ content s e'.obj (e'.page v) (v % pgSize) = b := by
        refine exists_congr fun e' => and_congr_right fun he' => ?_
        rw [hcontent₁ e'.obj (hobj e' (List.mem_cons_of_mem e he'))]
      rw [hmem, hinsert, hrest', or_assoc, List.exists_mem_cons_iff]
      refine or_congr_right (or_congr_left ?_)
      show (e.Has v ∧ content s₁ newobj (e.page v) (v % pgSize) = b) ↔ _
      rw [hnew]

/-! ## The steps as steps of the specification -/

/-- `vm_allocate` returned an address. -/
def succeeded : Option (Except ℤ ℕ × State) → Bool
  | some (.ok _, _) => true
  | _ => false

/-- The steps that user maps evolve by: requests for addresses succeed, `vm_deallocate` is of whole
entries, and accesses are to user addresses. -/
def InScope (t : Sys) : Action → Prop
  | .call (.segRefill _ _) => True
  | .call (.vmMapNew _ _) => True
  | .call (.vmAllocate m o vaddr size) =>
      m ≠ kmap ∧ succeeded (vmAllocate t.st m o vaddr size) = true
  | .call (.vmDeallocate m start size) => m ≠ kmap ∧ start + size < 2 ^ 64 ∧
      ∀ map ∈ t.st.maps.get? m, ∀ e ∈ map.entries,
        (start ≤ e.start ∧ e.stop ≤ start + size) ∨ e.stop ≤ start ∨ start + size ≤ e.start
  | .call (.vmMapFork m _ _ _) => m ≠ kmap ∧ (t.st.maps.get? m).isSome = true
  | .read m v _ _ _ => m ≠ kmap ∧ v < 2 ^ 47
  | .write m v _ _ _ => m ≠ kmap ∧ v < 2 ^ 47
  | .vmMapRelease _ => True
  | _ => False

instance (t : Sys) : (x : Action) → Decidable (InScope t x)
  | .call (.segRefill ..) => inferInstanceAs (Decidable True)
  | .call (.vmMapNew ..) => inferInstanceAs (Decidable True)
  | .call (.vmAllocate ..) => inferInstanceAs (Decidable (_ ∧ _))
  | .call (.vmDeallocate m start size) => inferInstanceAs (Decidable (m ≠ kmap ∧
      start + size < 2 ^ 64 ∧ ∀ map ∈ t.st.maps.get? m, ∀ e ∈ map.entries,
        (start ≤ e.start ∧ e.stop ≤ start + size) ∨ e.stop ≤ start ∨ start + size ≤ e.start))
  | .call (.vmMapFork ..) => inferInstanceAs (Decidable (_ ∧ _))
  | .read .. => inferInstanceAs (Decidable (_ ∧ _))
  | .write .. => inferInstanceAs (Decidable (_ ∧ _))
  | .vmMapRelease .. => inferInstanceAs (Decidable True)
  | .call (.kheapAlloc ..) => inferInstanceAs (Decidable False)
  | .call (.kheapFree ..) => inferInstanceAs (Decidable False)
  | .call (.vmAobjNew ..) => inferInstanceAs (Decidable False)
  | .call (.vmObjectRetain ..) => inferInstanceAs (Decidable False)
  | .call (.vmObjectRelease ..) => inferInstanceAs (Decidable False)
  | .call (.vmObjectCopy ..) => inferInstanceAs (Decidable False)
  | .call (.vmMapObject ..) => inferInstanceAs (Decidable False)

/-- The condition on a step: an address that is asked for is a page away from the top of the address
space, and the counts have room for a fork. -/
def PagesAndRoom (t : Sys) : Action → Prop
  | .call c => CallOk t c
  | _ => True

instance (t : Sys) : (x : Action) → Decidable (PagesAndRoom t x)
  | .call c => inferInstanceAs (Decidable (CallOk t c))
  | .read .. => inferInstanceAs (Decidable True)
  | .write .. => inferInstanceAs (Decidable True)
  | .vmMapRelease .. => inferInstanceAs (Decidable True)

/-- The state and its memories. -/
structure Models (t : Sys) (M : Memories) : Prop where
  inv : Inv t.held t.st
  priv : Private t.st.maps
  memories_eq : M = memories t.st

/-- The entries of maps do not depend on arenas. -/
theorem memories_setVmem (hmap : s.maps.get? m = some map) (vmem : Vmem.Arena Unit) :
    memories (setMap s m { map with vmem := vmem }) = memories s := by
  have hget : ∀ m', (setMap s m { map with vmem := vmem }).maps.get? m'
      = if m' = m then some { map with vmem := vmem } else s.maps.get? m' :=
    fun m' => Heap.get?_set hmap _ m'
  -- the arena of a map is not read on the way to a byte
  have hop : ∀ m' v, objPage (setMap s m { map with vmem := vmem }) m' v = objPage s m' v := by
    intro m' v
    rw [objPage, objPage]
    show objPageIn (s.maps.set m _) m' v = _
    rw [objPageIn_set hmap]
    split
    · rename_i hm
      rw [hm, objPageIn_eq, hmap]
      rfl
    · rfl
  have hmem : mem (setMap s m { map with vmem := vmem }) = mem s := by
    funext m' v
    unfold mem
    rw [hop]
    rfl
  funext m'
  rw [memories, memories, hmem, hget]
  split
  · rfl
  · split
    · rename_i hm
      rw [hm, hmap]
      rfl
    · rfl

theorem private_setVmem (hpriv : Private s.maps) (hmap : s.maps.get? m = some map)
    (vmem : Vmem.Arena Unit) : Private (setMap s m { map with vmem := vmem }).maps := by
  refine hpriv.mono fun m' x hx e he => ?_
  have hx : (s.maps.set m { map with vmem := vmem }).get? m' = some x := hx
  rw [Heap.get?_set hmap] at hx
  split at hx
  · rename_i hm
    cases hx
    exact ⟨map, hm ▸ hmap, he⟩
  · exact ⟨x, hx, he⟩

/-- A new map has no entries. -/
theorem models_alloc {newmap : MapId} {vmem : Vmem.Arena Unit} (h : Inv held s) (hpriv : Private s.maps)
    (h' : Inv held { s with maps := maps })
    (ha : s.maps.alloc newmap ⟨[], vmem⟩ = some maps) :
    newmap ≠ kmap ∧ memories s newmap = none ∧ Private maps ∧
      memories { s with maps := maps } = Function.update (memories s) newmap (some fun _ => none) := by
  have hfresh := Heap.get?_of_alloc ha
  have hget := Heap.get?_alloc ha
  have hne : newmap ≠ kmap := by
    rintro rfl
    exact h.kernel hfresh
  have hthis : maps.get? newmap = some ⟨[], vmem⟩ := (hget newmap).trans (if_pos rfl)
  -- the new map holds no entry, so its memory is empty and the others keep theirs
  refine ⟨hne, ?_, ?_, memories_eq_update (fun m' hm' => ?_) ?_⟩
  · rw [memories, if_neg hne, hfresh]
    rfl
  · refine hpriv.mono fun m' x hx e he => ?_
    rw [hget] at hx
    split at hx
    · cases hx
      cases he
    · exact ⟨x, hx, he⟩
  · show memories { s with maps := maps } m' = memories s m'
    exact memories_congr h.mapsOk h'.mapsOk ((hget m').trans (if_neg hm')) fun _ _ _ _ _ _ => rfl
  · rw [memories_eq (s := { s with maps := maps }) hne hthis]
    refine congrArg some (funext fun v => ?_)
    rw [mem, objPage, objPageIn_eq]
    show ((maps.get? newmap).bind _).map _ = none
    rw [hthis]
    rfl

/-- **`vm_allocate`** installs zero bytes where nothing was. -/
theorem allocate_mem {vaddr size addr : ℕ} (h : Inv held s) (hpriv : Private s.maps) (hm : m ≠ kmap)
    (hlt : size < 2 ^ 64) (haddr : AddrOk vaddr size)
    (hs : vmAllocate s m o vaddr size = some (.ok addr, s')) :
    Private s'.maps ∧ RefStep (memories s) (.allocate m vaddr addr size) (memories s') := by
  obtain ⟨h', hok⟩ := allocate_spec h hlt haddr hs
  obtain ⟨hexact, hfresh, s₁, hkept, hslot, hmapped⟩ := hok addr rfl
  obtain ⟨map, vmem, hmap₁, hmap'⟩ := hmapped.this
  have hmap : s.maps.get? m = some map := hkept.maps_eq ▸ hmap₁
  set e : Entry := ⟨addr, addr + size, 0, o⟩
  have hold : ∀ m' x, s.maps.get? m' = some x → ∀ e' ∈ x.entries, e'.obj ≠ o := by
    intro m' x hx e' he' heq
    exact h.obj_ne_none hx he' (heq ▸ hfresh)
  have hcontent : ∀ o', o' ≠ o → ∀ page off, content s' o' page off = content s o' page off := by
    intro o' ho' page off
    refine content_congr h'.sound.refs (hmapped.bytes_eq.trans hkept.bytes_eq) (fun a x hx => ?_) ?_
      off
    · rw [hmapped.anons_eq] at hx
      exact hkept.anon_page a x hx
    · rw [slotIn, slotIn, hmapped.other_eq o' ho', hkept.other_eq o' ho']
  have hzero : ∀ page off, content s' o page off = 0 := by
    intro page off
    rw [content, hmapped.slot_eq page, hslot]
    rfl
  have hother : ∀ m', m' ≠ m → s'.maps.get? m' = s.maps.get? m' := fun m' hm' =>
    (hmapped.other m' hm').trans (by rw [hkept.maps_eq])
  have hinsert : ∀ v b, mem s' m v = some b ↔
      mem s m v = some b ∨ (e.Has v ∧ content s' o (e.page v) (v % pgSize) = b) := fun v b =>
    mem_insert (e := e) h.mapsOk h'.mapsOk hmap hmap'
      fun e' he' => hcontent e'.obj (hold m map hmap e' he')
  -- the range is in no other entry
  have hnone : ∀ v, addr ≤ v → v < addr + size → mem s m v = none := by
    intro v hlo hhi
    by_contra hne
    obtain ⟨b, hb⟩ := Option.ne_none_iff_exists'.mp hne
    obtain ⟨x, e', hx, he', hhas, -⟩ := (mem_eq_some h.mapsOk).mp hb
    obtain rfl := Option.some.inj (hmap.symm.trans hx)
    have heq := (h'.mapsOk m _ hmap').eq_of_has (e := e') (f := e) (v := v)
      (List.mem_append_left _ he') (List.mem_append_right _ List.mem_cons_self) hhas ⟨hlo, hhi⟩
    exact hold m map hmap e' he' (congrArg Entry.obj heq)
  refine ⟨private_insert (e := e) hpriv hmap hmap' hother hold rfl, ?_⟩
  have heq : memories s' = Function.update (memories s) m
      (some fun v => if addr ≤ v ∧ v < addr + size then some 0 else mem s m v) := by
    refine memories_eq_update (fun m' hm' => ?_) ?_
    · exact memories_congr h.mapsOk h'.mapsOk (hother m' hm') fun x hx e' he' =>
        hcontent e'.obj (hold m' x hx e' he')
    · rw [memories_eq hm hmap']
      refine congrArg some (funext fun v => Option.ext fun b => ?_)
      rw [hinsert]
      by_cases hin : addr ≤ v ∧ v < addr + size
      · rw [if_pos hin, hnone v hin.1 hin.2, hzero]
        exact ⟨fun hor => hor.elim (fun hb => by cases hb) fun hb => congrArg some hb.2,
          fun hb => .inr ⟨hin, Option.some.inj hb⟩⟩
      · rw [if_neg hin]
        exact ⟨fun hor => hor.elim id fun hb => absurd hb.1 hin, .inl⟩
  rw [heq]
  exact .allocate (memories_eq hm hmap) hexact hnone

/-- `vm_deallocate` of whole entries removes the bytes of the range. -/
theorem deallocate_mem {start size : ℕ} (h : Inv held s) (hpriv : Private s.maps) (hm : m ≠ kmap)
    (hlt : start + size < 2 ^ 64) (hmap : s.maps.get? m = some map)
    (hwhole : ∀ e ∈ map.entries,
      (start ≤ e.start ∧ e.stop ≤ start + size) ∨ e.stop ≤ start ∨ start + size ≤ e.start)
    (hs : vmDeallocate s m start size = some s') :
    Private s'.maps ∧ RefStep (memories s) (.deallocate m start size) (memories s') := by
  obtain ⟨h', hrem⟩ := deallocate_spec h hmap hs
  have hsum : add64 start size = start + size := add64_eq hlt
  rw [hsum] at hrem
  -- entries are removed whole, so the range takes away exactly its own addresses
  have hwhole' : ∀ e ∈ map.entries, ∀ v, e.Has v →
      ((start ≤ e.start ∧ e.stop ≤ start + size) ↔ start ≤ v ∧ v < start + size) := by
    intro e he v hhas
    have := hwhole e he
    obtain ⟨hlo, hhi⟩ := hhas
    omega
  have hmem := mem_removed h h' hmap hrem hwhole'
  have hpriv' := private_removed hpriv hmap hrem
  obtain ⟨hkeeps, ⟨map', hmap', -⟩, hother⟩ := hrem
  refine ⟨hpriv', ?_⟩
  have heq : memories s' = Function.update (memories s) m
      (some fun v => if start ≤ v ∧ v < start + size then none else mem s m v) := by
    refine memories_eq_update (fun m' hm' => memories_of_keeps h h' hkeeps (hother m' hm')) ?_
    rw [memories_eq hm hmap']
    exact congrArg some (funext hmem)
  rw [heq]
  exact .deallocate (memories_eq hm hmap)

/-- **`vm_map_fork`** copies the memory. -/
theorem fork_mem {newmap : MapId} {newobjs : List ObjId} {pool : List Vmem.Tag} (h : Inv held s)
    (hpriv : Private s.maps) (hm : m ≠ kmap) (hmap : s.maps.get? m = some map) (hpool : pool.Nodup)
    (hroom : RoomToFork s m) (hs : vmMapFork s m newmap newobjs pool = some s') :
    Private s'.maps ∧ RefStep (memories s) (.fork m newmap) (memories s') := by
  obtain ⟨h', hfork⟩ := fork_spec h hpool hroom hs
  obtain ⟨vmem, maps, ha, hrun⟩ := hfork map hmap hm
  obtain ⟨hne, hnone, hpriv₁, -⟩ := models_alloc h hpriv hrun.inv_start ha
  have hfresh := Heap.get?_of_alloc ha
  have hget := Heap.get?_alloc ha
  obtain ⟨hpriv', hother, huse, hcontent, hmem⟩ := forkRun_mem hrun hpriv₁
    (fun e he => h.obj_ne_none hmap he) fun e he => hpriv.offset_eq m map hmap e he
  refine ⟨hpriv', ?_⟩
  have heq : memories s' = Function.update (memories s) newmap (some (mem s m)) := by
    refine memories_eq_update (fun m' hm' => ?_) ?_
    · have hsame : s'.maps.get? m' = s.maps.get? m' :=
        (hother m' hm').trans ((hget m').trans (if_neg hm'))
      exact memories_congr h.mapsOk h'.mapsOk hsame fun x hx e he =>
        hcontent e.obj (h.obj_ne_none hx he)
    · have hin : s'.maps.get? newmap ≠ none := by
        refine huse ?_
        show maps.get? newmap ≠ none
        rw [hget, if_pos rfl]
        simp
      obtain ⟨map', hmap'⟩ := Option.ne_none_iff_exists'.mp hin
      rw [memories_eq hne hmap']
      refine congrArg some (funext fun v => Option.ext fun b => ?_)
      -- the new map begins without an entry
      have hempty : mem { s with maps := maps } newmap v = none := by
        rw [mem, objPage, objPageIn_eq]
        show ((maps.get? newmap).bind _).map _ = none
        rw [hget, if_pos rfl]
        rfl
      rw [hmem, hempty, mem_eq_some h.mapsOk]
      constructor
      · rintro (hb | ⟨e, he, hhas, hb⟩)
        · cases hb
        · exact ⟨map, e, hmap, he, hhas, hb⟩
      · rintro ⟨x, e, hx, he, hhas, hb⟩
        obtain rfl := Option.some.inj (hmap.symm.trans hx)
        exact .inr ⟨e, he, hhas, hb⟩
  rw [heq]
  exact .fork (memories_eq hm hmap) hnone

/-- `vm_map_release` takes the memory away. -/
theorem release_mem (h : Inv held s) (hpriv : Private s.maps) (hm : m ≠ kmap)
    (hs : vmMapRelease s m = some s') :
    Private s'.maps ∧ RefStep (memories s) (.release m) (memories s') := by
  obtain ⟨h', hkeeps, hget⟩ := mapRelease_spec h hm hs
  obtain ⟨s₁, map₁, hdealloc, -⟩ := vmMapRelease_cases hs
  have huse : ∃ map, s.maps.get? m = some map := by
    unfold vmDeallocate at hdealloc
    obtain ⟨map, hmap, -⟩ := Option.bind_eq_some_iff.mp hdealloc
    exact ⟨map, hmap⟩
  obtain ⟨map, hmap⟩ := huse
  -- every map but the released one is as before
  have hback : ∀ m' x, s'.maps.get? m' = some x → s.maps.get? m' = some x := by
    intro m' x hx
    rw [hget] at hx
    split at hx
    · cases hx
    · exact hx
  refine ⟨⟨fun m₁ x e m₂ y e' hx he hy he' hobj => hpriv.sole m₁ x e m₂ y e' (hback m₁ x hx) he
      (hback m₂ y hy) he' hobj,
    fun m₁ x hx e he => hpriv.offset_eq m₁ x (hback m₁ x hx) e he⟩, ?_⟩
  have heq : memories s' = Function.update (memories s) m none := by
    refine memories_eq_update (fun m' hm' => ?_) ?_
    · exact memories_of_keeps h h' hkeeps ((hget m').trans (if_neg hm'))
    · rw [memories, if_neg hm, hget, if_pos rfl]
      rfl
  rw [heq]
  exact .release (memories_eq hm hmap)

/-- **Every step in scope is a step of the specification.** -/
theorem models_step {x : Action} {M : Memories} (h : Models t M) (hscope : InScope t x)
    (hok : PagesAndRoom t x) (hs : step t x = some t') :
    ∃ y M', Observed x y ∧ RefStep M y M' ∧ Models t' M' := by
  obtain ⟨hinv, hpriv, rfl⟩ := h
  -- a private map is what a write needs: nobody else maps the object with its pages alone
  have hstepOk : StepOk t x := by
    cases x with
    | call c => exact hok
    | read => trivial
    | write m v => exact cowAlone_of_private hinv hpriv
    | vmMapRelease => trivial
  have hinv' := inv_step hinv hstepOk hs
  cases step_cases hs with
  | call c _ hcall =>
      cases call_cases hcall with
      | segRefill m pool map hmap hpool =>
          have hmem := memories_setVmem hmap (Vmem.withPool map.vmem pool)
          exact ⟨.tau, _, .segRefill m pool, .tau, hinv', private_setVmem hpriv hmap _, hmem.symm⟩
      | vmMapNew m pool hpool st hst =>
          obtain ⟨-, vmem, maps, ha, rfl⟩ := mapNew_spec hinv hpool hst
          obtain ⟨-, hnone, hpriv', hmem⟩ := models_alloc hinv hpriv hinv' ha
          exact ⟨.new m, _, .vmMapNew m pool, .new hnone, hinv', hpriv', hmem.symm⟩
      | vmAllocate m o vaddr size _ hsize r st hst =>
          obtain ⟨hm, hsucc⟩ := hscope
          rw [hst] at hsucc
          cases r with
          | error n => cases hsucc
          | ok addr =>
              obtain ⟨hpriv', href⟩ := allocate_mem hinv hpriv hm hsize hok hst
              exact ⟨_, _, .vmAllocate m o vaddr size addr, href, hinv', hpriv', rfl⟩
      | vmDeallocate m start size _ _ st hst =>
          obtain ⟨hm, hlt, hwhole⟩ := hscope
          have huse : ∃ map, t.st.maps.get? m = some map := by
            unfold vmDeallocate at hst
            obtain ⟨map, hmap, -⟩ := Option.bind_eq_some_iff.mp hst
            exact ⟨map, hmap⟩
          obtain ⟨map, hmap⟩ := huse
          obtain ⟨hpriv', href⟩ := deallocate_mem hinv hpriv hm hlt hmap (hwhole map hmap) hst
          exact ⟨_, _, .vmDeallocate m start size, href, hinv', hpriv', rfl⟩
      | vmMapFork m newmap newobjs pool hpool st hst =>
          obtain ⟨hm, huse⟩ := hscope
          obtain ⟨map, hmap⟩ := Option.isSome_iff_exists.mp huse
          obtain ⟨hpriv', href⟩ := fork_mem hinv hpriv hm hmap hpool hok hst
          exact ⟨_, _, .vmMapFork m newmap newobjs pool, href, hinv', hpriv', rfl⟩
      -- the kernel heap and the object calls are not among the calls of a process
      | kheapAlloc => exact hscope.elim
      | kheapFree => exact hscope.elim
      | vmAobjNew => exact hscope.elim
      | vmObjectRetain => exact hscope.elim
      | vmObjectRelease => exact hscope.elim
      | vmObjectCopy => exact hscope.elim
      | vmMapObject => exact hscope.elim
  | read m v b a p st hv htouch hload =>
      obtain ⟨hm, hlt⟩ := hscope
      obtain ⟨hb, hmem, hmaps⟩ := read_spec hinv hm hlt htouch hload
      have huse : ∃ map, t.st.maps.get? m = some map := by
        obtain ⟨map, -, hmap, -⟩ := (mem_eq_some hinv.mapsOk).mp hb
        exact ⟨map, hmap⟩
      obtain ⟨map, hmap⟩ := huse
      exact ⟨_, _, .read m v b a p, .read (memories_eq hm hmap) hb, hinv', hmaps ▸ hpriv, hmem.symm⟩
  | write m v b a p st st' hv htouch hstore =>
      obtain ⟨hm, hlt⟩ := hscope
      obtain ⟨hb, hmem, hmaps⟩ := write_spec hinv hpriv hm hlt htouch hstore
      have huse : ∃ map, t.st.maps.get? m = some map := by
        obtain ⟨b', hb'⟩ := Option.ne_none_iff_exists'.mp hb
        obtain ⟨map, -, hmap, -⟩ := (mem_eq_some hinv.mapsOk).mp hb'
        exact ⟨map, hmap⟩
      obtain ⟨map, hmap⟩ := huse
      exact ⟨_, _, .write m v b a p, .write (memories_eq hm hmap) hb, hinv', hmaps ▸ hpriv, hmem.symm⟩
  | vmMapRelease m st hm hst =>
      obtain ⟨hpriv', href⟩ := release_mem hinv hpriv hm hst
      exact ⟨_, _, .vmMapRelease m, href, hinv', hpriv', rfl⟩

/-- There are no user maps after boot. -/
theorem Boot.models (h : Boot t) : Models t fun _ => none := by
  refine ⟨h.inv, ?_, ?_⟩
  · obtain ⟨seg, pool, vmem, -, -, hkmap⟩ := h.kmap_eq
    have hempty : ∀ m map, t.st.maps.get? m = some map → ∀ e, e ∉ map.entries := by
      intro m map hmap e he
      obtain rfl := h.maps_eq m (by rw [hmap]; simp)
      obtain rfl := Option.some.inj (hmap.symm.trans hkmap)
      cases he
    exact ⟨fun m map e _ _ _ hmap he => absurd he (hempty m map hmap e),
      fun m map hmap e he => absurd he (hempty m map hmap e)⟩
  · funext m
    rw [memories]
    split
    · rfl
    · rename_i hm
      cases hmap : t.st.maps.get? m with
      | none => rfl
      | some map => exact absurd (h.maps_eq m (by rw [hmap]; simp)) hm

/-! ## Reads can be made -/

/-- A new anon can be made under an identity that is not in use, with a page that is free. -/
theorem anonNew_isSome (ha : s.anons.get? a = none) (hp : p ∈ s.freeq) :
    ∃ s', anonNew s a p = some s' := by
  have hdom : a ∉ s.anons.dom := fun hmem => by
    rw [Heap.get?_eq_some.mpr ⟨hmem, rfl⟩] at ha
    cases ha
  unfold anonNew vmPagealloc Heap.alloc
  rw [if_pos hp]
  dsimp only [Option.bind_eq_bind, Option.bind_some]
  rw [dif_neg hdom]
  exact ⟨_, rfl⟩

/-- `fault_aobj` on an absent page that is read. -/
theorem faultAobj_isSome {obj : Object} {voff : ℕ} (hr : Refs s.objs [] s)
    (hobj : s.objs.get? o = some obj) (hparent : obj.parent = none)
    (hsmall : voff / pgSize < 2 ^ 20) (ha : s.anons.get? a = none) (hp : p ∈ s.freeq) :
    ∃ s', faultAobj s m o v voff ⟨false, false⟩ a p = some (0, s') := by
  have hgrow : ∃ slots, amapAnonAt obj.slots (voff / pgSize) = some slots := by
    unfold amapAnonAt
    dsimp only
    rw [if_pos]
    · exact ⟨_, rfl⟩
    · unfold kAMapChunkNPages kheapSize
      omega
  obtain ⟨slots, hgrow⟩ := hgrow
  unfold faultAobj
  rw [hobj]
  dsimp only [Option.bind_eq_bind, Option.bind_some]
  rw [hgrow]
  dsimp only [Option.bind_some]
  -- an empty slot is zero filled; one in use is entered, and only a read asks for it
  cases hslot : (slots[voff / pgSize]?).join with
  | none =>
      have hfree : p ∈ (setObj s o { obj with slots := slots }).freeq := hp
      obtain ⟨s₁, hnew⟩ := anonNew_isSome (s := setObj s o { obj with slots := slots }) ha hfree
      have hnot : ¬ obj.parent.isSome = true := by
        rw [hparent]
        simp
      dsimp only
      rw [if_neg hnot]
      unfold faultZero
      rw [hnew]
      exact ⟨_, rfl⟩
  | some old =>
      have hold : slotIn s.objs o (voff / pgSize) = some old := by
        rw [slotIn, hobj]
        exact (amapAnonAt_join hgrow _).symm.trans hslot
      obtain ⟨obj', hobj', hmem⟩ := mem_slots_of_slotIn hold
      obtain ⟨anon, hanon⟩ := hr.slot_valid o obj' old hobj' hmem
      have hanon' : (setObj s o { obj with slots := slots }).anons.get? old = some anon := hanon
      dsimp only
      rw [hanon']
      dsimp only [Option.bind_some]
      rw [if_pos (hr.resident old anon hanon)]
      split
      · exact ⟨_, rfl⟩
      · exact ⟨_, rfl⟩

/-- A read of an address that the map has can be made. -/
theorem touch_isSome (h : Inv held s) (hpriv : Private s.maps) (hv : v < 2 ^ 47)
    {b : UInt8} (hb : mem s m v = some b) (ha : s.anons.get? a = none) (hp : p ∈ s.freeq) :
    ∃ s', touch s m v false a p = some s' := by
  obtain ⟨map, e, hmap, he, hhas, -⟩ := (mem_eq_some h.mapsOk).mp hb
  have hok := (h.mapsOk m map hmap).entry_ok e he
  have hfor : mapFor m v = m := mapFor_of_lt hv
  unfold touch
  cases hflags : sampleFlags s m v false with
  | none => exact ⟨s, rfl⟩
  | some flags =>
      -- a read traps on an absent page only
      obtain rfl : flags = ⟨false, false⟩ := by
        unfold sampleFlags at hflags
        split at hflags
        · exact (Option.some.inj hflags).symm
        · rw [if_neg (by rintro ⟨hw, -⟩; cases hw)] at hflags
          cases hflags
      obtain ⟨obj, hobj⟩ := h.sound.holds.entry_valid m map hmap e he
      obtain ⟨htype, hparent⟩ := h.sound.holds.kind e.obj obj hobj
      have hpage : e.page v < 2 ^ 20 := by
        have htop := mapLo_top m
        rw [hok.page_eq (by omega) (hpriv.offset_eq m map hmap e he) hhas]
        obtain ⟨-, hhi⟩ := hok.has_pgRoundDown hhas
        have hle := hok.le_hi
        have hlo := hok.lo_le
        unfold userSize at hle
        unfold pgSize
        omega
      have hentry : mapEntryForAddr map.entries v = some e :=
        (h.mapsOk m map hmap).mapEntryForAddr_eq.mpr ⟨he, hhas⟩
      obtain ⟨s', hs'⟩ : ∃ s', faultAobj s m e.obj (pgRoundDown v)
          (add64 (sub64 (pgRoundDown v) e.start) e.offset) ⟨false, false⟩ a p = some (0, s') :=
        faultAobj_isSome h.sound.refs hobj hparent hpage ha hp
      have hfault : vmFault s m v ⟨false, false⟩ a p = some (0, s') := by
        unfold vmFault
        rw [hfor]
        dsimp only [Option.bind_eq_bind]
        rw [hmap, Option.bind_some, hentry]
        dsimp only
        rw [hobj, Option.bind_some, if_pos htype]
        exact hs'
      refine ⟨s', ?_⟩
      dsimp only
      rw [hfault]
      rfl

/-- The reads of mapped addresses that can be made: given a free page and an identity for an anon,
one of the byte that the memories have, and none of another byte. -/
def ReadsAs (t : Sys) (M : Memories) : Prop :=
  ∀ m f v b, M m = some f → f v = some b →
    (∀ b' a p t', step t (.read m v b' a p) = some t' → b' = b) ∧
      ∀ a p, t.st.anons.get? a = none → p ∈ t.st.freeq →
        ∃ t', step t (.read m v b a p) = some t'

/-- The state reads as its memories. -/
theorem Models.readsAs {M : Memories} (h : Models t M) : ReadsAs t M := by
  obtain ⟨hinv, hpriv, rfl⟩ := h
  intro m f v b hf hb
  have hm : m ≠ kmap := by
    rintro rfl
    rw [memories, if_pos rfl] at hf
    cases hf
  have huse : mem t.st m v = some b := by
    rw [memories, if_neg hm, Option.map_eq_some_iff] at hf
    obtain ⟨map, -, rfl⟩ := hf
    exact hb
  obtain ⟨map, e, hmap, he, hhas, -⟩ := (mem_eq_some hinv.mapsOk).mp huse
  -- a mapped address lies in the user half, so the access is canonical
  have hv : v < 2 ^ 47 := by
    have hle := ((hinv.mapsOk m map hmap).entry_ok e he).le_hi
    obtain ⟨-, hhi⟩ := hhas
    rw [mapLo, if_neg hm] at hle
    unfold userBase userSize at hle
    omega
  have hcanon : canonical v = true := by
    unfold canonical
    rw [decide_eq_true hv]
    rfl
  refine ⟨fun b' a p t' hs => ?_, fun a p ha hp => ?_⟩
  · cases step_cases hs with
    | read _ _ _ _ _ st _ htouch hload =>
        obtain ⟨hb', -⟩ := read_spec hinv hm hv htouch hload
        exact Option.some.inj (hb'.symm.trans huse)
  -- the fault can be served with any free page, so the read does return
  · obtain ⟨st, htouch⟩ := touch_isSome hinv hpriv hv huse ha hp
    obtain ⟨-, hfault⟩ := touch_spec hinv (fun hw => absurd hw Bool.false_ne_true) htouch
    obtain ⟨pte, hpte, -⟩ := hfault.pte
    have hload : load st m v = some (st.bytes pte.page (v % pgSize)) := by
      rw [load, hpte]
      rfl
    obtain ⟨hb', -⟩ := read_spec hinv hm hv htouch hload
    have heq : st.bytes pte.page (v % pgSize) = b := Option.some.inj (hb'.symm.trans huse)
    refine ⟨⟨st, t.held⟩, ?_⟩
    rw [step, if_pos hcanon]
    dsimp only [Option.bind_eq_bind]
    rw [htouch, Option.bind_some, hload, Option.bind_some, if_pos heq]

/-- **Copy on write is a deep copy.** Every run from boot in which the addresses asked for are pages
away from the top of the address space, and in which the counts have room, is a run of the
specification; and in the state it reaches every mapped address can be read and has the byte of the
specification. -/
theorem cow_refines {t₀ t : Sys} {xs : List Action} (h₀ : Boot t₀)
    (h : machine.Trace (fun t x => InScope t x ∧ PagesAndRoom t x) t₀ xs t) :
    ∃ ys M, List.Forall₂ Observed xs ys ∧ Machine.Path RefStep (fun _ => none) ys M ∧
      ReadsAs t M := by
  obtain ⟨ys, M, hobs, hpath, hmodels⟩ := h.simulates (R := Models)
    (fun _ _ _ _ hm hc hs => models_step hm hc.1 hc.2 hs) h₀.models
  exact ⟨ys, M, hobs, hpath, hmodels.readsAs⟩

/-- A parent writes, forks, and both sides write and read again. -/
def forkRun : List Action :=
  [.call (.vmMapNew 1 [0, 1]), .call (.segRefill 1 [2, 3]), .call (.vmAllocate 1 0 0x2000 0x1000),
    .write 1 0x2345 7 0 0, .call (.vmMapFork 1 2 [1] [0, 1, 2, 3]), .read 2 0x2345 7 1 1,
    .write 1 0x2345 8 1 1, .read 2 0x2345 7 2 2, .write 2 0x2345 9 2 2, .read 1 0x2345 8 3 3]

/-- Neither side sees what the other one writes after the fork. -/
theorem cow_refines_fork :
    ∃ t, machine.exec bootSys forkRun = some t ∧ ∃ ys M, List.Forall₂ Observed forkRun ys ∧
      Machine.Path RefStep (fun _ => none) ys M ∧ ReadsAs t M := by
  have hrun : (machine.exec bootSys forkRun).isSome = true := by decide
  obtain ⟨t, ht⟩ := Option.isSome_iff_exists.mp hrun
  exact ⟨t, ht, cow_refines boot_bootSys (Machine.trace_of_exec
    (c := fun t x => decide (InScope t x ∧ PagesAndRoom t x)) (fun _ _ hc => of_decide_eq_true hc)
    (by decide) ht)⟩

/-- Memory at an address that is not a page, written in its second page, given back, and allocated
again by pages. -/
def unalignedRun : List Action :=
  [.call (.vmMapNew 1 [0, 1]), .call (.segRefill 1 [2, 3]), .call (.vmAllocate 1 0 0x1800 0x1000),
    .write 1 0x2000 1 0 0, .call (.vmDeallocate 1 0x1800 0x1000), .call (.segRefill 1 [4, 5]),
    .call (.vmAllocate 1 1 0x2000 0x1000), .read 1 0x2000 1 1 1]

/-- **A page that is not cleared.** `vm_allocate` accepts an address that is not a page.  `unmap_entry`
then goes through the pages from there on and misses the last one, whose page table entry stays; the
next mapping there shows the old byte. -/
theorem cow_stale :
    ¬ ∀ (t₀ t : Sys) (xs : List Action), Boot t₀ → machine.Trace InScope t₀ xs t →
      ∃ ys M, List.Forall₂ Observed xs ys ∧ Machine.Path RefStep (fun _ => none) ys M := by
  intro h
  have hrun : (machine.exec bootSys unalignedRun).isSome = true := by decide
  obtain ⟨t, ht⟩ := Option.isSome_iff_exists.mp hrun
  obtain ⟨ys, M, hobs, hpath⟩ := h _ t unalignedRun boot_bootSys (Machine.trace_of_exec
    (c := fun t x => decide (InScope t x)) (fun _ _ hc => of_decide_eq_true hc) (by decide) ht)
  unfold unalignedRun at hobs
  obtain _ | ⟨_, _ | ⟨_, _ | ⟨_, _ | ⟨_, _ | ⟨_, _ | ⟨_, _ | ⟨halloc, _ | ⟨hread, _⟩⟩⟩⟩⟩⟩⟩⟩ := hobs
  -- the last two steps: zero bytes are installed, and a one is read
  obtain _ | ⟨_, _ | ⟨_, _ | ⟨_, _ | ⟨_, _ | ⟨_, _ | ⟨_, _ | ⟨halloc', _ | ⟨hread', -⟩⟩⟩⟩⟩⟩⟩⟩ := hpath
  cases halloc
  cases hread
  cases halloc' with
  | allocate hm hexact hfresh =>
      cases hread' with
      | read hm' hv =>
          rw [Function.update_self] at hm'
          cases hm'
          have haddr := hexact (by decide)
          rw [haddr] at hv
          dsimp only at hv
          rw [if_pos (by decide)] at hv
          cases hv

end Scalux.Vm
