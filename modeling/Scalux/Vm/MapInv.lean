import Scalux.Vm.Refs

/-! # The invariant of maps, objects and page tables

The entries of a map are page-aligned ranges that its arena has allocated, and so disjoint and inside
the span of the arena.  A span has fewer pages than the page tables have places, so a page table
entry belongs to one page of one entry.  With the invariants of `Scalux.Vm.Refs` this says what every
page table entry shows.

* **`MapOk`**: the entries of a map against its arena.
* **`Inv`**: the whole invariant, and `pte_shows`, what it says about a page table entry.
* **`insert_spec`**, **`unmap_spec`**, **`fault_spec`**: the functions keep it. -/

namespace Scalux.Vm

open Vmem (Quantized view vmemInit vmemXalloc vmemXfree)

variable {s s' : State} {m : MapId} {o : ObjId} {a : AnonId} {p : Page} {v lo : ℕ} {map map' : Map}
  {maps maps' : Heap Map} {objs : Heap Object} {held : List ObjId} {e f : Entry}

/-! ## Entries -/

/-- The address is in the range of the entry. -/
def Entry.Has (e : Entry) (v : ℕ) : Prop := e.start ≤ v ∧ v < e.stop

/-- Two entries do not overlap. -/
def Entry.Apart (e f : Entry) : Prop := e.stop ≤ f.start ∨ f.stop ≤ e.start

/-- The page of its object that an entry has at an address. -/
def Entry.page (e : Entry) (v : ℕ) : ℕ := add64 (sub64 (pgRoundDown v) e.start) e.offset / pgSize

/-- An entry is a range of pages inside the span at `lo`. -/
structure EntryOk (lo : ℕ) (e : Entry) : Prop where
  nonempty : e.start < e.stop
  start_dvd : pgSize ∣ e.start
  stop_dvd : pgSize ∣ e.stop
  offset_dvd : pgSize ∣ e.offset
  lo_le : lo ≤ e.start
  le_hi : e.stop ≤ lo + userSize

/-- The entries of a map are disjoint ranges of pages that its arena has allocated. -/
structure MapOk (lo : ℕ) (map : Map) : Prop where
  arena : ∃ live, Vmem.Inv (· ≤ ·) ⟨map.vmem, live⟩ ∧
    ∀ e ∈ map.entries, (e.start, e.stop - e.start) ∈ live
  quantized : Quantized lo userSize pgSize (view map.vmem)
  entry_ok : ∀ e ∈ map.entries, EntryOk lo e
  apart : map.entries.Pairwise Entry.Apart

/-- The lowest address of a map. -/
def mapLo (m : MapId) : ℕ := if m = kmap then kheapBase else userBase

/-- Every map is in order. -/
def MapsOk (maps : Heap Map) : Prop := ∀ m map, maps.get? m = some map → MapOk (mapLo m) map

/-- The object, and the page of it, that a map has at an address. -/
def objPageOf (map : Map) (v : ℕ) : Option (ObjId × ℕ) :=
  (mapEntryForAddr map.entries v).map fun e => (e.obj, e.page v)

theorem objPageIn_eq (maps : Heap Map) (m : MapId) (v : ℕ) :
    objPageIn maps m v = (maps.get? m).bind fun map => objPageOf map v := by
  unfold objPageIn objPageOf
  cases maps.get? m with
  | none => rfl
  | some map => exact Option.map_eq_bind.symm

/-- The start of the page of an address. -/
theorem pgRoundDown_eq (v : ℕ) : pgRoundDown v = v / pgSize * pgSize := by
  unfold pgRoundDown
  have := Nat.div_add_mod v pgSize
  have := Nat.mul_comm pgSize (v / pgSize)
  omega

theorem pgRoundDown_mod (v : ℕ) : pgRoundDown v % pgSize = 0 := by
  rw [pgRoundDown_eq]
  exact Nat.mul_mod_left _ _

/-- The start of a page is its own. -/
theorem pgRoundDown_of_mod (h : v % pgSize = 0) : pgRoundDown v = v := by
  unfold pgRoundDown
  rw [h]
  exact Nat.sub_zero v

/-- Pages of one span have places of their own in the page tables. -/
theorem pteIndex_inj {w : ℕ} (hv : v % pgSize = 0) (hw : w % pgSize = 0) (hvlo : lo ≤ v)
    (hvhi : v < lo + userSize) (hwlo : lo ≤ w) (hwhi : w < lo + userSize)
    (h : pteIndex v = pteIndex w) : v = w := by
  unfold pteIndex at h
  unfold pgSize at h hv hw
  unfold userSize at hvhi hwhi
  omega

/-- Entries with an address in common overlap. -/
theorem Entry.Apart.not_has (h : e.Apart f) (he : e.Has v) : ¬ f.Has v := by
  rintro ⟨hlo, hhi⟩
  obtain ⟨hlo', hhi'⟩ := he
  unfold Entry.Apart at h
  omega

instance : Std.Symm Entry.Apart := ⟨fun _ _ h => Or.symm h⟩

/-- Entries that are not empty and do not overlap are different. -/
theorem nodup_of_apart {l : List Entry} (hne : ∀ e ∈ l, e.start < e.stop)
    (hap : l.Pairwise Entry.Apart) : l.Nodup := by
  refine hap.imp_of_mem fun {e f} he _ hapart heq => ?_
  subst heq
  have := hne e he
  unfold Entry.Apart at hapart
  omega

/-- An entry has the pages of the addresses it has. -/
theorem EntryOk.has_pgRoundDown (hok : EntryOk lo e) (h : e.Has v) : e.Has (pgRoundDown v) := by
  obtain ⟨k, hk⟩ := hok.start_dvd
  obtain ⟨hlo, hhi⟩ := h
  unfold Entry.Has pgRoundDown
  unfold pgSize at *
  omega

/-- Entries of a map with an address in common are one entry. -/
theorem MapOk.eq_of_has (hok : MapOk lo map) (he : e ∈ map.entries) (hf : f ∈ map.entries)
    (hev : e.Has v) (hfv : f.Has v) : e = f := by
  by_contra hne
  exact (hok.apart.forall he hf hne).not_has hev hfv

/-- `map_entry_for_addr` finds the entry that has the address. -/
theorem MapOk.mapEntryForAddr_eq (hok : MapOk lo map) :
    mapEntryForAddr map.entries v = some e ↔ e ∈ map.entries ∧ e.Has v := by
  unfold mapEntryForAddr
  constructor
  · intro h
    have hhas := List.find?_some h
    simp only [Bool.and_eq_true, decide_eq_true_eq] at hhas
    exact ⟨List.mem_of_find?_eq_some h, hhas⟩
  · rintro ⟨he, hhas⟩
    cases hfind : map.entries.find? fun e => e.start ≤ v && v < e.stop with
    | none =>
        have := List.find?_eq_none.mp hfind e he
        simp only [Bool.and_eq_true, decide_eq_true_eq] at this
        exact absurd hhas this
    | some f =>
        have hf := List.find?_some hfind
        simp only [Bool.and_eq_true, decide_eq_true_eq] at hf
        exact congrArg some (hok.eq_of_has (List.mem_of_find?_eq_some hfind) he hf hhas)

/-- What a map has at an address, by its entries. -/
theorem MapOk.objPageOf_eq (hok : MapOk lo map) {page : ℕ} :
    objPageOf map v = some (o, page) ↔
      ∃ e ∈ map.entries, e.Has v ∧ e.obj = o ∧ e.page v = page := by
  unfold objPageOf
  rw [Option.map_eq_some_iff]
  constructor
  · rintro ⟨e, he, heq⟩
    obtain ⟨hmem, hhas⟩ := hok.mapEntryForAddr_eq.mp he
    exact ⟨e, hmem, hhas, (Prod.mk.inj heq).1, (Prod.mk.inj heq).2⟩
  · rintro ⟨e, hmem, hhas, rfl, rfl⟩
    exact ⟨e, hok.mapEntryForAddr_eq.mpr ⟨hmem, hhas⟩, rfl⟩

/-- The maps when one is assigned. -/
theorem objPageIn_set (hmap : maps.get? m = some map) (map' : Map) (m' : MapId) (v : ℕ) :
    objPageIn (maps.set m map') m' v
      = if m' = m then objPageOf map' v else objPageIn maps m' v := by
  rw [objPageIn_eq, objPageIn_eq, Heap.get?_set hmap]
  split <;> rfl

/-- The mappings on record are not affected where the maps have what they had. -/
theorem Ptes.of_maps (hp : Ptes maps objs s)
    (h : ∀ p, ∀ x ∈ s.pv p, ∀ y, objPageIn maps x.1 x.2 = some y →
      objPageIn maps' x.1 x.2 = some y) : Ptes maps' objs s := by
  intro p x hx
  obtain ⟨o, page, a, anon, halign, hop, hrest⟩ := hp p x hx
  exact ⟨o, page, a, anon, halign, h p x hx _ hop, hrest⟩

/-- They are not affected where one map has what it had. -/
theorem Ptes.set (hp : Ptes maps objs s) (hmap : maps.get? m = some map) {map' : Map}
    (h : ∀ v y, objPageOf map v = some y → objPageOf map' v = some y) : Ptes (maps.set m map') objs s := by
  refine hp.of_maps fun p x _ y hy => ?_
  rw [objPageIn_set hmap]
  split
  · rename_i hm
    rw [hm, objPageIn_eq, hmap] at hy
    exact h _ _ hy
  · exact hy

/-! ## The invariant -/

/-- **The invariant.** -/
structure Inv (held : List ObjId) (s : State) : Prop where
  sound : Sound s.maps held s
  mapsOk : MapsOk s.maps
  kernel : s.maps.get? kmap ≠ none

/-- A page table entry is on record. -/
theorem PvExact.exists_mem (h : PvExact s) {q : ℕ} {pte : Pte} (hpte : s.pmap m q = some pte) :
    ∃ x ∈ s.pv pte.page, x.1 = m ∧ pteIndex x.2 = q := by
  have hcount := h pte.page m q
  rw [pageAt, hpte, Option.map_some, if_pos rfl] at hcount
  have hmem : (m, q) ∈ (s.pv pte.page).map pvKey := List.count_pos_iff.mp (by omega)
  obtain ⟨x, hx, hkey⟩ := List.mem_map.mp hmem
  exact ⟨x, hx, (Prod.mk.inj hkey).1, (Prod.mk.inj hkey).2⟩

/-- What an address has, its page has. -/
theorem objPageIn_pgRoundDown (hok : MapsOk maps) {x : ObjId × ℕ}
    (h : objPageIn maps m v = some x) : objPageIn maps m (pgRoundDown v) = some x := by
  rw [objPageIn_eq] at h ⊢
  obtain ⟨map, hmap, h⟩ := Option.bind_eq_some_iff.mp h
  obtain ⟨o, page⟩ := x
  obtain ⟨e, he, hhas, ho, hpage⟩ := (hok m map hmap).objPageOf_eq.mp h
  rw [hmap]
  refine (hok m map hmap).objPageOf_eq.mpr
    ⟨e, he, ((hok m map hmap).entry_ok e he).has_pgRoundDown hhas, ho, ?_⟩
  rw [← hpage, Entry.page, pgRoundDown_of_mod (pgRoundDown_mod v)]
  rfl

/-- What has an object is inside the span of its map. -/
theorem mem_span (hok : MapsOk maps) {x : ObjId × ℕ} (h : objPageIn maps m v = some x) :
    mapLo m ≤ v ∧ v < mapLo m + userSize := by
  rw [objPageIn_eq] at h
  obtain ⟨map, hmap, h⟩ := Option.bind_eq_some_iff.mp h
  obtain ⟨e, he, hhas, -⟩ := (hok m map hmap).objPageOf_eq.mp h
  have hle := ((hok m map hmap).entry_ok e he).lo_le
  have hhi := ((hok m map hmap).entry_ok e he).le_hi
  exact ⟨hle.trans hhas.1, hhas.2.trans_le hhi⟩

/-- A mapping on record at the place of an address is of the page of the address. -/
theorem eq_of_pteIndex (hok : MapsOk maps) {w : ℕ} {x y : ObjId × ℕ} (hw : w % pgSize = 0)
    (hx : objPageIn maps m w = some x) (hy : objPageIn maps m v = some y)
    (h : pteIndex w = pteIndex v) : w = pgRoundDown v := by
  obtain ⟨hwlo, hwhi⟩ := mem_span hok hx
  obtain ⟨hvlo, hvhi⟩ := mem_span hok (objPageIn_pgRoundDown hok hy)
  rw [← pteIndex_pgRoundDown v] at h
  exact pteIndex_inj hw (pgRoundDown_mod v) hwlo hwhi hvlo hvhi h

/-- **What a page table entry shows**: the page of the anon in the slot that the entry of the map has
there, and it is writable only if no other slot holds the anon. -/
theorem Inv.pte_shows (h : Inv held s) {page : ℕ} {pte : Pte}
    (hpte : s.pmap m (pteIndex v) = some pte) (hop : objPage s m v = some (o, page)) :
    ∃ a anon, slotIn s.objs o page = some a ∧ s.anons.get? a = some anon ∧
      anon.physpage = pte.page ∧ (pte.write = true → anon.refcnt = 1) := by
  obtain ⟨⟨m', w⟩, hx, rfl, hq⟩ := h.sound.pvInv.exact.exists_mem hpte
  obtain ⟨o', page', a, anon, halign, hop', hslot, hanon, hpage, hwrite⟩ := h.sound.ptes _ _ hx
  have hw := eq_of_pteIndex h.mapsOk halign hop' hop hq
  dsimp only at hw
  subst hw
  have heq := (objPageIn_pgRoundDown h.mapsOk hop).symm.trans hop'
  obtain ⟨rfl, rfl⟩ := Prod.mk.inj (Option.some.inj heq)
  refine ⟨a, anon, hslot, hanon, hpage, hwrite pte ?_⟩
  exact hq ▸ hpte

/-- A page table entry shows a page in use. -/
theorem Inv.page_used (h : Inv held s) {q : ℕ} {pte : Pte} (hpte : s.pmap m q = some pte) :
    pte.page ∉ s.freeq := by
  obtain ⟨x, hx, -, -⟩ := h.sound.pvInv.exact.exists_mem hpte
  obtain ⟨-, -, a, anon, -, -, -, hanon, hpage, -⟩ := h.sound.ptes _ _ hx
  rw [← hpage]
  exact h.sound.refs.page_used a anon hanon

/-! ## Arenas -/

/-- A reference held outside of maps may be forgotten. -/
theorem Sound.forget (h : Sound maps (o :: held) s) : Sound maps held s where
  refs := h.refs
  ptes := h.ptes
  pvInv := h.pvInv
  holds :=
    { refcnt_le := fun o' obj hobj => by
        have := h.holds.refcnt_le o' obj hobj
        have := List.count_le_count_cons (a := o') (b := o) (l := held)
        omega
      held_valid := fun o' ho' => h.holds.held_valid o' (List.mem_cons_of_mem o ho')
      entry_valid := h.holds.entry_valid
      kind := h.holds.kind }

/-- Objects keep their references when the entries of a map change with them. -/
theorem holds_setMap {held' : List ObjId} (hh : Holds maps objs held) (hmap : maps.get? m = some map)
    (hle : ∀ o, held'.count o + entriesOf o map' ≤ held.count o + entriesOf o map)
    (hvalid : ∀ e ∈ map'.entries, e ∈ map.entries ∨ e.obj ∈ held)
    (hheld : ∀ o ∈ held', o ∈ held ∨ ∃ e ∈ map.entries, e.obj = o) :
    Holds (maps.set m map') objs held' where
  refcnt_le o obj hobj := by
    have := hh.refcnt_le o obj hobj
    have := Heap.weigh_set (w := entriesOf o) hmap map'
    have := hle o
    omega
  held_valid o ho := by
    rcases hheld o ho with ho | ⟨e, he, rfl⟩
    · exact hh.held_valid o ho
    · exact hh.entry_valid m map hmap e he
  entry_valid m' x hx e he := by
    rw [Heap.get?_set hmap] at hx
    -- in the map that was set each object was held or entered before
    split at hx
    · cases hx
      rcases hvalid e he with he | he
      · exact hh.entry_valid m map hmap e he
      · exact hh.held_valid e.obj he
    · exact hh.entry_valid m' x hx e he
  kind := hh.kind

/-- A map is assigned. -/
theorem mapsOk_set (hok : MapsOk maps) (hmap : maps.get? m = some map)
    (hnew : MapOk (mapLo m) map') : MapsOk (maps.set m map') := by
  intro m' x hx
  rw [Heap.get?_set hmap] at hx
  split at hx
  · rename_i hm
    cases hx
    exact hm ▸ hnew
  · exact hok m' x hx

/-- Only the arena of a map changes. -/
theorem inv_setVmem (h : Inv held s) (hmap : s.maps.get? m = some map) {vmem : Vmem.Arena Unit}
    (hnew : MapOk (mapLo m) { map with vmem := vmem }) :
    Inv held (setMap s m { map with vmem := vmem }) := by
  refine ⟨⟨h.sound.refs.congr rfl rfl, ?_, ?_, pvInv_setMap h.sound.pvInv _⟩,
    mapsOk_set h.mapsOk hmap hnew, fun hnone => h.kernel ((Heap.get?_set_eq_none ..).mp hnone)⟩
  · exact h.sound.ptes.set hmap fun _ _ hy => hy
  · exact holds_setMap h.sound.holds hmap (fun _ => le_rfl) (fun e he => .inl he) fun o ho => .inl ho

/-- The quantum of the arenas of address space divides the size of the address space. -/
theorem pgSize_dvd : pgSize ∣ 2 ^ 64 := by decide

/-- The spans of the maps are far from the top of the address space. -/
theorem mapLo_top (m : MapId) : mapLo m + 2 * userSize < 2 ^ 64 := by
  unfold mapLo
  split <;> decide

/-- A request for pages that the arena of a map cannot serve. -/
theorem mapOk_xalloc_error (hok : MapOk lo map) {size min : ℕ} {flags : Vmem.Flags} {n : ℤ}
    {vmem : Vmem.Arena Unit}
    (hx : vmemXalloc none map.vmem size 0 0 min 0 flags = some (.error n, vmem)) :
    MapOk lo { map with vmem := vmem } := by
  obtain ⟨live, hinv, hlive⟩ := hok.arena
  obtain ⟨hq, hinv'⟩ := Vmem.quantized_xalloc_error hinv hok.quantized hx
  exact ⟨⟨live, hinv', hlive⟩, hq, hok.entry_ok, hok.apart⟩

/-- Pages that the arena of a map gives are inside its span and in no entry. -/
theorem xalloc_spec (hok : MapOk (mapLo m) map) {size min addr : ℕ} {flags : Vmem.Flags}
    {vmem : Vmem.Arena Unit} (hsize : pgSize ∣ size) (hmin : pgSize ∣ min)
    (hlt : min + size < 2 ^ 64)
    (hx : vmemXalloc none map.vmem size 0 0 min 0 flags = some (.ok addr, vmem)) :
    MapOk (mapLo m) { map with vmem := vmem } ∧ (flags.exact = true → addr = min) ∧
      ∀ offset o, pgSize ∣ offset → add64 addr size = addr + size ∧
        MapOk (mapLo m) ⟨map.entries ++ [⟨addr, addr + size, offset, o⟩], vmem⟩ := by
  obtain ⟨live, hinv, hlive⟩ := hok.arena
  obtain ⟨hq, hinv', haddr, hpos, hexact⟩ := Vmem.quantized_xalloc hinv hok.quantized pgSize_dvd
    (mapLo_top m) hsize hmin hlt hx
  have hsound := hinv'.liveSound isGap_le
  obtain ⟨t, ht, hspan, hlo, hhi⟩ := hsound.in_span _ List.mem_cons_self
  obtain ⟨hbase, htsize⟩ := hq.span t ht hspan
  rw [hbase] at hlo hhi
  rw [htsize] at hhi
  have hrest : ∀ e ∈ map.entries, (e.start, e.stop - e.start) ∈ (addr, size) :: live :=
    fun e he => List.mem_cons_of_mem _ (hlive e he)
  refine ⟨⟨⟨_, hinv', hrest⟩, hq, hok.entry_ok, hok.apart⟩, hexact, fun offset o hoffset => ?_⟩
  have htop := mapLo_top m
  have hsum : add64 addr size = addr + size := add64_eq (by omega)
  have hnew : EntryOk (mapLo m) ⟨addr, addr + size, offset, o⟩ :=
    ⟨Nat.lt_add_of_pos_right hpos, haddr, Nat.dvd_add haddr hsize, hoffset, hlo, hhi⟩
  refine ⟨hsum, ⟨_, hinv', ?_⟩, hq, ?_, ?_⟩
  · intro e he
    rcases List.mem_append.mp he with he | he
    · exact hrest e he
    · rw [List.mem_singleton.mp he]
      show (addr, addr + size - addr) ∈ _
      rw [Nat.add_sub_cancel_left]
      exact List.mem_cons_self
  · intro e he
    rcases List.mem_append.mp he with he | he
    · exact hok.entry_ok e he
    · rw [List.mem_singleton.mp he]
      exact hnew
  · refine List.pairwise_append.mpr ⟨hok.apart, List.pairwise_singleton _ _, fun e he f hf => ?_⟩
    rw [List.mem_singleton.mp hf]
    -- the new range is disjoint from the range of every entry
    have hdisj := (List.pairwise_cons.mp hsound.disjoint).1 _ (hlive e he)
    have := (hok.entry_ok e he).nonempty
    show e.stop ≤ addr ∨ addr + size ≤ e.start
    dsimp only at hdisj
    omega

/-- Pages of a map are given back that only an entry to be removed has. -/
theorem xfree_spec (hok : MapOk lo map) {addr : ℕ} {n : ℤ} {vmem : Vmem.Arena Unit}
    {entries : List Entry} (hx : vmemXfree none map.vmem addr = some (n, vmem))
    (hsub : entries.Sublist map.entries) (hother : ∀ e ∈ entries, e.start ≠ addr) :
    MapOk lo ⟨entries, vmem⟩ := by
  obtain ⟨live, hinv, hlive⟩ := hok.arena
  obtain ⟨hq, hinv'⟩ := Vmem.quantized_xfree hinv hok.quantized pgSize_dvd hx
  refine ⟨⟨_, hinv', fun e he => ?_⟩, hq, fun e he => hok.entry_ok e (hsub.subset he),
    hok.apart.sublist hsub⟩
  exact Vmem.mem_eraseP_of_ne (hlive e (hsub.subset he)) (hother e he)

/-! ## New maps and new entries -/

/-- `vm_map_new` makes a map without entries. -/
theorem mapNew_spec (h : Inv held s) {pool : List Vmem.Tag} (hpool : pool.Nodup)
    (hs : vmMapNew s m pool = some s') :
    Inv held s' ∧ ∃ vmem maps, s.maps.alloc m ⟨[], vmem⟩ = some maps ∧ s' = { s with maps := maps } := by
  have hpv := pvInv_vmMapNew h.sound.pvInv hs
  obtain ⟨vmem, maps, hinit, ha, rfl⟩ := vmMapNew_eq hs
  have hfresh := Heap.get?_of_alloc ha
  have hget := Heap.get?_alloc ha
  -- the map was not in use, so its page tables were empty already
  have hsame : Function.update s.pmap m (fun _ => none) = s.pmap := by
    refine Function.update_eq_self_iff.mpr (funext fun q => ?_)
    exact (h.sound.pvInv.unused m hfresh q).symm
  rw [hsame] at hpv ⊢
  have hlo : mapLo m = userBase := by
    refine if_neg fun hm => ?_
    rw [hm] at hfresh
    exact h.kernel hfresh
  obtain ⟨hinv, hq⟩ := @Vmem.quantized_init _ _ _ _ pgSize _ _ _ hpool (by decide) (by decide)
    (by decide) (by decide) hinit
  refine ⟨⟨⟨h.sound.refs.congr rfl rfl, ?_, ?_, hpv⟩, fun m' map hmap => ?_, fun hnone => ?_⟩, vmem,
    maps, ha, rfl⟩
  · refine h.sound.ptes.of_maps fun p x _ y hy => ?_
    show objPageIn maps x.1 x.2 = some y
    rw [objPageIn_eq] at hy ⊢
    rw [hget, if_neg, hy]
    intro hx
    rw [hx, hfresh] at hy
    cases hy
  · have hweigh : ∀ o, maps.weigh (entriesOf o) = s.maps.weigh (entriesOf o) := fun o =>
      (Heap.weigh_alloc ha).trans (Nat.zero_add _)
    refine ⟨fun o obj hobj => ?_, h.sound.holds.held_valid, fun m' map hmap e he => ?_,
      h.sound.holds.kind⟩
    · show ((_ : ℕ) + (maps.weigh (entriesOf o) : ℤ)) ≤ _
      rw [hweigh]
      exact h.sound.holds.refcnt_le o obj hobj
    · have hmap : maps.get? m' = some map := hmap
      rw [hget] at hmap
      split at hmap
      · cases hmap
        cases he
      · exact h.sound.holds.entry_valid m' map hmap e he
  · have hmap : maps.get? m' = some map := hmap
    rw [hget] at hmap
    split at hmap
    · rename_i hm'
      cases hmap
      rw [hm', hlo]
      exact ⟨⟨[], hinv, by simp⟩, hq, by simp, .nil⟩
    · exact h.mapsOk m' map hmap
  · have hnone : maps.get? kmap = none := hnone
    rw [hget] at hnone
    split at hnone
    · cases hnone
    · exact h.kernel hnone

/-- An address to map at: any, or a page that is not at the top of the address space. -/
def AddrOk (vaddr size : ℕ) : Prop := vaddr = vaddrMax ∨ (pgSize ∣ vaddr ∧ vaddr + size < 2 ^ 64)

/-- **The end of `vm_map_object`** turns the reference it was given into an entry, or forgets it. -/
theorem insert_spec {vaddr size offset : ℕ} {r : Except ℤ ℕ} (h : Inv (o :: held) s)
    (hsize : pgSize ∣ size) (hlt : size < 2 ^ 64) (hoffset : pgSize ∣ offset)
    (haddr : AddrOk vaddr size) (hs : mapInsert s m o vaddr size offset = some (r, s')) :
    Inv held s' ∧ ∀ addr, r = .ok addr → (vaddr ≠ vaddrMax → addr = vaddr) ∧ ∃ map vmem,
      s.maps.get? m = some map ∧
      s' = setMap s m ⟨map.entries ++ [⟨addr, addr + size, offset, o⟩], vmem⟩ := by
  obtain ⟨map, vmem, hmap, hx, rfl⟩ := mapInsert_cases hs
  have hok := h.mapsOk m map hmap
  cases r with
  | error n =>
      have hforget : Inv held s := ⟨h.sound.forget, h.mapsOk, h.kernel⟩
      exact ⟨inv_setVmem hforget hmap (mapOk_xalloc_error hok hx), by simp⟩
  | ok addr =>
      -- without an address of its own the request begins at 0
      have hmin : pgSize ∣ (if vaddr ≠ vaddrMax then vaddr else 0) ∧
          (if vaddr ≠ vaddrMax then vaddr else 0) + size < 2 ^ 64 := by
        split
        · rename_i hne
          exact haddr.resolve_left hne
        · exact ⟨Nat.dvd_zero _, by omega⟩
      obtain ⟨-, hexact, hentry⟩ := xalloc_spec hok hsize hmin.1 hmin.2 hx
      obtain ⟨hsum, hnew⟩ := hentry offset o hoffset
      rw [entriesAfter, hsum]
      refine ⟨⟨⟨h.sound.refs.congr rfl rfl, ?_, ?_, pvInv_setMap h.sound.pvInv _⟩,
        mapsOk_set h.mapsOk hmap hnew, fun hnone => h.kernel ((Heap.get?_set_eq_none ..).mp hnone)⟩,
        ?_⟩
      · refine h.sound.ptes.set hmap fun v y hy => ?_
        obtain ⟨o', page⟩ := y
        obtain ⟨e, he, hrest⟩ := hok.objPageOf_eq.mp hy
        exact hnew.objPageOf_eq.mpr ⟨e, List.mem_append_left _ he, hrest⟩
      · refine holds_setMap h.sound.holds hmap (fun o' => ?_) (fun e he => ?_)
          fun o' ho' => .inl (List.mem_cons_of_mem o ho')
        · show held.count o' + List.countP _ (map.entries ++ [_])
            ≤ (o :: held).count o' + List.countP _ map.entries
          -- the reference that was held is the one of the new entry
          rw [List.countP_append, List.countP_singleton, List.count_cons]
          simp only [beq_iff_eq, decide_eq_true_eq]
          omega
        · rcases List.mem_append.mp he with he | he
          · exact .inl he
          · rw [List.mem_singleton.mp he]
            exact .inr List.mem_cons_self
      · rintro addr' heq
        cases heq
        refine ⟨fun hne => ?_, map, vmem, hmap, rfl⟩
        rw [hexact (decide_eq_true hne), if_pos hne]

/-! ## Entries that are removed -/

/-- No object is new, the objects that are left have the slots they had, and pages the bytes. -/
structure Keeps (s s' : State) : Prop where
  bytes_eq : s'.bytes = s.bytes
  anon_page : ∀ a x, s'.anons.get? a = some x → ∃ y, s.anons.get? a = some y ∧
    x.physpage = y.physpage
  slot_eq : ∀ o, s'.objs.get? o ≠ none → s.objs.get? o ≠ none ∧
    ∀ page, slotIn s'.objs o page = slotIn s.objs o page

theorem Keeps.refl (s : State) : Keeps s s :=
  ⟨rfl, fun _ x hx => ⟨x, hx, rfl⟩, fun _ ho => ⟨ho, fun _ => rfl⟩⟩

theorem Keeps.trans {t : State} (h : Keeps s s') (h' : Keeps s' t) : Keeps s t where
  bytes_eq := h'.bytes_eq.trans h.bytes_eq
  anon_page a x hx := by
    obtain ⟨y, hy, hxy⟩ := h'.anon_page a x hx
    obtain ⟨z, hz, hyz⟩ := h.anon_page a y hy
    exact ⟨z, hz, hxy.trans hyz⟩
  slot_eq o ho := by
    obtain ⟨ho', heq'⟩ := h'.slot_eq o ho
    obtain ⟨ho, heq⟩ := h.slot_eq o ho'
    exact ⟨ho, fun page => (heq' page).trans (heq page)⟩

/-- Dropping or taking a reference to an object that exists. -/
theorem Kept.keeps (h : Kept o s s') (ho : s.objs.get? o ≠ none) : Keeps s s' where
  bytes_eq := h.bytes_eq
  anon_page := h.anon_page
  slot_eq o' ho' := by
    by_cases heq : o' = o
    · subst heq
      exact ⟨ho, h.slot_eq ho'⟩
    · have hget := h.other_eq o' heq
      refine ⟨hget ▸ ho', fun page => ?_⟩
      rw [slotIn, slotIn, hget]

/-- `unmap_entry` clears the page table entries of a list of pages. -/
theorem unenterAll_spec {l : List ℕ} (hpv : PvInv s)
    (hs : l.foldlM (fun s v => pmapUnenter s m none v) s = some s') :
    PvInv s' ∧ ∃ f g, s' = { s with pmap := f, pv := g } ∧ (∀ p, ∀ x ∈ g p, x ∈ s.pv p) ∧
      (∀ m' q, f m' q = s.pmap m' q ∨ f m' q = none) ∧ ∀ v ∈ l, f m (pteIndex v) = none := by
  induction l generalizing s with
  | nil =>
      obtain rfl : s = s' := Option.some.inj hs
      exact ⟨hpv, s.pmap, s.pv, rfl, fun _ _ hx => hx, fun _ _ => .inl rfl, by simp⟩
  | cons v l ih =>
      rw [List.foldlM_cons] at hs
      obtain ⟨s₁, hun, hs⟩ := Option.bind_eq_some_iff.mp hs
      obtain ⟨hpv₁, hnone, -⟩ := pvInv_unenter hpv (fun _ hp => by cases hp) hun
      obtain ⟨f₁, g₁, rfl, hg₁, hf₁⟩ := pmapUnenter_frame hun
      obtain ⟨hpv', f, g, rfl, hg, hf, hl⟩ := ih hpv₁ hs
      refine ⟨hpv', f, g, rfl, fun p x hx => hg₁ p x (hg p x hx), fun m' q => ?_, fun w hw => ?_⟩
      -- an entry that is gone does not come back while the others are removed
      · by_cases hk : m' = m ∧ q = pteIndex v
        · refine .inr ((hf m' q).elim (fun heq => heq.trans ?_) id)
          rw [hk.1, hk.2]
          exact hnone
        · exact (hf m' q).imp_left fun heq => heq.trans (hf₁ m' q hk)
      · rcases List.mem_cons.mp hw with rfl | hw
        · exact (hf m (pteIndex w)).elim (fun heq => heq.trans hnone) id
        · exact hl w hw

/-- `unmap_entry` goes through every page of the entry. -/
theorem EntryOk.mem_pages (hok : EntryOk lo e) (hhas : e.Has v) (hv : v % pgSize = 0) :
    v ∈ e.pages := by
  obtain ⟨k, hk⟩ := hok.start_dvd
  obtain ⟨hlo, hhi⟩ := hhas
  refine List.mem_map.mpr ⟨(v - e.start) / pgSize, List.mem_range.mpr ?_, ?_⟩
  · unfold pgSize at *
    omega
  · unfold pgSize at *
    omega

/-- What `unmap_entry` does to the maps: one has lost the entry. -/
structure Unmapped (m : MapId) (e : Entry) (map : Map) (s s' : State) : Prop where
  keeps : Keeps s s'
  this : ∃ vmem, s'.maps.get? m = some ⟨map.entries.erase e, vmem⟩
  other : ∀ m', m' ≠ m → s'.maps.get? m' = s.maps.get? m'

/-- The entries of a map are different. -/
theorem MapOk.nodup (hok : MapOk lo map) : map.entries.Nodup :=
  nodup_of_apart (fun e he => (hok.entry_ok e he).nonempty) hok.apart

/-- **`unmap_entry`.** -/
theorem unmap_spec (h : Inv held s) (hmap : s.maps.get? m = some map) (he : e ∈ map.entries)
    (hs : unmapEntry s m e = some s') : Inv held s' ∧ Unmapped m e map s s' := by
  have hpv' := pvInv_unmapEntry h.sound.pvInv hs
  obtain ⟨map₁, n, vmem, s₁, s₂, map₂, hmap₁, hfree, hun, hrel, hmap₂, rfl⟩ := unmapEntry_cases hs
  obtain rfl := Option.some.inj (hmap.symm.trans hmap₁)
  have hok := h.mapsOk m map hmap
  obtain ⟨hpv₁, f, g, rfl, hg, hf, hl⟩ := unenterAll_spec (pvInv_setMap h.sound.pvInv _) hun
  -- the invariants hold for the maps without the entry, whose reference is then in flight
  set maps' := s.maps.set m ⟨map.entries.erase e, vmem⟩ with hmaps'
  have hnew : MapOk (mapLo m) ⟨map.entries.erase e, vmem⟩ := by
    refine xfree_spec hok hfree List.erase_sublist fun e' he' heq => ?_
    have hne := (hok.nodup.mem_erase_iff.mp he').1
    have hmem := List.mem_of_mem_erase he'
    refine hne (hok.eq_of_has (v := e.start) hmem he ⟨heq.le, ?_⟩ ⟨le_rfl, ?_⟩)
    · exact heq ▸ (hok.entry_ok e' hmem).nonempty
    · exact (hok.entry_ok e he).nonempty
  have hsound₁ : Sound maps' (e.obj :: held)
      { setMap s m { map with vmem := vmem } with pmap := f, pv := g } := by
    refine ⟨h.sound.refs.congr rfl rfl, ?_, ?_, hpv₁⟩
    · intro p x hx
      obtain ⟨o', page, a, anon, halign, hop, hslot, hanon, hpage, hwrite⟩ :=
        h.sound.ptes p x (hg p x hx)
      refine ⟨o', page, a, anon, halign, ?_, hslot, hanon, hpage, fun pte hpte => hwrite pte ?_⟩
      · rw [hmaps', objPageIn_set hmap]
        split
        · rename_i hm
          rw [hm, objPageIn_eq, hmap] at hop
          obtain ⟨e', he', hhas, hrest⟩ := hok.objPageOf_eq.mp hop
          refine hnew.objPageOf_eq.mpr ⟨e', ?_, hhas, hrest⟩
          refine (List.mem_erase_of_ne ?_).mpr he'
          -- the pages of the entry are not mapped any more
          rintro rfl
          have hnone := hl x.2 ((hok.entry_ok e' he').mem_pages hhas halign)
          exact hpv₁.exact.key_ne hnone hx ⟨hm, rfl⟩
        · exact hop
      · exact (hf x.1 (pteIndex x.2)).elim (fun heq => heq ▸ hpte) fun hnone => by
          have hpte : f x.1 (pteIndex x.2) = some pte := hpte
          rw [hnone] at hpte
          cases hpte
    · refine holds_setMap h.sound.holds hmap (fun o' => ?_)
        (fun e' he' => .inl (List.mem_of_mem_erase he')) fun o' ho' => ?_
      · show (e.obj :: held).count o' + List.countP _ (map.entries.erase e)
          ≤ held.count o' + List.countP _ map.entries
        have hperm := (List.perm_cons_erase he).countP_eq fun e' => decide (e'.obj = o')
        rw [hperm, List.countP_cons, List.count_cons]
        simp only [beq_iff_eq, decide_eq_true_eq]
        omega
      · rcases List.mem_cons.mp ho' with rfl | ho'
        · exact .inr ⟨e, he, rfl⟩
        · exact .inl ho'
  obtain ⟨hsound₂, hkept⟩ := release_spec hsound₁ hrel
  have hmaps₂ : s₂.maps = s.maps.set m { map with vmem := vmem } := hkept.maps_eq
  rw [hmaps₂, Heap.get?_set hmap, if_pos rfl] at hmap₂
  cases hmap₂
  have hmaps : s₂.maps.set m ⟨map.entries.erase e, vmem⟩ = maps' := by
    rw [hmaps₂, Heap.set_set]
  have hget : ∀ m', maps'.get? m' = if m' = m then some ⟨map.entries.erase e, vmem⟩
      else s.maps.get? m' := fun m' => Heap.get?_set hmap _ m'
  have hobj : s.objs.get? e.obj ≠ none := by
    obtain ⟨obj, hobj⟩ := h.sound.holds.entry_valid m map hmap e he
    rw [hobj]
    simp
  refine ⟨⟨⟨hsound₂.refs.congr rfl rfl, ?_, ?_, hpv'⟩, ?_, ?_⟩, ?_, ?_, ?_⟩
  · show Ptes (s₂.maps.set m ⟨map.entries.erase e, vmem⟩) s₂.objs _
    rw [hmaps]
    exact hsound₂.ptes
  · show Holds (s₂.maps.set m ⟨map.entries.erase e, vmem⟩) s₂.objs held
    rw [hmaps]
    exact hsound₂.holds
  · show MapsOk (s₂.maps.set m ⟨map.entries.erase e, vmem⟩)
    rw [hmaps]
    exact mapsOk_set h.mapsOk hmap hnew
  · show (s₂.maps.set m ⟨map.entries.erase e, vmem⟩).get? kmap ≠ none
    rw [hmaps, hmaps']
    exact fun hnone => h.kernel ((Heap.get?_set_eq_none ..).mp hnone)
  · have hkeeps := hkept.keeps hobj
    exact ⟨hkeeps.bytes_eq, hkeeps.anon_page, hkeeps.slot_eq⟩
  · refine ⟨vmem, ?_⟩
    show (s₂.maps.set m ⟨map.entries.erase e, vmem⟩).get? m = _
    rw [hmaps, hget, if_pos rfl]
  · intro m' hm'
    show (s₂.maps.set m ⟨map.entries.erase e, vmem⟩).get? m' = _
    rw [hmaps, hget, if_neg hm']

end Scalux.Vm
