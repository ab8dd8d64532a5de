import Scalux.Vm.Calls

/-! # What the functions of the virtual memory manager do

One lemma for each function of `Scalux.Vm.Map`: if it returns, then this is the state it returns.
The proofs about runs use these and never unfold a function.

* **`FaultCase`**: the five ways in which `fault_aobj` maps a page.
* **`anonRelease_cases`**, **`vmObjectRelease_cases`**: a count goes down, or the object goes. -/

namespace Scalux.Vm

open Vmem (vmemInit vmemXalloc vmemXfree vmemDestroy)

variable {s s' : State} {m : MapId} {o : ObjId} {a : AnonId} {p : Page} {v : ℕ}

/-- The page of an address has the page table entry of the address. -/
theorem pteIndex_pgRoundDown (v : ℕ) : pteIndex (pgRoundDown v) = pteIndex v := by
  unfold pteIndex pgRoundDown pgSize
  have : (v - v % 4096) / 4096 = v / 4096 := by omega
  rw [this]

/-! ## Page tables -/

@[simp] theorem setPte_pmap (x : Option Pte) (m' : MapId) (q : ℕ) :
    (setPte s m v x).pmap m' q = if m' = m ∧ q = pteIndex v then x else s.pmap m' q := by
  unfold setPte
  by_cases hm : m' = m
  · subst hm
    by_cases hq : q = pteIndex v
    · simp [hq]
    · simp [hq]
  · simp [hm]

/-- `pmap_unenter` leaves an absent entry alone, or clears the entry and removes one `pv_entry`. -/
theorem pmapUnenter_cases {page : Option Page} (h : pmapUnenter s m page v = some s') :
    (s.pmap m (pteIndex v) = none ∧ s' = s) ∨
      ∃ pte, s.pmap m (pteIndex v) = some pte ∧ (m, v) ∈ s.pv (page.getD pte.page) ∧
        s' = setPv (setPte s m v none) (page.getD pte.page)
          ((s.pv (page.getD pte.page)).erase (m, v)) := by
  unfold pmapUnenter at h
  split at h
  · cases h
    exact .inl ⟨‹_›, rfl⟩
  · rename_i pte hpte
    dsimp only at h
    split at h
    · cases h
      exact .inr ⟨pte, hpte, ‹_›, rfl⟩
    · cases h

/-! ## Pages and anons -/

/-- `anon_new` takes a free page for a new anon. -/
theorem anonNew_eq (h : anonNew s a p = some s') :
    p ∈ s.freeq ∧ ∃ anons, s.anons.alloc a ⟨1, true, p⟩ = some anons ∧
      s' = { s with
        freeq := s.freeq.erase p
        bytes := Function.update s.bytes p fun _ => 0
        anons := anons
        pageAnon := Function.update s.pageAnon p (some a) } := by
  unfold anonNew vmPagealloc at h
  obtain ⟨s₁, hs₁, h⟩ := Option.bind_eq_some_iff.mp h
  split at hs₁
  · rename_i hp
    cases hs₁
    obtain ⟨anons, halloc, h⟩ := Option.bind_eq_some_iff.mp h
    cases h
    exact ⟨hp, anons, halloc, rfl⟩
  · cases hs₁

/-- `anon_copy` does the same, and copies the contents. -/
theorem anonCopy_eq {anon : Anon} (h : anonCopy s anon a p = some s') :
    p ∈ s.freeq ∧ ∃ anons, s.anons.alloc a ⟨1, true, p⟩ = some anons ∧
      s' = { s with
        freeq := s.freeq.erase p
        bytes := Function.update s.bytes p (Function.update s.bytes p (fun _ => 0) anon.physpage)
        anons := anons
        pageAnon := Function.update s.pageAnon p (some a) } := by
  unfold anonCopy at h
  obtain ⟨s₁, hnew, h⟩ := Option.bind_eq_some_iff.mp h
  obtain ⟨hp, anons, halloc, rfl⟩ := anonNew_eq hnew
  cases h
  refine ⟨hp, anons, halloc, ?_⟩
  rw [Function.update_idem]

/-- `anon_release` drops a reference, or the anon with its page. -/
theorem anonRelease_cases (h : anonRelease s a = some s') :
    ∃ anon, s.anons.get? a = some anon ∧
      ((0 < decr 24 anon.refcnt ∧ s' = setAnon s a { anon with refcnt := decr 24 anon.refcnt }) ∨
        (decr 24 anon.refcnt ≤ 0 ∧
          s' = { s with freeq := anon.physpage :: s.freeq, anons := s.anons.free a })) := by
  unfold anonRelease at h
  obtain ⟨anon, hanon, h⟩ := Option.bind_eq_some_iff.mp h
  refine ⟨anon, hanon, ?_⟩
  dsimp only at h
  split at h
  · cases h
    exact .inl ⟨‹_›, rfl⟩
  · split at h
    · cases h
      exact .inr ⟨not_lt.mp ‹_›, rfl⟩
    · cases h

/-! ## Objects -/

/-- `vm_aobj_new` makes an object with one reference. -/
theorem vmAobjNew_eq {size : ℕ} (h : vmAobjNew s o size = some s') :
    ∃ objs, s.objs.alloc o ⟨1, .kVMObjAnon, size, none, []⟩ = some objs ∧
      s' = { s with objs := objs } := by
  unfold vmAobjNew at h
  obtain ⟨objs, halloc, h⟩ := Option.bind_eq_some_iff.mp h
  cases h
  exact ⟨objs, halloc, rfl⟩

/-- `vm_object_retain` adds a reference. -/
theorem vmObjectRetain_eq (h : vmObjectRetain s o = some s') :
    ∃ obj, s.objs.get? o = some obj ∧ s' = setObj s o { obj with refcnt := incr 32 obj.refcnt } := by
  unfold vmObjectRetain at h
  obtain ⟨obj, hobj, h⟩ := Option.bind_eq_some_iff.mp h
  cases h
  exact ⟨obj, hobj, rfl⟩

/-- `vm_object_release` drops a reference, or releases the anons and then the object. -/
theorem vmObjectRelease_cases (h : vmObjectRelease s o = some s') :
    ∃ obj, s.objs.get? o = some obj ∧
      ((0 < decr 32 obj.refcnt ∧ s' = setObj s o { obj with refcnt := decr 32 obj.refcnt }) ∨
        (decr 32 obj.refcnt ≤ 0 ∧ ∃ s₁, obj.slots.reduceOption.foldlM anonRelease s = some s₁ ∧
          s' = { s₁ with objs := s₁.objs.free o })) := by
  unfold vmObjectRelease amapRelease at h
  obtain ⟨obj, hobj, h⟩ := Option.bind_eq_some_iff.mp h
  refine ⟨obj, hobj, ?_⟩
  dsimp only at h
  split at h
  · cases h
    exact .inl ⟨‹_›, rfl⟩
  · split at h
    · obtain ⟨s₁, hrel, h⟩ := Option.bind_eq_some_iff.mp h
      cases h
      exact .inr ⟨not_lt.mp ‹_›, s₁, hrel, rfl⟩
    · cases h

/-- `amap_copy` shares one anon. -/
theorem anonShare_eq (h : anonShare s a = some s') :
    ∃ anon, s.anons.get? a = some anon ∧ s' = pmapReenterAllReadonly
      (setAnon s a { anon with refcnt := incr 24 anon.refcnt }) anon.physpage := by
  unfold anonShare at h
  obtain ⟨anon, hanon, h⟩ := Option.bind_eq_some_iff.mp h
  cases h
  exact ⟨anon, hanon, rfl⟩

/-- `vm_object_copy` shares the anons and makes a new object with the same slots. -/
theorem vmObjectCopy_eq {newobj : ObjId} (h : vmObjectCopy s o newobj = some s') :
    ∃ obj s₁ objs, s.objs.get? o = some obj ∧
      obj.slots.reduceOption.foldlM anonShare s = some s₁ ∧
      s₁.objs.alloc newobj { obj with refcnt := 1 } = some objs ∧
      s' = { s₁ with objs := objs } := by
  unfold vmObjectCopy amapCopy at h
  obtain ⟨obj, hobj, h⟩ := Option.bind_eq_some_iff.mp h
  split at h
  · split at h
    · obtain ⟨s₁, hshare, h⟩ := Option.bind_eq_some_iff.mp h
      obtain ⟨objs, halloc, h⟩ := Option.bind_eq_some_iff.mp h
      cases h
      exact ⟨obj, s₁, objs, hobj, hshare, halloc, rfl⟩
    · cases h
  · cases h

/-! ## Faults -/

/-- Growing an amap changes no slot: the new ones are empty. -/
theorem amapAnonAt_join {slots slots' : List (Option AnonId)} {page : ℕ}
    (h : amapAnonAt slots page = some slots') (i : ℕ) :
    (slots'[i]?).join = (slots[i]?).join := by
  unfold amapAnonAt at h
  dsimp only at h
  split at h
  · cases h
    rw [List.getElem?_append]
    split
    · rfl
    · rename_i hle
      rw [List.getElem?_replicate, List.getElem?_eq_none (not_lt.mp hle)]
      split <;> rfl
  · cases h

/-- Growing an amap to a slot makes the slot exist. -/
theorem amapAnonAt_lt {slots slots' : List (Option AnonId)} {page : ℕ}
    (h : amapAnonAt slots page = some slots') : page < slots'.length := by
  unfold amapAnonAt at h
  dsimp only at h
  split at h
  · cases h
    rw [List.length_append, List.length_replicate]
    unfold kAMapChunkNPages
    omega
  · cases h

/-- How `fault_aobj` maps the page of a slot, once the slot exists: `obj` is the object with its
slots, `page` the slot, `v` the page of the address. -/
inductive FaultCase (s : State) (m : MapId) (o : ObjId) (obj : Object) (v page : ℕ)
    (flags : FaultFlags) (a : AnonId) (p : Page) : State → Prop
  /-- A shared anon is read. -/
  | read (old : AnonId) (anon : Anon) (hslot : (obj.slots[page]?).join = some old)
      (hanon : s.anons.get? old = some anon) (hshared : 1 < anon.refcnt)
      (hpresent : flags.present = false) (hwrite : flags.write = false) :
      FaultCase s m o obj v page flags a p (pmapEnter s m anon.physpage v false)
  /-- A shared anon is written: the slot gets a copy. -/
  | copy (old : AnonId) (anon : Anon) (hslot : (obj.slots[page]?).join = some old)
      (hanon : s.anons.get? old = some anon) (hshared : 1 < anon.refcnt)
      (hwrite : flags.write = true) (s₁ s₂ : State)
      (hcopy : anonCopy (setAnon s old { anon with refcnt := decr 24 anon.refcnt }) anon a p
        = some s₁)
      (hunenter : if flags.present = true then
          pmapUnenter (setSlot s₁ o obj page a) m (some anon.physpage) v = some s₂
        else s₂ = setSlot s₁ o obj page a) :
      FaultCase s m o obj v page flags a p (pmapEnter s₂ m p v true)
  /-- An anon that is no longer shared is written through a read-only mapping. -/
  | reenter (old : AnonId) (anon : Anon) (hslot : (obj.slots[page]?).join = some old)
      (hanon : s.anons.get? old = some anon) (hsole : anon.refcnt ≤ 1)
      (hpresent : flags.present = true) :
      FaultCase s m o obj v page flags a p (pmapReenter s m anon.physpage v true)
  /-- An anon that is not shared is mapped. -/
  | enter (old : AnonId) (anon : Anon) (hslot : (obj.slots[page]?).join = some old)
      (hanon : s.anons.get? old = some anon) (hsole : anon.refcnt ≤ 1)
      (hpresent : flags.present = false) :
      FaultCase s m o obj v page flags a p (pmapEnter s m anon.physpage v true)
  /-- The slot is empty and gets a new anon. -/
  | zero (hslot : (obj.slots[page]?).join = none) (s₁ : State) (hnew : anonNew s a p = some s₁) :
      FaultCase s m o obj v page flags a p (pmapEnter (setSlot s₁ o obj page a) m p v true)

/-- `fault_aobj` on a shared anon. -/
theorem faultShared_cases {obj : Object} {page : ℕ} {flags : FaultFlags} {old : AnonId} {anon : Anon}
    (hslot : (obj.slots[page]?).join = some old) (hanon : s.anons.get? old = some anon)
    (hshared : 1 < anon.refcnt) (h : faultShared s m o obj v page flags old anon a p = some s') :
    FaultCase s m o obj v page flags a p s' := by
  unfold faultShared at h
  -- writing copies the page, reading enters it read-only unless it is mapped already
  split at h
  · rename_i hwrite
    obtain ⟨s₁, hcopy, h⟩ := Option.bind_eq_some_iff.mp h
    dsimp only at h
    split at h
    · rename_i hpresent
      obtain ⟨s₂, hun, h⟩ := Option.bind_eq_some_iff.mp h
      cases h
      exact .copy old anon hslot hanon hshared hwrite s₁ s₂ hcopy ((if_pos hpresent).mpr hun)
    · rename_i hpresent
      cases h
      exact .copy old anon hslot hanon hshared hwrite s₁ _ hcopy ((if_neg hpresent).mpr rfl)
  · rename_i hwrite
    split at h
    · cases h
    · rename_i hpresent
      cases h
      exact .read old anon hslot hanon hshared (Bool.eq_false_iff.mpr hpresent)
        (Bool.eq_false_iff.mpr hwrite)

/-- `fault_aobj` on an anon that is not shared. -/
theorem faultSole_cases {obj : Object} {page : ℕ} {flags : FaultFlags} {old : AnonId} {anon : Anon}
    (hslot : (obj.slots[page]?).join = some old) (hanon : s.anons.get? old = some anon)
    (hsole : anon.refcnt ≤ 1) (h : faultSole s m v flags anon = some s') :
    FaultCase s m o obj v page flags a p s' := by
  unfold faultSole at h
  split at h
  · rename_i hpresent
    split at h
    · cases h
      exact .reenter old anon hslot hanon hsole hpresent
    · cases h
  · rename_i hpresent
    cases h
    exact .enter old anon hslot hanon hsole (Bool.eq_false_iff.mpr hpresent)

/-- **`fault_aobj`.** If it succeeds, the slots are grown and one of the five cases has happened. -/
theorem faultAobj_cases {voff : ℕ} {flags : FaultFlags}
    (h : faultAobj s m o v voff flags a p = some (0, s')) :
    ∃ obj slots, s.objs.get? o = some obj ∧ amapAnonAt obj.slots (voff / pgSize) = some slots ∧
      FaultCase (setObj s o { obj with slots := slots }) m o { obj with slots := slots } v
        (voff / pgSize) flags a p s' := by
  unfold faultAobj at h
  obtain ⟨obj, hobj, h⟩ := Option.bind_eq_some_iff.mp h
  obtain ⟨slots, hslots, h⟩ := Option.bind_eq_some_iff.mp h
  refine ⟨obj, slots, hobj, hslots, ?_⟩
  dsimp only at h
  split at h
  -- the slot has an anon: shared or not decides, a page that is not resident is not handled
  · rename_i old hold
    obtain ⟨anon, hanon, h⟩ := Option.bind_eq_some_iff.mp h
    split at h
    · split at h
      · rename_i hshared
        obtain ⟨s₁, hs₁, h⟩ := Option.bind_eq_some_iff.mp h
        cases h
        exact faultShared_cases hold hanon hshared hs₁
      · rename_i hsole
        obtain ⟨s₁, hs₁, h⟩ := Option.bind_eq_some_iff.mp h
        cases h
        exact faultSole_cases hold hanon (not_lt.mp hsole) hs₁
    · split at h
      · cases h
      · cases h
  -- an empty slot is zero filled, unless the object has a parent
  · rename_i hnone
    split at h
    · cases h
    · obtain ⟨s₁, hs₁, h⟩ := Option.bind_eq_some_iff.mp h
      cases h
      unfold faultZero at hs₁
      obtain ⟨s₂, hnew, hs₁⟩ := Option.bind_eq_some_iff.mp hs₁
      cases hs₁
      exact .zero hnone s₂ hnew

/-- **`vm_fault`.** If it succeeds, an entry maps the address and the fault is in its object. -/
theorem vmFault_cases {flags : FaultFlags} (h : vmFault s m v flags a p = some (0, s')) :
    ∃ map e, s.maps.get? (mapFor m v) = some map ∧ mapEntryForAddr map.entries v = some e ∧
      faultAobj s (mapFor m v) e.obj (pgRoundDown v)
        (add64 (sub64 (pgRoundDown v) e.start) e.offset) flags a p = some (0, s') := by
  unfold vmFault at h
  obtain ⟨map, hmap, h⟩ := Option.bind_eq_some_iff.mp h
  refine ⟨map, ?_⟩
  split at h
  · cases h
  · rename_i e hentry
    obtain ⟨obj, hobj, h⟩ := Option.bind_eq_some_iff.mp h
    split at h
    · exact ⟨e, hmap, hentry, h⟩
    · cases h

/-! ## Maps -/

/-- `vm_map_new` makes a map without entries and with empty page tables. -/
theorem vmMapNew_eq {pool : List Vmem.Tag} (h : vmMapNew s m pool = some s') :
    ∃ vmem maps, vmemInit none (fun _ => ⟨.kVMemSegFree, 0, 0⟩) pool () userBase userSize = some vmem ∧
      s.maps.alloc m ⟨[], vmem⟩ = some maps ∧
      s' = { s with maps := maps, pmap := Function.update s.pmap m fun _ => none } := by
  unfold vmMapNew at h
  obtain ⟨vmem, hvmem, h⟩ := Option.bind_eq_some_iff.mp h
  obtain ⟨maps, hmaps, h⟩ := Option.bind_eq_some_iff.mp h
  cases h
  exact ⟨vmem, maps, hvmem, hmaps, rfl⟩

/-- The entries of a map after the arena has been asked for addresses: one more, if it has given
any. -/
def entriesAfter (entries : List Entry) (o : ObjId) (size offset : ℕ) : Except ℤ ℕ → List Entry
  | .error _ => entries
  | .ok addr => entries ++ [⟨addr, add64 addr size, offset, o⟩]

/-- The end of `vm_map_object` adds an entry at the address that the arena gives, if it gives one. -/
theorem mapInsert_cases {vaddr size offset : ℕ} {r : Except ℤ ℕ}
    (h : mapInsert s m o vaddr size offset = some (r, s')) :
    ∃ map vmem, s.maps.get? m = some map ∧
      vmemXalloc none map.vmem size 0 0 (if vaddr ≠ vaddrMax then vaddr else 0) 0
        ⟨decide (vaddr ≠ vaddrMax)⟩ = some (r, vmem) ∧
      s' = setMap s m ⟨entriesAfter map.entries o size offset r, vmem⟩ := by
  unfold mapInsert at h
  obtain ⟨map, hmap, h⟩ := Option.bind_eq_some_iff.mp h
  obtain ⟨⟨r', vmem⟩, hxalloc, h⟩ := Option.bind_eq_some_iff.mp h
  refine ⟨map, vmem, hmap, ?_⟩
  cases r' with
  | error e =>
      cases h
      exact ⟨hxalloc, rfl⟩
  | ok addr =>
      cases h
      exact ⟨hxalloc, rfl⟩

/-- `vm_map_object` maps the object, retained, or a copy of it. -/
theorem vmMapObject_cases {vaddr size offset : ℕ} {newobj : Option ObjId} {r : Except ℤ ℕ}
    (h : vmMapObject s m o vaddr size offset newobj = some (r, s')) :
    size % pgSize = 0 ∧ ∃ s₁,
      (match newobj with
        | some new => vmObjectCopy s o new = some s₁
        | none => vmObjectRetain s o = some s₁) ∧
      mapInsert s₁ m (newobj.getD o) vaddr size offset = some (r, s') := by
  unfold vmMapObject at h
  split at h
  · refine ⟨‹_›, ?_⟩
    cases newobj with
    | some new => exact Option.bind_eq_some_iff.mp h
    | none => exact Option.bind_eq_some_iff.mp h
  · cases h

/-- `vm_allocate` maps a new object and drops the reference it holds itself. -/
theorem vmAllocate_cases {vaddr size : ℕ} {r : Except ℤ ℕ}
    (h : vmAllocate s m o vaddr size = some (r, s')) :
    ∃ s₁ s₂, vmAobjNew s o size = some s₁ ∧
      vmMapObject s₁ m o vaddr size 0 none = some (r, s₂) ∧ vmObjectRelease s₂ o = some s' := by
  unfold vmAllocate at h
  split at h
  · obtain ⟨s₁, hnew, h⟩ := Option.bind_eq_some_iff.mp h
    obtain ⟨⟨r, s₂⟩, hmapobj, h⟩ := Option.bind_eq_some_iff.mp h
    obtain ⟨s₃, hrel, h⟩ := Option.bind_eq_some_iff.mp h
    cases h
    exact ⟨s₁, s₂, hnew, hmapobj, hrel⟩
  · cases h

/-- `unmap_entry` frees the addresses, clears the page table entries, drops the reference to the
object and removes the entry. -/
theorem unmapEntry_cases {e : Entry} (h : unmapEntry s m e = some s') :
    ∃ map n vmem s₁ s₂ map₂, s.maps.get? m = some map ∧
      vmemXfree none map.vmem e.start = some (n, vmem) ∧
      e.pages.foldlM (fun s v => pmapUnenter s m none v) (setMap s m { map with vmem := vmem })
        = some s₁ ∧
      vmObjectRelease s₁ e.obj = some s₂ ∧ s₂.maps.get? m = some map₂ ∧
      s' = setMap s₂ m { map₂ with entries := map₂.entries.erase e } := by
  unfold unmapEntry at h
  obtain ⟨map, hmap, h⟩ := Option.bind_eq_some_iff.mp h
  obtain ⟨⟨n, vmem⟩, hfree, h⟩ := Option.bind_eq_some_iff.mp h
  dsimp only at h
  split at h
  · obtain ⟨s₁, hun, h⟩ := Option.bind_eq_some_iff.mp h
    obtain ⟨s₂, hrel, h⟩ := Option.bind_eq_some_iff.mp h
    obtain ⟨map₂, hmap₂, h⟩ := Option.bind_eq_some_iff.mp h
    cases h
    exact ⟨map, n, vmem, s₁, s₂, map₂, hmap, hfree, hun, hrel, hmap₂, rfl⟩
  · cases h

/-- `vm_deallocate` at one entry leaves it alone, unless it is inside the range. -/
theorem deallocateEntry_cases {start stop : ℕ} {e : Entry}
    (h : deallocateEntry start stop m s e = some s') :
    s' = s ∨ (start ≤ e.start ∧ e.stop ≤ stop ∧ unmapEntry s m e = some s') := by
  unfold deallocateEntry at h
  split at h
  · cases h
    exact .inl rfl
  · split at h
    · rename_i hin
      exact .inr ⟨hin.1, hin.2, h⟩
    · split at h
      · cases h
      · cases h
        exact .inl rfl

/-- `vm_map_fork` at one entry. -/
theorem forkEntry_cases {newmap : MapId} {e : Entry} {newobj : ObjId}
    (h : forkEntry newmap s e newobj = some s') :
    ∃ s₁ addr s₂, vmObjectCopy s e.obj newobj = some s₁ ∧
      vmMapObject s₁ newmap newobj e.start (sub64 e.stop e.start) e.offset none
        = some (.ok addr, s₂) ∧
      vmObjectRelease s₂ newobj = some s' := by
  unfold forkEntry at h
  obtain ⟨obj, hobj, h⟩ := Option.bind_eq_some_iff.mp h
  split at h
  · obtain ⟨s₁, hcopy, h⟩ := Option.bind_eq_some_iff.mp h
    obtain ⟨⟨r, s₂⟩, hmapobj, h⟩ := Option.bind_eq_some_iff.mp h
    cases r with
    | error e => cases h
    | ok addr => exact ⟨s₁, addr, s₂, hcopy, hmapobj, h⟩
  · cases h

/-- `vm_map_fork` makes a map and, unless it forks the kernel's, goes through the entries. -/
theorem vmMapFork_cases {newmap : MapId} {newobjs : List ObjId} {pool : List Vmem.Tag}
    (h : vmMapFork s m newmap newobjs pool = some s') :
    ∃ s₁, vmMapNew s newmap pool = some s₁ ∧
      ((m = kmap ∧ s' = s₁) ∨ (m ≠ kmap ∧ ∃ map, s₁.maps.get? m = some map ∧
        forkEntries newmap s₁ map.entries newobjs = some s')) := by
  unfold vmMapFork at h
  obtain ⟨s₁, hnew, h⟩ := Option.bind_eq_some_iff.mp h
  refine ⟨s₁, hnew, ?_⟩
  split at h
  · cases h
    exact .inl ⟨‹_›, rfl⟩
  · obtain ⟨map, hmap, h⟩ := Option.bind_eq_some_iff.mp h
    exact .inr ⟨‹_›, map, hmap, h⟩

/-- `vm_map_release` deallocates everything and frees the map. -/
theorem vmMapRelease_cases (h : vmMapRelease s m = some s') :
    ∃ s₁ map, vmDeallocate s m userBase userSize = some s₁ ∧ s₁.maps.get? m = some map ∧
      (vmemDestroy map.vmem).isSome = true ∧
      s' = { s₁ with maps := s₁.maps.free m, pmap := Function.update s₁.pmap m fun _ => none } := by
  unfold vmMapRelease at h
  obtain ⟨s₁, hdealloc, h⟩ := Option.bind_eq_some_iff.mp h
  obtain ⟨map, hmap, h⟩ := Option.bind_eq_some_iff.mp h
  obtain ⟨v, hdestroy, h⟩ := Option.bind_eq_some_iff.mp h
  cases h
  exact ⟨s₁, map, hdealloc, hmap, Option.isSome_iff_exists.mpr ⟨v, hdestroy⟩, rfl⟩

/-! ## Calls -/

/-- **What a call does**: the function that runs, and what its caller vouches for. -/
inductive CallStep (t : Sys) : Call → Sys → Prop
  | segRefill (m : MapId) (pool : List Vmem.Tag) (map : Map) (hmap : t.st.maps.get? m = some map)
      (hok : Vmem.PoolOk map.vmem pool) :
      CallStep t (.segRefill m pool)
        ⟨setMap t.st m { map with vmem := Vmem.withPool map.vmem pool }, t.held⟩
  | kheapAlloc (npages : ℕ) (hsize : npages * pgSize < 2 ^ 64) (map : Map) (addr : ℕ)
      (vmem : Vmem.Arena Unit) (hmap : t.st.maps.get? kmap = some map)
      (hx : vmemXalloc none map.vmem (npages * pgSize) 0 0 0 0 ⟨false⟩ = some (.ok addr, vmem)) :
      CallStep t (.kheapAlloc npages) ⟨setMap t.st kmap { map with vmem := vmem }, t.held⟩
  | kheapFree (addr : ℕ) (map : Map) (n : ℤ) (vmem : Vmem.Arena Unit)
      (hmap : t.st.maps.get? kmap = some map) (hother : ∀ e ∈ map.entries, e.start ≠ addr)
      (hx : vmemXfree none map.vmem addr = some (n, vmem)) :
      CallStep t (.kheapFree addr) ⟨setMap t.st kmap { map with vmem := vmem }, t.held⟩
  | vmMapNew (m : MapId) (pool : List Vmem.Tag) (hpool : pool.Nodup) (st : State)
      (h : vmMapNew t.st m pool = some st) : CallStep t (.vmMapNew m pool) ⟨st, t.held⟩
  | vmAobjNew (o : ObjId) (size : ℕ) (st : State) (h : vmAobjNew t.st o size = some st) :
      CallStep t (.vmAobjNew o size) ⟨st, o :: t.held⟩
  | vmObjectRetain (o : ObjId) (st : State) (h : vmObjectRetain t.st o = some st) :
      CallStep t (.vmObjectRetain o) ⟨st, o :: t.held⟩
  | vmObjectRelease (o : ObjId) (hheld : o ∈ t.held) (st : State)
      (h : vmObjectRelease t.st o = some st) :
      CallStep t (.vmObjectRelease o) ⟨st, t.held.erase o⟩
  | vmObjectCopy (o newobj : ObjId) (st : State) (h : vmObjectCopy t.st o newobj = some st) :
      CallStep t (.vmObjectCopy o newobj) ⟨st, newobj :: t.held⟩
  | vmMapObject (m : MapId) (o : ObjId) (vaddr size offset : ℕ) (newobj : Option ObjId)
      (hvaddr : vaddr < 2 ^ 64) (hsize : size < 2 ^ 64) (hoffset : offset < 2 ^ 64)
      (halign : offset % pgSize = 0) (r : Except ℤ ℕ) (st : State)
      (h : vmMapObject t.st m o vaddr size offset newobj = some (r, st)) :
      CallStep t (.vmMapObject m o vaddr size offset newobj) ⟨st, t.held⟩
  | vmAllocate (m : MapId) (o : ObjId) (vaddr size : ℕ) (hvaddr : vaddr < 2 ^ 64)
      (hsize : size < 2 ^ 64) (r : Except ℤ ℕ) (st : State)
      (h : vmAllocate t.st m o vaddr size = some (r, st)) :
      CallStep t (.vmAllocate m o vaddr size) ⟨st, t.held⟩
  | vmDeallocate (m : MapId) (start size : ℕ) (hstart : start < 2 ^ 64) (hsize : size < 2 ^ 64)
      (st : State) (h : vmDeallocate t.st m start size = some st) :
      CallStep t (.vmDeallocate m start size) ⟨st, t.held⟩
  | vmMapFork (m newmap : MapId) (newobjs : List ObjId) (pool : List Vmem.Tag) (hpool : pool.Nodup)
      (st : State) (h : vmMapFork t.st m newmap newobjs pool = some st) :
      CallStep t (.vmMapFork m newmap newobjs pool) ⟨st, t.held⟩

/-- Every call is one of these. -/
theorem call_cases {c : Call} {t t' : Sys} (hs : call t c = some t') : CallStep t c t' := by
  cases c with
  | segRefill m pool =>
      obtain ⟨st, hst, hs⟩ := Option.bind_eq_some_iff.mp hs
      cases hs
      unfold segRefill at hst
      obtain ⟨map, hmap, hst⟩ := Option.bind_eq_some_iff.mp hst
      split at hst
      · cases hst
        exact .segRefill m pool map hmap ‹_›
      · cases hst
  | kheapAlloc npages =>
      rw [call] at hs
      split at hs
      · obtain ⟨st, hst, hs⟩ := Option.bind_eq_some_iff.mp hs
        cases hs
        unfold kheapAlloc at hst
        obtain ⟨map, hmap, hst⟩ := Option.bind_eq_some_iff.mp hst
        obtain ⟨⟨r, vmem⟩, hx, hst⟩ := Option.bind_eq_some_iff.mp hst
        cases r with
        | error e => cases hst
        | ok addr =>
            cases hst
            exact .kheapAlloc npages ‹_› map addr vmem hmap hx
      · cases hs
  | kheapFree addr =>
      obtain ⟨st, hst, hs⟩ := Option.bind_eq_some_iff.mp hs
      cases hs
      unfold kheapFree at hst
      obtain ⟨map, hmap, hst⟩ := Option.bind_eq_some_iff.mp hst
      split at hst
      · obtain ⟨⟨n, vmem⟩, hx, hst⟩ := Option.bind_eq_some_iff.mp hst
        cases hst
        exact .kheapFree addr map n vmem hmap ‹_› hx
      · cases hst
  | vmMapNew m pool =>
      rw [call] at hs
      split at hs
      · obtain ⟨st, hst, hs⟩ := Option.bind_eq_some_iff.mp hs
        cases hs
        exact .vmMapNew m pool ‹_› st hst
      · cases hs
  | vmAobjNew o size =>
      obtain ⟨st, hst, hs⟩ := Option.bind_eq_some_iff.mp hs
      cases hs
      exact .vmAobjNew o size st hst
  | vmObjectRetain o =>
      obtain ⟨st, hst, hs⟩ := Option.bind_eq_some_iff.mp hs
      cases hs
      exact .vmObjectRetain o st hst
  | vmObjectRelease o =>
      rw [call] at hs
      split at hs
      · obtain ⟨st, hst, hs⟩ := Option.bind_eq_some_iff.mp hs
        cases hs
        exact .vmObjectRelease o ‹_› st hst
      · cases hs
  | vmObjectCopy o newobj =>
      obtain ⟨st, hst, hs⟩ := Option.bind_eq_some_iff.mp hs
      cases hs
      exact .vmObjectCopy o newobj st hst
  -- the guards of a call are what its caller promises; they are kept with it
  | vmMapObject m o vaddr size offset newobj =>
      rw [call] at hs
      split at hs
      · rename_i hguard
        obtain ⟨⟨r, st⟩, hst, hs⟩ := Option.bind_eq_some_iff.mp hs
        cases hs
        exact .vmMapObject m o vaddr size offset newobj hguard.1 hguard.2.1 hguard.2.2.1
          hguard.2.2.2 r st hst
      · cases hs
  | vmAllocate m o vaddr size =>
      rw [call] at hs
      split at hs
      · rename_i hguard
        obtain ⟨⟨r, st⟩, hst, hs⟩ := Option.bind_eq_some_iff.mp hs
        cases hs
        exact .vmAllocate m o vaddr size hguard.1 hguard.2 r st hst
      · cases hs
  | vmDeallocate m start size =>
      rw [call] at hs
      split at hs
      · rename_i hguard
        obtain ⟨st, hst, hs⟩ := Option.bind_eq_some_iff.mp hs
        cases hs
        exact .vmDeallocate m start size hguard.1 hguard.2 st hst
      · cases hs
  | vmMapFork m newmap newobjs pool =>
      rw [call] at hs
      split at hs
      · obtain ⟨st, hst, hs⟩ := Option.bind_eq_some_iff.mp hs
        cases hs
        exact .vmMapFork m newmap newobjs pool ‹_› st hst
      · cases hs

end Scalux.Vm
