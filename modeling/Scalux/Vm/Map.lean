import Scalux.Lib.Heap
import Scalux.Kern.Config
import Scalux.Kern.Vmem

/-! # Maps, objects, anons and page tables

`vm/vm.c` and the page-table half of `x86_64/vm.c`.  A **map** is a list of entries over a VMem
arena; an entry maps a range of addresses to an **object**; an object holds, for each of its pages,
an **anon** or nothing; an anon owns one physical page and may be shared by several objects, which
then copy it on write.

* Maps, objects and anons are allocated by `kmem_alloc`, which may give an address that has been
  freed before; here the caller names the identity, and it must not be in use (`Heap`).
* A page table is a function from the index of a page (the 36 bits the four levels translate) to a
  present entry.  The tables' own pages and the wired mappings of the kernel heap are left out.
* `vm_pagealloc` may return any free page; the caller names it.  The pages that page tables and the
  kernel heap take are pages that are never named.
* An array of slots stands for the chunks of an amap: an absent chunk is 32 empty slots.
* `none` stands for a failed assertion, a `fatal`, or the dereference of an invalid pointer.
* Locks are left out: every function here runs as one step. -/

namespace Scalux.Vm

open Vmem (Arena Tag vmemInit vmemXalloc vmemXfree vmemDestroy)

/-- The address of a `vm_map_t`. -/
abbrev MapId := ℕ

/-- The address of a `vm_object_t`. -/
abbrev ObjId := ℕ

/-- The address of a `vm_anon_t`. -/
abbrev AnonId := ℕ

/-- The address of a `vm_page_t`. -/
abbrev Page := ℕ

/-- Pairs of a map and an address are the elements of the pv lists. -/
instance lawfulBEqPv : LawfulBEq (MapId × ℕ) := inferInstance

/-- `&kmap`. -/
def kmap : MapId := 0

/-- `VADDR_MAX`. -/
def vaddrMax : ℕ := 2 ^ 64 - 1

/-- `kAMapChunkNPages`. -/
def kAMapChunkNPages : ℕ := 32

/-- The type of an object. -/
inductive ObjType
  | kDirectMap
  | kKHeap
  | kVMObjAnon
  deriving DecidableEq, Repr, Inhabited

/-- The fault flags `vm_fault` reads. -/
structure FaultFlags where
  /-- `kVMFaultPresent`. -/
  present : Bool
  /-- `kVMFaultWrite`. -/
  write : Bool
  deriving DecidableEq, Repr

/-- `vm_anon_t`. -/
structure Anon where
  /-- A signed field of 24 bits. -/
  refcnt : ℤ
  resident : Bool
  physpage : Page
  deriving DecidableEq, Repr, Inhabited

/-- `vm_object_t`. -/
structure Object where
  refcnt : ℤ
  type : ObjType
  size : ℕ
  parent : Option ObjId
  /-- The slots of `anon.amap`, `kAMapChunkNPages` for each chunk. -/
  slots : List (Option AnonId)
  deriving DecidableEq, Repr, Inhabited

/-- `vm_map_entry_t`. -/
structure Entry where
  start : ℕ
  /-- `end`. -/
  stop : ℕ
  offset : ℕ
  obj : ObjId
  deriving DecidableEq, Repr

/-- A new arena's tags. -/
instance : Inhabited (Arena Unit) :=
  ⟨⟨fun _ => ⟨.kVMemSegFree, 0, 0⟩, [], [], fun _ => [], fun _ => [], [], ()⟩⟩

/-- `vm_map_t`. -/
structure Map where
  entries : List Entry
  vmem : Arena Unit
  deriving Inhabited

/-- A present page table entry. -/
structure Pte where
  page : Page
  write : Bool
  deriving DecidableEq, Repr

/-- The memory the functions of `vm.c` act on. -/
structure State where
  maps : Heap Map
  objs : Heap Object
  anons : Heap Anon
  /-- The page tables of each map. -/
  pmap : MapId → ℕ → Option Pte
  /-- `page->pv_table`, head first. -/
  pv : Page → List (MapId × ℕ)
  /-- `page->anon`. -/
  pageAnon : Page → Option AnonId
  /-- The contents of each page. -/
  bytes : Page → ℕ → UInt8
  /-- `vm_pgfreeq`. -/
  freeq : List Page

/-! ## Counters and addresses -/

/-- `++` on a signed integer of `n` bits. -/
def incr (n : ℕ) (r : ℤ) : ℤ := if r = 2 ^ (n - 1) - 1 then -2 ^ (n - 1) else r + 1

/-- `--` on a signed integer of `n` bits. -/
def decr (n : ℕ) (r : ℤ) : ℤ := if r = -2 ^ (n - 1) then 2 ^ (n - 1) - 1 else r - 1

/-- `PGROUNDDOWN`. -/
def pgRoundDown (v : ℕ) : ℕ := v - v % pgSize

/-- Where the four levels of page tables keep the entry of an address. -/
def pteIndex (v : ℕ) : ℕ := v / pgSize % 2 ^ 36

/-! ## Page tables -/

/-- Assigning the page table entry of an address. -/
def setPte (s : State) (m : MapId) (v : ℕ) (x : Option Pte) : State :=
  { s with pmap := Function.update s.pmap m (Function.update (s.pmap m) (pteIndex v) x) }

/-- Assigning the `pv_table` of a page. -/
def setPv (s : State) (p : Page) (l : List (MapId × ℕ)) : State :=
  { s with pv := Function.update s.pv p l }

/-- `pmap_enter_kern`; `write` is whether the protection has `kVMWrite`. -/
def pmapEnterKern (s : State) (m : MapId) (p : Page) (v : ℕ) (write : Bool) : State :=
  setPte s m v (some ⟨p, write⟩)

/-- `pmap_enter`. -/
def pmapEnter (s : State) (m : MapId) (p : Page) (v : ℕ) (write : Bool) : State :=
  setPv (pmapEnterKern s m p v write) p ((m, v) :: s.pv p)

/-- `pmap_reenter`. -/
def pmapReenter (s : State) (m : MapId) (p : Page) (v : ℕ) (write : Bool) : State :=
  pmapEnterKern s m p v write

/-- `pmap_reenter_all_readonly`. -/
def pmapReenterAllReadonly (s : State) (p : Page) : State :=
  (s.pv p).foldl (fun s x => pmapReenter s x.1 p x.2 false) s

/-- `pmap_unenter` without a `pv`; fatal if the page's `pv_table` lacks the mapping. -/
def pmapUnenter (s : State) (m : MapId) (page : Option Page) (v : ℕ) : Option State :=
  match s.pmap m (pteIndex v) with
  | none => some s
  | some pte =>
      let s := setPte s m v none
      let p := page.getD pte.page
      if (m, v) ∈ s.pv p then some (setPv s p ((s.pv p).erase (m, v))) else none

/-! ## Pages and anons -/

/-- `vm_pagealloc`: a page of the free queue is taken and zeroed. -/
def vmPagealloc (s : State) (p : Page) : Option State :=
  if p ∈ s.freeq then
    some { s with freeq := s.freeq.erase p, bytes := Function.update s.bytes p fun _ => 0 }
  else none

/-- `vm_page_free`. -/
def vmPageFree (s : State) (p : Page) : State := { s with freeq := p :: s.freeq }

/-- Assigning an anon. -/
def setAnon (s : State) (a : AnonId) (x : Anon) : State := { s with anons := s.anons.set a x }

/-- `anon_new`. -/
def anonNew (s : State) (a : AnonId) (p : Page) : Option State := do
  let s ← vmPagealloc s p
  let anons ← s.anons.alloc a ⟨1, true, p⟩
  return { s with anons := anons, pageAnon := Function.update s.pageAnon p (some a) }

/-- `anon_copy`. -/
def anonCopy (s : State) (anon : Anon) (a : AnonId) (p : Page) : Option State := do
  let s ← anonNew s a p
  return { s with bytes := Function.update s.bytes p (s.bytes anon.physpage) }

/-- `anon_release`. -/
def anonRelease (s : State) (a : AnonId) : Option State := do
  let anon ← s.anons.get? a
  let refcnt := decr 24 anon.refcnt
  if 0 < refcnt then return setAnon s a { anon with refcnt := refcnt }
  else if anon.resident then
    let s := vmPageFree s anon.physpage
    return { s with anons := s.anons.free a }
  else none

/-! ## Objects -/

/-- Assigning an object. -/
def setObj (s : State) (o : ObjId) (x : Object) : State := { s with objs := s.objs.set o x }

/-- `vm_aobj_new`. -/
def vmAobjNew (s : State) (o : ObjId) (size : ℕ) : Option State := do
  let objs ← s.objs.alloc o ⟨1, .kVMObjAnon, size, none, []⟩
  return { s with objs := objs }

/-- `vm_object_retain`. -/
def vmObjectRetain (s : State) (o : ObjId) : Option State := do
  let obj ← s.objs.get? o
  return setObj s o { obj with refcnt := incr 32 obj.refcnt }

/-- `amap_release`. -/
def amapRelease (s : State) (slots : List (Option AnonId)) : Option State :=
  slots.reduceOption.foldlM anonRelease s

/-- `vm_object_release`. -/
def vmObjectRelease (s : State) (o : ObjId) : Option State := do
  let obj ← s.objs.get? o
  let refcnt := decr 32 obj.refcnt
  if 0 < refcnt then return setObj s o { obj with refcnt := refcnt }
  else if obj.type = .kVMObjAnon then
    let s ← amapRelease s obj.slots
    return { s with objs := s.objs.free o }
  else none

/-- `amap_copy` of one anon: it is shared, and every mapping of its page becomes read-only. -/
def anonShare (s : State) (a : AnonId) : Option State := do
  let anon ← s.anons.get? a
  return pmapReenterAllReadonly (setAnon s a { anon with refcnt := incr 24 anon.refcnt })
    anon.physpage

/-- `amap_copy`; the allocation of the chunk table asserts that it is not empty. -/
def amapCopy (s : State) (slots : List (Option AnonId)) : Option State :=
  if slots ≠ [] then slots.reduceOption.foldlM anonShare s else none

/-- `vm_object_copy`. -/
def vmObjectCopy (s : State) (o newobj : ObjId) : Option State := do
  let obj ← s.objs.get? o
  if obj.type = .kVMObjAnon then
    let s ← amapCopy s obj.slots
    let objs ← s.objs.alloc newobj { obj with refcnt := 1 }
    return { s with objs := objs }
  else none

/-! ## Faults -/

/-- `amap_anon_at`: the slots, grown to hold the slot of a page.  The chunk table has to fit into the
kernel heap. -/
def amapAnonAt (slots : List (Option AnonId)) (page : ℕ) : Option (List (Option AnonId)) :=
  let minnchunk := page / kAMapChunkNPages + 1
  if minnchunk * 8 ≤ kheapSize then
    some (slots ++ List.replicate (minnchunk * kAMapChunkNPages - slots.length) none)
  else none

/-- `*pAnon = anon`. -/
def setSlot (s : State) (o : ObjId) (obj : Object) (page : ℕ) (a : AnonId) : State :=
  setObj s o { obj with slots := obj.slots.set page (some a) }

/-- `fault_aobj` on a slot whose anon `old` is shared. -/
def faultShared (s : State) (m : MapId) (o : ObjId) (obj : Object) (v page : ℕ) (flags : FaultFlags)
    (old : AnonId) (anon : Anon) (a : AnonId) (p : Page) : Option State :=
  -- a write duplicates the anon, a read maps it read-only
  if flags.write then do
    let s := setAnon s old { anon with refcnt := decr 24 anon.refcnt }
    let s ← anonCopy s anon a p
    let s := setSlot s o obj page a
    let s ← if flags.present then pmapUnenter s m (some anon.physpage) v else some s
    return pmapEnter s m p v true
  else if flags.present then none
  else some (pmapEnter s m anon.physpage v false)

/-- `fault_aobj` on a slot whose anon is not shared. -/
def faultSole (s : State) (m : MapId) (v : ℕ) (flags : FaultFlags) (anon : Anon) : Option State :=
  if flags.present then
    if flags.write then some (pmapReenter s m anon.physpage v true) else none
  else some (pmapEnter s m anon.physpage v true)

/-- `fault_aobj` on an empty slot without a parent object. -/
def faultZero (s : State) (m : MapId) (o : ObjId) (obj : Object) (v page : ℕ) (a : AnonId)
    (p : Page) : Option State := do
  let s ← anonNew s a p
  return pmapEnter (setSlot s o obj page a) m p v true

/-- `fault_aobj`; a new anon, if there is one, is `a` with the page `p`. -/
def faultAobj (s : State) (m : MapId) (o : ObjId) (v voff : ℕ) (flags : FaultFlags) (a : AnonId)
    (p : Page) : Option (ℤ × State) := do
  let obj ← s.objs.get? o
  let page := voff / pgSize
  let slots ← amapAnonAt obj.slots page
  let obj := { obj with slots := slots }
  let s := setObj s o obj
  match (slots[page]?).join with
  | some old => do
      let anon ← s.anons.get? old
      if anon.resident then
        if 1 < anon.refcnt then
          let s ← faultShared s m o obj v page flags old anon a p
          return (0, s)
        else
          let s ← faultSole s m v flags anon
          return (0, s)
      -- paging in is not supported, and the page is asserted not to be mapped
      else if flags.present then none
      else return (-1, s)
  | none =>
      -- fetching from a parent is not supported
      if obj.parent.isSome then return (-1, s)
      else
        let s ← faultZero s m o obj v page a p
        return (0, s)

/-- `map_entry_for_addr`. -/
def mapEntryForAddr (entries : List Entry) (v : ℕ) : Option Entry :=
  entries.find? fun e => e.start ≤ v && v < e.stop

/-- The map whose entries and page tables an access goes through: the kernel's part is shared. -/
def mapFor (m : MapId) (v : ℕ) : MapId := if kheapBase ≤ v then kmap else m

/-- `vm_fault`. -/
def vmFault (s : State) (m : MapId) (v : ℕ) (flags : FaultFlags) (a : AnonId) (p : Page) :
    Option (ℤ × State) := do
  let m := mapFor m v
  let map ← s.maps.get? m
  match mapEntryForAddr map.entries v with
  -- no object at the address
  | none => return (-1, s)
  | some e =>
      let v := pgRoundDown v
      let obj ← s.objs.get? e.obj
      if obj.type = .kVMObjAnon then
        faultAobj s m e.obj v (add64 (sub64 v e.start) e.offset) flags a p
      else return (-1, s)

/-! ## Maps -/

/-- Assigning a map. -/
def setMap (s : State) (m : MapId) (x : Map) : State := { s with maps := s.maps.set m x }

/-- `vm_map_new`, with the unused tags its arena finds. -/
def vmMapNew (s : State) (m : MapId) (pool : List Tag) : Option State := do
  let vmem ← vmemInit none (fun _ => ⟨.kVMemSegFree, 0, 0⟩) pool () userBase userSize
  let maps ← s.maps.alloc m ⟨[], vmem⟩
  return { s with maps := maps, pmap := Function.update s.pmap m fun _ => none }

/-- `vm_map_object`, after the object has been copied or retained; an error of `vmem_xalloc` is
handed back. -/
def mapInsert (s : State) (m : MapId) (o : ObjId) (vaddr size offset : ℕ) :
    Option (Except ℤ ℕ × State) := do
  let map ← s.maps.get? m
  let exact := vaddr ≠ vaddrMax
  let (r, vmem) ← vmemXalloc none map.vmem size 0 0 (if exact then vaddr else 0) 0 ⟨exact⟩
  match r with
  | .error r => return (.error r, setMap s m { map with vmem := vmem })
  | .ok addr =>
      let entry : Entry := ⟨addr, add64 addr size, offset, o⟩
      return (.ok addr, setMap s m ⟨map.entries ++ [entry], vmem⟩)

/-- `vm_map_object`; `newobj` is the copy that is mapped, if one is asked for. -/
def vmMapObject (s : State) (m : MapId) (o : ObjId) (vaddr size offset : ℕ)
    (newobj : Option ObjId) : Option (Except ℤ ℕ × State) :=
  if size % pgSize = 0 then
    match newobj with
    | some newobj => do
        let s ← vmObjectCopy s o newobj
        mapInsert s m newobj vaddr size offset
    | none => do
        let s ← vmObjectRetain s o
        mapInsert s m o vaddr size offset
  else none

/-- `vm_allocate`; it returns 0 in any case, and hands back what `vm_map_object` has returned. -/
def vmAllocate (s : State) (m : MapId) (o : ObjId) (vaddr size : ℕ) :
    Option (Except ℤ ℕ × State) :=
  if size % pgSize = 0 then do
    let s ← vmAobjNew s o size
    let (r, s) ← vmMapObject s m o vaddr size 0 none
    let s ← vmObjectRelease s o
    return (r, s)
  else none

/-- The pages `unmap_entry` goes through. -/
def Entry.pages (e : Entry) : List ℕ :=
  (List.range ((e.stop - e.start + (pgSize - 1)) / pgSize)).map fun i => e.start + i * pgSize

/-- `unmap_entry`. -/
def unmapEntry (s : State) (m : MapId) (e : Entry) : Option State := do
  let map ← s.maps.get? m
  let (n, vmem) ← vmemXfree none map.vmem e.start
  -- the size that `vmem_xfree` reports is asserted not to be negative
  if 0 ≤ n then
    let s := setMap s m { map with vmem := vmem }
    let s ← e.pages.foldlM (fun s v => pmapUnenter s m none v) s
    let s ← vmObjectRelease s e.obj
    let map ← s.maps.get? m
    return setMap s m { map with entries := map.entries.erase e }
  else none

/-- `vm_deallocate` at one entry; a range that covers an entry in part is fatal or ignored. -/
def deallocateEntry (start stop : ℕ) (m : MapId) (s : State) (e : Entry) : Option State :=
  if (e.start < start ∧ e.stop ≤ start) ∨ stop ≤ e.start then some s
  else if start ≤ e.start ∧ e.stop ≤ stop then unmapEntry s m e
  else if e.start < start ∧ e.stop < stop then none
  else some s

/-- `vm_deallocate`. -/
def vmDeallocate (s : State) (m : MapId) (start size : ℕ) : Option State := do
  let map ← s.maps.get? m
  map.entries.foldlM (deallocateEntry start (add64 start size) m) s

/-- `vm_map_release`. -/
def vmMapRelease (s : State) (m : MapId) : Option State := do
  let s ← vmDeallocate s m userBase userSize
  let map ← s.maps.get? m
  let _ ← vmemDestroy map.vmem
  return { s with maps := s.maps.free m, pmap := Function.update s.pmap m fun _ => none }

/-- `vm_map_fork` at one entry: the object is copied and the copy mapped at the same address. -/
def forkEntry (newmap : MapId) (s : State) (e : Entry) (newobj : ObjId) : Option State := do
  let obj ← s.objs.get? e.obj
  if obj.type = .kVMObjAnon then
    let s ← vmObjectCopy s e.obj newobj
    let (r, s) ← vmMapObject s newmap newobj e.start (sub64 e.stop e.start) e.offset none
    match r with
    -- a failure of `vm_map_object` is asserted not to occur
    | .error _ => none
    | .ok _ => vmObjectRelease s newobj
  else none

/-- `vm_map_fork`'s loop; `newobjs` are the copies, in the order of the entries. -/
def forkEntries (newmap : MapId) : State → List Entry → List ObjId → Option State
  | s, [], _ => some s
  | _, _ :: _, [] => none
  | s, e :: es, o :: os => do
      let s ← forkEntry newmap s e o
      forkEntries newmap s es os

/-- `vm_map_fork`; the kernel's map has nothing to inherit. -/
def vmMapFork (s : State) (m newmap : MapId) (newobjs : List ObjId) (pool : List Tag) :
    Option State := do
  let s ← vmMapNew s newmap pool
  if m = kmap then return s
  else
    let map ← s.maps.get? m
    forkEntries newmap s map.entries newobjs

end Scalux.Vm
