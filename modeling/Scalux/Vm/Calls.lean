import Scalux.Vm.Map
import Scalux.Kern.VmemRun

/-! # The calls on the virtual memory manager

The functions of `Scalux.Vm.Map` as the steps of a machine.  Its state is the memory and the
references to objects that callers hold: `vm_aobj_new`, `vm_object_copy` and `vm_object_retain` give
one, `vm_object_release` takes one back.

Two steps stand for the rest of the kernel: `seg_refill` changes the unused tags an arena finds, and
the kernel heap takes and gives back addresses of the kernel map. -/

namespace Scalux.Vm

open Vmem (Tag PoolOk vmemXalloc vmemXfree)

/-- The memory, and the references to objects that are held outside of maps. -/
structure Sys where
  st : State
  held : List ObjId

/-- The calls, with the identities of the objects they allocate. -/
inductive Call
  /-- `seg_refill`, and other arenas, leave these unused tags for the arena of a map. -/
  | segRefill (m : MapId) (pool : List Tag)
  /-- `internal_allocwired`. -/
  | kheapAlloc (npages : ℕ)
  /-- `internal_freewired`. -/
  | kheapFree (addr : ℕ)
  | vmMapNew (m : MapId) (pool : List Tag)
  | vmAobjNew (o : ObjId) (size : ℕ)
  | vmObjectRetain (o : ObjId)
  | vmObjectRelease (o : ObjId)
  | vmObjectCopy (o newobj : ObjId)
  | vmMapObject (m : MapId) (o : ObjId) (vaddr size offset : ℕ) (newobj : Option ObjId)
  | vmAllocate (m : MapId) (o : ObjId) (vaddr size : ℕ)
  | vmDeallocate (m : MapId) (start size : ℕ)
  | vmMapFork (m newmap : MapId) (newobjs : List ObjId) (pool : List Tag)
  deriving DecidableEq, Repr

/-- The kernel heap takes addresses of the kernel map. -/
def kheapAlloc (s : State) (npages : ℕ) : Option State := do
  let map ← s.maps.get? kmap
  let (r, vmem) ← vmemXalloc none map.vmem (npages * pgSize) 0 0 0 0 ⟨false⟩
  match r with
  | .error _ => none
  | .ok _ => return setMap s kmap { map with vmem := vmem }

/-- The kernel heap gives addresses of the kernel map back that no entry has. -/
def kheapFree (s : State) (addr : ℕ) : Option State := do
  let map ← s.maps.get? kmap
  if ∀ e ∈ map.entries, e.start ≠ addr then
    let (_, vmem) ← vmemXfree none map.vmem addr
    return setMap s kmap { map with vmem := vmem }
  else none

/-- Other unused tags for the arena of a map. -/
def segRefill (s : State) (m : MapId) (pool : List Tag) : Option State := do
  let map ← s.maps.get? m
  if PoolOk map.vmem pool then
    return setMap s m { map with vmem := Vmem.withPool map.vmem pool }
  else none

/-- One call.  Addresses and sizes are 64-bit words, an offset into an object is a multiple of the
page size, and a caller releases only what it holds. -/
def call (s : Sys) : Call → Option Sys
  | .segRefill m pool => do
      let st ← segRefill s.st m pool
      return ⟨st, s.held⟩
  | .kheapAlloc npages =>
      if npages * pgSize < 2 ^ 64 then do
        let st ← kheapAlloc s.st npages
        return ⟨st, s.held⟩
      else none
  | .kheapFree addr => do
      let st ← kheapFree s.st addr
      return ⟨st, s.held⟩
  | .vmMapNew m pool =>
      if pool.Nodup then do
        let st ← vmMapNew s.st m pool
        return ⟨st, s.held⟩
      else none
  | .vmAobjNew o size => do
      let st ← vmAobjNew s.st o size
      return ⟨st, o :: s.held⟩
  | .vmObjectRetain o => do
      let st ← vmObjectRetain s.st o
      return ⟨st, o :: s.held⟩
  | .vmObjectRelease o =>
      if o ∈ s.held then do
        let st ← vmObjectRelease s.st o
        return ⟨st, s.held.erase o⟩
      else none
  | .vmObjectCopy o newobj => do
      let st ← vmObjectCopy s.st o newobj
      return ⟨st, newobj :: s.held⟩
  | .vmMapObject m o vaddr size offset newobj =>
      if vaddr < 2 ^ 64 ∧ size < 2 ^ 64 ∧ offset < 2 ^ 64 ∧ offset % pgSize = 0 then do
        let (_, st) ← vmMapObject s.st m o vaddr size offset newobj
        return ⟨st, s.held⟩
      else none
  | .vmAllocate m o vaddr size =>
      if vaddr < 2 ^ 64 ∧ size < 2 ^ 64 then do
        let (_, st) ← vmAllocate s.st m o vaddr size
        return ⟨st, s.held⟩
      else none
  | .vmDeallocate m start size =>
      if start < 2 ^ 64 ∧ size < 2 ^ 64 then do
        let st ← vmDeallocate s.st m start size
        return ⟨st, s.held⟩
      else none
  | .vmMapFork m newmap newobjs pool =>
      if pool.Nodup then do
        let st ← vmMapFork s.st m newmap newobjs pool
        return ⟨st, s.held⟩
      else none

/-- The kernel's map, as `vm_kernel_init` sets it up, and nothing else but free pages. -/
structure Boot (s : Sys) : Prop where
  held_eq : s.held = []
  objs_eq : ∀ o, s.st.objs.get? o = none
  anons_eq : ∀ a, s.st.anons.get? a = none
  pmap_eq : ∀ m q, s.st.pmap m q = none
  pv_eq : ∀ p, s.st.pv p = []
  freeq_nodup : s.st.freeq.Nodup
  maps_eq : ∀ m, s.st.maps.get? m ≠ none → m = kmap
  kmap_eq : ∃ seg pool vmem, pool.Nodup ∧
    Vmem.vmemInit none seg pool () kheapBase kheapSize = some vmem ∧
    s.st.maps.get? kmap = some ⟨[], vmem⟩

/-- The arena of the kernel's map after boot. -/
def bootVmem : Vmem.Arena Unit :=
  (Vmem.vmemInit none (fun _ => ⟨.kVMemSegFree, 0, 0⟩) [0, 1] () kheapBase kheapSize).get (by decide)

/-- A machine with eight free pages after boot. -/
def bootSys : Sys where
  st :=
    { maps := ⟨[kmap], fun _ => ⟨[], bootVmem⟩, List.nodup_singleton kmap⟩
      objs := Heap.empty
      anons := Heap.empty
      pmap := fun _ _ => none
      pv := fun _ => []
      pageAnon := fun _ => none
      bytes := fun _ _ => 0
      freeq := List.range 8 }
  held := []

/-- The example is a state at boot. -/
theorem boot_bootSys : Boot bootSys where
  held_eq := rfl
  objs_eq _ := rfl
  anons_eq _ := rfl
  pmap_eq _ _ := rfl
  pv_eq _ := rfl
  freeq_nodup := List.nodup_range
  maps_eq m hm := by
    by_contra hne
    exact hm (if_neg fun hmem => hne (List.mem_singleton.mp hmem))
  kmap_eq := ⟨_, _, bootVmem, by decide, (Option.some_get _).symm, rfl⟩

/-! ## What an address of a map shows -/

/-- The object, and the page of it, that an entry of the map has at an address. -/
def objPageIn (maps : Heap Map) (m : MapId) (v : ℕ) : Option (ObjId × ℕ) := do
  let map ← maps.get? m
  let e ← mapEntryForAddr map.entries v
  return (e.obj, add64 (sub64 (pgRoundDown v) e.start) e.offset / pgSize)

/-- The object, and the page of it, that an address of a map is backed by. -/
def objPage (s : State) (m : MapId) (v : ℕ) : Option (ObjId × ℕ) := objPageIn s.maps m v

/-- The anon in a slot of an object. -/
def slotIn (objs : Heap Object) (o : ObjId) (page : ℕ) : Option AnonId := do
  let obj ← objs.get? o
  (obj.slots[page]?).join

/-- The physical page of the anon in the slot that an entry of the map has at an address. -/
def slotPage (s : State) (m : MapId) (v : ℕ) : Option Page := do
  let x ← objPage s m v
  let a ← slotIn s.objs x.1 x.2
  let anon ← s.anons.get? a
  return anon.physpage

/-- The byte of a page of an object; a page without an anon is zero. -/
def content (s : State) (o : ObjId) (page off : ℕ) : UInt8 :=
  ((slotIn s.objs o page).bind s.anons.get?).elim 0 fun anon => s.bytes anon.physpage off

end Scalux.Vm
