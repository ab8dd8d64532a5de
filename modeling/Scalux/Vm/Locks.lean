import Scalux.Lib.Run
import Scalux.Vm.Calls

/-! # The locks of the virtual memory manager

`vm_fault`, `vm_object_copy` for its callers `vm_map_object` and `vm_map_fork`, and `vm_deallocate`,
run by any number of threads on one memory.  A step of a thread is one `mutex_lock` or `mutex_unlock`
on the mutex of a map, an object, an anon or a page, with the code up to the next one.

* A mutex is its owner.  A thread locks it if it has none, in any order of the threads that wait, and
  `mutex_init` gives it none.  (`map->lock` is never initialised; it is taken to start without an
  owner.)  The mutexes of the allocators are left out: while one of them is held, none of these is
  locked.
* The calls of `Scalux.Vm.Calls` that lock nothing are steps too.
* A list that the code walks through without a lock is read again at each step; to come back to an
  element that is no longer in it is to dereference an invalid pointer. -/

namespace Scalux.VmLocks

open Vm

/-- A mutex. -/
inductive Lock
  | map (m : MapId)
  | obj (o : ObjId)
  | anon (a : AnonId)
  | page (p : Page)
  deriving DecidableEq, Repr

/-! ## Where a thread is -/

/-- What `vm_object_copy` returns to. -/
inductive Caller
  /-- `vm_map_object` with `copy` set. -/
  | vmMapObject (m : MapId) (vaddr size offset : ℕ)
  /-- `vm_map_fork` at an entry of `m`. -/
  | vmMapFork (m newmap : MapId) (ent : Entry)
  deriving DecidableEq, Repr

/-- A call of `vm_object_copy`. -/
structure Copy where
  caller : Caller
  obj : ObjId
  newobj : ObjId
  deriving DecidableEq, Repr

/-- The page of an object that `fault_aobj` is called for. -/
structure Fault where
  map : MapId
  obj : ObjId
  vaddr : ℕ
  page : ℕ
  flags : FaultFlags
  deriving DecidableEq, Repr

/-- Where a thread is: the operation on a mutex that it performs next. -/
inductive Pc
  /-- In none of these calls. -/
  | out
  /-- `vm_fault`: `mutex_lock(&map->lock)`. -/
  | faultMap (m : MapId) (v : ℕ) (flags : FaultFlags)
  /-- `vm_fault`: `mutex_lock(&ent->obj->lock)`. -/
  | faultObj (m : MapId) (v : ℕ) (flags : FaultFlags) (ent : Entry)
  /-- `fault_aobj`: `mutex_lock(&anon->lock)`. -/
  | faultAnon (f : Fault) (anon : AnonId)
  /-- `anon_new`: `mutex_lock(&newanon->lock)`, for a copy of `old` or for a zeroed page. -/
  | faultNew (f : Fault) (old : Option AnonId)
  /-- `fault_aobj`: `mutex_unlock(&anon->lock)` of the anon that has been copied. -/
  | faultOld (f : Fault) (old newanon : AnonId)
  /-- `fault_aobj`: `mutex_unlock(&anon->lock)` before it returns. -/
  | faultUnlockAnon (f : Fault) (anon : AnonId)
  /-- `vm_fault`: `mutex_unlock(&ent->obj->lock)`. -/
  | faultUnlockObj (m : MapId) (o : ObjId)
  /-- `vm_fault`: `mutex_unlock(&map->lock)`. -/
  | faultUnlockMap (m : MapId)
  /-- `vm_deallocate`: `mutex_lock(&map->lock)`. -/
  | deallocMap (m : MapId) (start size : ℕ)
  /-- `vm_deallocate`: `mutex_unlock(&map->lock)`. -/
  | deallocUnlock (m : MapId)
  /-- `vm_object_copy`: `mutex_lock(&obj->lock)`. -/
  | copyObj (c : Copy)
  /-- `amap_copy` at the slot `i`: `mutex_lock(&oldanon->lock)`. -/
  | copyAnon (c : Copy) (i : ℕ) (oldanon : AnonId)
  /-- `pmap_reenter_all_readonly`: `mutex_lock(&page->lock)`. -/
  | copyPage (c : Copy) (i : ℕ) (oldanon : AnonId) (page : Page)
  /-- `pmap_reenter_all_readonly`: `mutex_lock(&pv->map->lock)`; `tmp` is the next entry. -/
  | copyMap (c : Copy) (i : ℕ) (oldanon : AnonId) (page : Page) (pv : MapId × ℕ)
      (tmp : Option (MapId × ℕ))
  /-- `pmap_reenter_all_readonly`: `mutex_unlock(&pv->map->lock)`. -/
  | copyUnlockMap (c : Copy) (i : ℕ) (oldanon : AnonId) (page : Page) (m : MapId)
      (tmp : Option (MapId × ℕ))
  /-- `pmap_reenter_all_readonly`: `mutex_unlock(&page->lock)`. -/
  | copyUnlockPage (c : Copy) (i : ℕ) (oldanon : AnonId) (page : Page)
  /-- `amap_copy`: `mutex_unlock(&oldanon->lock)`. -/
  | copyUnlockAnon (c : Copy) (i : ℕ) (oldanon : AnonId)
  /-- `vm_object_copy`: `mutex_unlock(&obj->lock)`. -/
  | copyUnlockObj (c : Copy)
  deriving DecidableEq, Repr

/-- What the allocators return in a step. -/
structure Fresh where
  obj : ObjId
  anon : AnonId
  page : Page
  deriving DecidableEq, Repr

/-- An operation on a mutex. -/
inductive Op
  | mutexLock (l : Lock)
  /-- `mutex_init` and `mutex_lock`. -/
  | initLock (l : Lock)
  | mutexUnlock (l : Lock)
  deriving DecidableEq, Repr

/-- The operation that a thread performs next. -/
def Pc.op (new : Fresh) : Pc → Option Op
  | .out => none
  | .faultMap m .. | .deallocMap m .. => some (.mutexLock (.map m))
  | .faultObj _ _ _ ent => some (.mutexLock (.obj ent.obj))
  | .faultAnon _ anon => some (.mutexLock (.anon anon))
  | .faultNew .. => some (.initLock (.anon new.anon))
  | .faultOld _ old _ => some (.mutexUnlock (.anon old))
  | .faultUnlockAnon _ anon => some (.mutexUnlock (.anon anon))
  | .faultUnlockObj _ o => some (.mutexUnlock (.obj o))
  | .faultUnlockMap m | .deallocUnlock m => some (.mutexUnlock (.map m))
  | .copyObj c => some (.mutexLock (.obj c.obj))
  | .copyAnon _ _ oldanon => some (.mutexLock (.anon oldanon))
  | .copyPage _ _ _ page => some (.mutexLock (.page page))
  | .copyMap _ _ _ _ pv _ => some (.mutexLock (.map pv.1))
  | .copyUnlockMap _ _ _ _ m _ => some (.mutexUnlock (.map m))
  | .copyUnlockPage _ _ _ page => some (.mutexUnlock (.page page))
  | .copyUnlockAnon _ _ oldanon => some (.mutexUnlock (.anon oldanon))
  | .copyUnlockObj c => some (.mutexUnlock (.obj c.obj))

/-- The mutex that a thread stands before; the mutex of a new anon has no owner. -/
def Pc.wants : Pc → Option Lock
  | .faultMap m .. | .deallocMap m .. => some (.map m)
  | .faultObj _ _ _ ent => some (.obj ent.obj)
  | .faultAnon _ anon => some (.anon anon)
  | .copyObj c => some (.obj c.obj)
  | .copyAnon _ _ oldanon => some (.anon oldanon)
  | .copyPage _ _ _ page => some (.page page)
  | .copyMap _ _ _ _ pv _ => some (.map pv.1)
  | _ => none

/-! ## The code between two operations -/

/-- The element of a list after another one; to have no such element in the list is an error. -/
def nextOf {α : Type*} [DecidableEq α] (l : List α) (x : α) : Option (Option α) :=
  if x ∈ l then some (l.dropWhile (· ≠ x)).tail.head? else none

/-- The first slot from the index `i` on that has an anon. -/
def nextSlot (slots : List (Option AnonId)) (i : ℕ) : Option (ℕ × AnonId) :=
  (slots.zipIdx.drop i).findSome? fun x => x.1.map fun a => (x.2, a)

/-- `vm_fault` after it has locked the map. -/
def afterFaultMap (s : State) (m : MapId) (v : ℕ) (flags : FaultFlags) : Option (State × Pc) := do
  let map ← s.maps.get? m
  match mapEntryForAddr map.entries v with
  | none => return (s, .faultUnlockMap m)
  | some ent => return (s, .faultObj m (pgRoundDown v) flags ent)

/-- `vm_fault` after it has locked the object, with `fault_aobj` up to the lock of an anon. -/
def afterFaultObj (s : State) (m : MapId) (v : ℕ) (flags : FaultFlags) (ent : Entry) :
    Option (State × Pc) := do
  let obj ← s.objs.get? ent.obj
  if obj.type = .kVMObjAnon then
    let page := add64 (sub64 v ent.start) ent.offset / pgSize
    let slots ← amapAnonAt obj.slots page
    let s := setObj s ent.obj { obj with slots := slots }
    let f : Fault := ⟨m, ent.obj, v, page, flags⟩
    match (slots[page]?).join with
    -- an anon in the slot is locked next; without one and without a parent a new one is made
    | some anon => return (s, .faultAnon f anon)
    | none =>
        if obj.parent.isSome then return (s, .faultUnlockObj m ent.obj)
        else return (s, .faultNew f none)
  else return (s, .faultUnlockObj m ent.obj)

/-- `fault_aobj` after it has locked the anon of the slot. -/
def afterFaultAnon (s : State) (f : Fault) (a : AnonId) : Option (State × Pc) := do
  let anon ← s.anons.get? a
  if anon.resident then
    if 1 < anon.refcnt then
      -- the count is decremented before the copy is made
      if f.flags.write then
        return (setAnon s a { anon with refcnt := decr 24 anon.refcnt }, .faultNew f (some a))
      else if f.flags.present then none
      else return (pmapEnter s f.map anon.physpage f.vaddr false, .faultUnlockAnon f a)
    else
      let s ← faultSole s f.map f.vaddr f.flags anon
      return (s, .faultUnlockAnon f a)
  else if f.flags.present then none
  else return (s, .faultUnlockAnon f a)

/-- `fault_aobj`: an existing mapping of a page that has been copied is removed. -/
def unenterPresent (s : State) (f : Fault) (p : Page) : Option State :=
  if f.flags.present then pmapUnenter s f.map (some p) f.vaddr else some s

/-- `anon_new` after it has locked the new anon, then the rest of `fault_aobj` up to an unlock. -/
def afterFaultNew (s : State) (f : Fault) (old : Option AnonId) (new : Fresh) :
    Option (State × Pc) := do
  let obj ← s.objs.get? f.obj
  match old with
  | none =>
      let s ← anonNew s new.anon new.page
      return (pmapEnter (setSlot s f.obj obj f.page new.anon) f.map new.page f.vaddr true,
        .faultUnlockAnon f new.anon)
  -- the copy of a shared anon goes into the slot, and the mapping of the old page is removed
  | some old =>
      let anon ← s.anons.get? old
      let s ← anonCopy s anon new.anon new.page
      let s := setSlot s f.obj obj f.page new.anon
      let s ← unenterPresent s f anon.physpage
      return (s, .faultOld f old new.anon)

/-- `fault_aobj` after it has unlocked the anon that it has copied. -/
def afterFaultOld (s : State) (f : Fault) (a : AnonId) : Option (State × Pc) := do
  let anon ← s.anons.get? a
  return (pmapEnter s f.map anon.physpage f.vaddr true, .faultUnlockAnon f a)

/-- `vm_object_copy` up to the lock of the object: the new object is not initialised yet. -/
def beginCopy (s : State) (caller : Caller) (o newobj : ObjId) : Option (State × Pc) := do
  let objs ← s.objs.alloc newobj default
  return ({ s with objs := objs }, .copyObj ⟨caller, o, newobj⟩)

/-- `amap_copy` from the slot `i` on, up to the lock of an anon or the end of `vm_object_copy`. -/
def copyFrom (s : State) (c : Copy) (i : ℕ) : Option (State × Pc) := do
  let obj ← s.objs.get? c.obj
  match nextSlot obj.slots i with
  | some (j, a) => return (s, .copyAnon c j a)
  | none => return (setObj s c.newobj { obj with refcnt := 1 }, .copyUnlockObj c)

/-- `vm_object_copy` after it has locked the object. -/
def afterCopyObj (s : State) (c : Copy) : Option (State × Pc) := do
  let obj ← s.objs.get? c.obj
  if obj.type = .kVMObjAnon ∧ obj.slots ≠ [] then copyFrom s c 0 else none

/-- `amap_copy` after it has locked an anon. -/
def afterCopyAnon (s : State) (c : Copy) (i : ℕ) (a : AnonId) : Option (State × Pc) := do
  let anon ← s.anons.get? a
  return (setAnon s a { anon with refcnt := incr 24 anon.refcnt }, .copyPage c i a anon.physpage)

/-- `pmap_reenter_all_readonly` at an entry of the `pv_table`, or at its end. -/
def copyPv (s : State) (c : Copy) (i : ℕ) (a : AnonId) (p : Page) :
    Option (MapId × ℕ) → Option (State × Pc)
  | none => some (s, .copyUnlockPage c i a p)
  | some pv => do
      let tmp ← nextOf (s.pv p) pv
      return (s, .copyMap c i a p pv tmp)

/-- `pmap_reenter_all_readonly` after it has locked the map of an entry. -/
def afterCopyMap (s : State) (c : Copy) (i : ℕ) (a : AnonId) (p : Page) (pv : MapId × ℕ)
    (tmp : Option (MapId × ℕ)) : Option (State × Pc) :=
  if pv ∈ s.pv p then some (pmapReenter s pv.1 p pv.2 false, .copyUnlockMap c i a p pv.1 tmp)
  else none

/-- `vm_map_fork` at an entry, or at the end of the entries. -/
def forkFrom (s : State) (m newmap : MapId) (newobj : ObjId) : Option Entry → Option (State × Pc)
  | none => some (s, .out)
  | some ent => do
      let obj ← s.objs.get? ent.obj
      if obj.type = .kVMObjAnon then beginCopy s (.vmMapFork m newmap ent) ent.obj newobj else none

/-- The callers of `vm_object_copy` after it has returned. -/
def afterCopy (s : State) (c : Copy) (new : Fresh) : Option (State × Pc) :=
  match c.caller with
  | .vmMapObject m vaddr size offset => do
      let (_, s) ← mapInsert s m c.newobj vaddr size offset
      return (s, .out)
  | .vmMapFork m newmap ent => do
      let (r, s) ← Vm.vmMapObject s newmap c.newobj ent.start (sub64 ent.stop ent.start)
        ent.offset none
      match r with
      -- a failure of `vm_map_object` is asserted not to occur
      | .error _ => none
      | .ok _ =>
          let s ← vmObjectRelease s c.newobj
          let map ← s.maps.get? m
          let next ← nextOf map.entries ent
          forkFrom s m newmap new.obj next

/-- What a thread does after its operation on a mutex, up to the next one. -/
def after (new : Fresh) (s : State) : Pc → Option (State × Pc)
  | .out => none
  | .faultMap m v flags => afterFaultMap s m v flags
  | .faultObj m v flags ent => afterFaultObj s m v flags ent
  | .faultAnon f anon => afterFaultAnon s f anon
  | .faultNew f old => afterFaultNew s f old new
  | .faultOld f _ newanon => afterFaultOld s f newanon
  | .faultUnlockAnon f _ => some (s, .faultUnlockObj f.map f.obj)
  | .faultUnlockObj m _ => some (s, .faultUnlockMap m)
  | .faultUnlockMap _ => some (s, .out)
  | .deallocMap m start size => do
      let s ← Vm.vmDeallocate s m start size
      return (s, .deallocUnlock m)
  | .deallocUnlock _ => some (s, .out)
  | .copyObj c => afterCopyObj s c
  | .copyAnon c i a => afterCopyAnon s c i a
  | .copyPage c i a p => copyPv s c i a p (s.pv p).head?
  | .copyMap c i a p pv tmp => afterCopyMap s c i a p pv tmp
  | .copyUnlockMap c i a p _ tmp => copyPv s c i a p tmp
  | .copyUnlockPage c i a _ => some (s, .copyUnlockAnon c i a)
  | .copyUnlockAnon c i _ => copyFrom s c (i + 1)
  | .copyUnlockObj c => afterCopy s c new

/-! ## Steps -/

/-- The memory, the owners of the mutexes and where each thread is. -/
structure LockState (T : Type) where
  sys : Sys
  owner : Lock → Option T
  pc : T → Pc

variable {T : Type} [DecidableEq T]

/-- One operation on a mutex; `mutex_unlock` asserts that the thread is its owner. -/
def perform (owner : Lock → Option T) (t : T) : Op → Option (Lock → Option T)
  | .mutexLock l => if owner l = none then some (Function.update owner l (some t)) else none
  | .initLock l => some (Function.update owner l (some t))
  | .mutexUnlock l => if owner l = some t then some (Function.update owner l none) else none

/-- `mutex_init` of the object that `vm_object_copy` makes. -/
def initObj (owner : Lock → Option T) : Pc → Lock → Option T
  | .copyObj c => Function.update owner (.obj c.newobj) none
  | _ => owner

/-- A thread that is in none of the calls makes one. -/
def enter (s : LockState T) (t : T) (x : Option (State × Pc)) : Option (LockState T) :=
  if s.pc t = .out then
    x.map fun x => ⟨{ s.sys with st := x.1 }, s.owner, Function.update s.pc t x.2⟩
  else none

/-- A call of `Scalux.Vm.Calls` that locks nothing, with the object whose mutex it initialises. -/
def lockFree : Call → Option (Option ObjId)
  | .vmAobjNew o _ | .vmAllocate _ o _ _ => some (some o)
  | .segRefill .. | .kheapAlloc _ | .kheapFree _ | .vmMapNew .. | .vmObjectRetain _
    | .vmObjectRelease _ | .vmMapObject _ _ _ _ _ none => some none
  | .vmObjectCopy .. | .vmMapObject _ _ _ _ _ (some _) | .vmDeallocate .. | .vmMapFork .. => none

/-- The actions: a thread makes a call, a thread runs up to its next operation on a mutex, or there is
a call that locks nothing. -/
inductive Action (T : Type)
  | vmFault (t : T) (m : MapId) (v : ℕ) (flags : FaultFlags)
  | vmDeallocate (t : T) (m : MapId) (start size : ℕ)
  /-- `vm_map_object` with `copy` set. -/
  | vmMapObject (t : T) (m : MapId) (o : ObjId) (vaddr size offset : ℕ) (newobj : ObjId)
  | vmMapFork (t : T) (m newmap : MapId) (pool : List Vmem.Tag) (newobj : ObjId)
  | run (t : T) (new : Fresh)
  | call (c : Call)
  deriving DecidableEq, Repr

/-- `vm_map_fork` up to the copy of the first object. -/
def beginFork (s : State) (m newmap : MapId) (pool : List Vmem.Tag) (newobj : ObjId) :
    Option (State × Pc) := do
  let s ← vmMapNew s newmap pool
  if m = kmap then return (s, .out)
  else
    let map ← s.maps.get? m
    forkFrom s m newmap newobj map.entries.head?

/-- One step. -/
def step (s : LockState T) : Action T → Option (LockState T)
  | .vmFault t m v flags => enter s t (some (s.sys.st, .faultMap (mapFor m v) v flags))
  | .vmDeallocate t m start size => enter s t (some (s.sys.st, .deallocMap m start size))
  | .vmMapObject t m o vaddr size offset newobj =>
      if size % pgSize = 0 then
        enter s t (beginCopy s.sys.st (.vmMapObject m vaddr size offset) o newobj)
      else none
  | .vmMapFork t m newmap pool newobj => enter s t (beginFork s.sys.st m newmap pool newobj)
  | .run t new => do
      let op ← (s.pc t).op new
      let owner ← perform s.owner t op
      let (st, pc) ← after new s.sys.st (s.pc t)
      return ⟨{ s.sys with st := st }, initObj owner (s.pc t), Function.update s.pc t pc⟩
  | .call c => do
      let init ← lockFree c
      let sys ← call s.sys c
      return ⟨sys, init.elim s.owner fun o => Function.update s.owner (.obj o) none, s.pc⟩

/-- The threads as a machine. -/
def machine : Machine (LockState T) (Action T) := ⟨step⟩

/-- No thread is in a call, and no mutex has an owner. -/
structure Initial (s : LockState T) : Prop where
  owner_eq : ∀ l, s.owner l = none
  pc_eq : ∀ t, s.pc t = .out

/-- A cycle of threads each of which waits for a mutex that the next one has. -/
def Deadlocked (s : LockState T) : Prop := Deadlock s.owner fun t => (s.pc t).wants

end Scalux.VmLocks
