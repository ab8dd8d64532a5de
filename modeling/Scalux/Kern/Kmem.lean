import Scalux.Lib.Run
import Scalux.Lib.Words
import Scalux.Kern.Config

/-! # The slab allocator

`kern/kmem_slab.c`.  A zone holds objects of one size in slabs.  A **small** slab is a page with the
objects at its bottom and the header at its top, and its free objects are linked through their own first
words.  A **large** slab has its header and a `kmem_bufctl` for each object out of line, allocated from
the zones `kmem_slab` and `kmem_bufctl`; the link of a bufctl serves the free list of its slab, and the
list of the zone's bufctls in use while its object is allocated.

* The memory is a map from the address of a word of eight bytes to its value; sizes are multiples of
  eight, so that every access is aligned.  The fields of headers and bufctls and the links of all free
  lists are words of it.  The queue of a zone's slabs is a list, of which the heads are outside of the
  memory.
* `vm_kalloc` returns any run of pages that is not in use; the environment names its address.
* `none` stands for the dereference of a null pointer or of a pointer that is not initialised, and for
  a call of `vm_kalloc` that does not return.
* The mutexes are left out: every function here runs as one step. -/

namespace Scalux.Kmem

/-- The address of a `kmem_zone`. -/
abbrev ZoneId := ℕ

/-- `&kmem_slab`. -/
def kmemSlab : ZoneId := 0

/-- `&kmem_bufctl`. -/
def kmemBufctl : ZoneId := 1

/-- `kSmallSlabMax`. -/
def kSmallSlabMax : ℕ := 256

/-- `sizeof(struct kmem_slab)`. -/
def sizeofSlab : ℕ := 32

/-- `sizeof(struct kmem_bufctl)`. -/
def sizeofBufctl : ℕ := 24

/-! ## Fields -/

/-- `slab->zone`. -/
def slabZone (slab : ℕ) : ℕ := slab + 8

/-- `slab->nfree`, with the padding after it. -/
def nfree (slab : ℕ) : ℕ := slab + 16

/-- `slab->firstfree`. -/
def firstfree (slab : ℕ) : ℕ := slab + 24

/-- `slab->data[0]`. -/
def slabData (slab : ℕ) : ℕ := slab + 32

/-- `entry->entrylist.sle_next`. -/
def sleNext (entry : ℕ) : ℕ := entry

/-- `entry->slab`. -/
def ctlSlab (entry : ℕ) : ℕ := entry + 8

/-- `entry->base`. -/
def ctlBase (entry : ℕ) : ℕ := entry + 16

/-- `struct kmem_zone`. -/
structure Zone where
  size : ℕ
  /-- The headers of the slabs, first to last. -/
  slablist : List ℕ
  /-- `bufctllist.slh_first`. -/
  bufctllist : ℕ
  deriving DecidableEq, Repr

/-- The state of the allocator. -/
structure Allocator where
  zones : ZoneId → Option Zone
  mem : ℕ → ℕ
  /-- The objects that are allocated, with their zones. -/
  live : List (ZoneId × ℕ)
  /-- The runs of pages that `vm_kalloc` has returned. -/
  runs : List (ℕ × ℕ)
  /-- The addresses that `vm_kalloc` returns next. -/
  next : List ℕ

/-- Assigning a word. -/
def store (k : Allocator) (a v : ℕ) : Allocator := { k with mem := Function.update k.mem a v }

/-- Assigning a zone. -/
def setZone (k : Allocator) (z : ZoneId) (zone : Zone) : Allocator :=
  { k with zones := Function.update k.zones z (some zone) }

/-- `vm_kalloc`. -/
def vmKalloc (npages : ℕ) (k : Allocator) : Option (ℕ × Allocator) :=
  match k.next with
  | [] => none
  | base :: next =>
      let run := (base, npages * pgSize)
      if base ≠ 0 ∧ pgSize ∣ base ∧ 0 < npages ∧ base + npages * pgSize ≤ 2 ^ 64 ∧
          ∀ r ∈ k.runs, Apart run r then
        some (base, { k with runs := run :: k.runs, next := next })
      else none

/-! ## Slabs -/

/-- `PGROUNDDOWN`. -/
def pgRoundDown (x : ℕ) : ℕ := x / pgSize * pgSize

/-- `slabsize`. -/
def slabsize (size : ℕ) : ℕ :=
  if size ≤ kSmallSlabMax then pgSize else pgRoundUp (size * 16 % 2 ^ 64)

/-- `slabcapacity`; a zone of objects of no size has none, where the source divides by zero. -/
def slabcapacity (size : ℕ) : ℕ :=
  if size ≤ kSmallSlabMax then (slabsize size - sizeofSlab) / size % 2 ^ 32
  else slabsize size / size % 2 ^ 32

/-- `SMALL_SLAB_HDR`. -/
def smallSlabHdr (base : ℕ) : ℕ := base + pgSize - sizeofSlab

/-- `SIMPLEQ_INSERT_HEAD(&zone->slablist, slab, slablist)`. -/
def insertSlab (z : ZoneId) (zone : Zone) (slab : ℕ) (k : Allocator) : Allocator :=
  setZone k z { zone with slablist := slab :: zone.slablist }

/-- The free list of a new small slab: each object is linked to the one after it. -/
def linkObjects (base size cap : ℕ) (mem : ℕ → ℕ) : ℕ → ℕ :=
  (List.range cap).foldl (fun mem i => Function.update mem (base + i * size) (base + (i + 1) * size))
    mem

/-- `small_slab_new`. -/
def smallSlabNew (z : ZoneId) (k : Allocator) : Option (ℕ × Allocator) := do
  let (base, k) ← vmKalloc 1 k
  let zone ← k.zones z
  let slab := smallSlabHdr base
  let cap := slabcapacity zone.size
  let k := insertSlab z zone slab k
  let k := store k (slabZone slab) z
  let k := store k (nfree slab) cap
  let k := { k with mem := linkObjects base zone.size cap k.mem }
  if cap = 0 then none
  else
    let k := store k (sleNext (base + (cap - 1) * zone.size)) 0
    return (slab, store k (firstfree slab) base)

/-- The body of the loop of `large_slab_new`, with `kmem_zonealloc`. -/
def newBufctl (zonealloc : ZoneId → Allocator → Option (ℕ × Allocator)) (slab data size : ℕ)
    (x : Option ℕ × Allocator) (i : ℕ) : Option (Option ℕ × Allocator) := do
  let (entry, k) ← zonealloc kmemBufctl x.2
  let k := store k (ctlSlab entry) slab
  let k := store k (ctlBase entry) (data + size * i)
  match x.1 with
  | some prev => return (some entry, store k (sleNext prev) entry)
  | none => return (some entry, store k (firstfree slab) entry)

/-- `large_slab_new`, with `kmem_zonealloc`. -/
def largeSlabNew (zonealloc : ZoneId → Allocator → Option (ℕ × Allocator)) (z : ZoneId) (k : Allocator) :
    Option (ℕ × Allocator) := do
  let (slab, k) ← zonealloc kmemSlab k
  let zone ← k.zones z
  let cap := slabcapacity zone.size
  let k := insertSlab z zone slab k
  let k := store k (slabZone slab) z
  let k := store k (nfree slab) cap
  -- the slab is in the zone before its objects are there
  let (data, k) ← vmKalloc (slabsize zone.size / pgSize) k
  let k := store k (slabData slab) data
  let (entry, k) ← (List.range cap).foldlM (newBufctl zonealloc slab data zone.size) (none, k)
  let entry ← entry
  return (slab, store k (sleNext entry) 0)

/-! ## Allocation -/

/-- `SIMPLEQ_REMOVE` and `SIMPLEQ_INSERT_TAIL` of a slab that has no free object left. -/
def requeue (zone : Zone) (slab next : ℕ) : Zone :=
  if next = 0 then { zone with slablist := zone.slablist.erase slab ++ [slab] } else zone

/-- `kmem_zonealloc` from the first slab of a zone. -/
def takeFirst (z : ZoneId) (slab : ℕ) (k : Allocator) : Option (ℕ × Allocator) := do
  let zone ← k.zones z
  let k := store k (nfree slab) ((k.mem (nfree slab) + (2 ^ 32 - 1)) % 2 ^ 32)
  let entry := k.mem (firstfree slab)
  -- a slab without an entry: the code would go on through NULL
  if entry = 0 then none
  else
    let next := k.mem (sleNext entry)
    let zone := requeue zone slab next
    let k := store k (firstfree slab) next
    if zone.size ≤ kSmallSlabMax then
      let k := setZone k z zone
      return (entry, { k with live := (z, entry) :: k.live })
    else
      -- the bufctl goes from the free list of the slab to those in use of the zone
      let k := store k (sleNext entry) zone.bufctllist
      let k := setZone k z { zone with bufctllist := entry }
      let ret := k.mem (ctlBase entry)
      return (ret, { k with live := (z, ret) :: k.live })

/-- The slab that `kmem_zonealloc` takes an object from. -/
def slabFor (new : Allocator → Option (ℕ × Allocator)) (zone : Zone) (k : Allocator) : Option (ℕ × Allocator) :=
  match zone.slablist with
  | [] => new k
  | slab :: _ => if k.mem (nfree slab) = 0 then new k else some (slab, k)

/-- `kmem_zonealloc`.  It calls itself through `large_slab_new`; the first argument bounds the depth. -/
def kmemZonealloc : ℕ → ZoneId → Allocator → Option (ℕ × Allocator)
  | 0, _, _ => none
  | depth + 1, z, k => do
      let zone ← k.zones z
      let new := if zone.size ≤ kSmallSlabMax then smallSlabNew z
        else largeSlabNew (kmemZonealloc depth) z
      let (slab, k) ← slabFor new zone k
      takeFirst z slab k

/-! ## Release -/

/-- `SLIST_FOREACH` up to an element that meets a test; a walk of more steps than there are addresses
does not end. -/
def slistFind (mem : ℕ → ℕ) (test : ℕ → Bool) : ℕ → ℕ → Option ℕ
  | 0, _ => none
  | n + 1, p => if p = 0 then none else if test p then some p else slistFind mem test n (mem p)

/-- `SLIST_REMOVE`: the new first element and the memory. -/
def slistRemove (mem : ℕ → ℕ) (first elm : ℕ) : Option (ℕ × (ℕ → ℕ)) :=
  if first = elm then some (mem elm, mem)
  else do
    let prev ← slistFind mem (fun p => mem p = elm) (2 ^ 64) first
    return (first, Function.update mem prev (mem (mem prev)))

/-- The end of `kmem_zonefree`: an entry becomes the first one of the free list of its slab. -/
def putFirst (slab newfree : ℕ) (k : Allocator) : Allocator :=
  let k := store k (nfree slab) ((k.mem (nfree slab) + 1) % 2 ^ 32)
  let k := store k (sleNext newfree) (k.mem (firstfree slab))
  store k (firstfree slab) newfree

/-- `kmem_zonefree`; `newfree` is not initialised if no bufctl of the zone is that of the object. -/
def kmemZonefree (z : ZoneId) (ptr : ℕ) (k : Allocator) : Option Allocator := do
  let zone ← k.zones z
  if zone.size ≤ kSmallSlabMax then
    -- the header of a small slab lies at the end of the page of the object
    let k := putFirst (smallSlabHdr (pgRoundDown ptr)) ptr k
    return { k with live := k.live.erase (z, ptr) }
  else
    let newfree ← slistFind k.mem (fun p => k.mem (ctlBase p) = ptr) (2 ^ 64) zone.bufctllist
    let (first, mem) ← slistRemove k.mem zone.bufctllist newfree
    let k := setZone { k with mem := mem } z { zone with bufctllist := first }
    let k := putFirst (k.mem (ctlSlab newfree)) newfree k
    return { k with live := k.live.erase (z, ptr) }

/-! ## Zones -/

/-- `kmem_zone_init` of a zone that is not one yet. -/
def kmemZoneInit (z : ZoneId) (size : ℕ) (k : Allocator) : Option Allocator :=
  if k.zones z = none then some (setZone k z ⟨size, [], 0⟩) else none

/-- The sizes of the zones of `kmem_alloc`. -/
def zoneSizes : List ℕ :=
  [8, 16, 24, 32, 40, 48, 56, 64, 80, 96, 112, 128, 160, 192, 224, 256, 320, 384, 448, 512, 640, 768,
    896, 1024, 1280, 1536, 1792, 2048, 2560, 3072, 3584, 4096]

/-- `kmem_init`, on a memory with any contents. -/
def kmemInit (mem : ℕ → ℕ) : Option Allocator := do
  let k : Allocator := ⟨fun _ => none, mem, [], [], []⟩
  let k ← kmemZoneInit kmemSlab (sizeofSlab + 8) k
  let k ← kmemZoneInit kmemBufctl sizeofBufctl k
  zoneSizes.zipIdx.foldlM (fun k x => kmemZoneInit (x.2 + 2) x.1 k) k

end Scalux.Kmem
