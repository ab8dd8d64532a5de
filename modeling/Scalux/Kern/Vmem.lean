import Scalux.Lib.Run
import Scalux.Lib.Queue
import Scalux.Lib.Uint64
import Mathlib.Algebra.Group.Nat.Defs
import Mathlib.Data.Int.Basic

/-! # The VMem resource allocator

`kern/vmem.c`.  An arena's segments are **tags** linked into a tail queue (`segqueue`) and, through a
second link, into one more list each: a free list by size class, a hash bucket by address, or the
span list.  Unused tags are on the list `free_segs`, which all arenas share.

* Addresses and sizes are 64-bit; sums and differences wrap.
* An arena may have a `Source` of spans, a parameter: the functions `allocfn` and `freefn` with the
  state of whatever they act on.
* `none` stands for a failed assertion, a `fatal` or a NULL dereference; an error code that the code
  returns is `Except.error`. -/

namespace Scalux.Vmem

/-- A segment tag: the address of a `vmem_seg_t`. -/
abbrev Tag := ℕ

/-- The type of a segment. -/
inductive SegType
  | kVMemSegFree
  | kVMemSegAllocated
  | kVMemSegSpan
  | kVMemSegSpanImported
  deriving DecidableEq, Repr

/-- The contents of a `vmem_seg_t`. -/
structure Seg where
  type : SegType
  base : ℕ
  size : ℕ
  deriving DecidableEq, Repr

/-- The flags `vmem_xalloc` reads. -/
structure Flags where
  exact : Bool
  deriving DecidableEq, Repr

/-- `kNFreeLists`. -/
def kNFreeLists : ℕ := 64

/-- `kNHashBuckets`. -/
def kNHashBuckets : ℕ := 16

/-- `ERESOURCEEXHAUSTED`. -/
def eResourceExhausted : ℤ := 1200

/-- `freelist`: the size class of a size, `63 - clz`. -/
def freelist (size : ℕ) : ℕ := Nat.log2 size

/-- `murmur64`. -/
def murmur64 (h : ℕ) : ℕ :=
  let h := h ^^^ (h >>> 33)
  let h := h * 0xff51afd7ed558ccd % 2 ^ 64
  let h := h ^^^ (h >>> 33)
  let h := h * 0xc4ceb9fe1a85ec53 % 2 ^ 64
  h ^^^ (h >>> 33)

/-- `hashbucket_for_addr`. -/
def hashbucket (addr : ℕ) : ℕ := murmur64 addr % kNHashBuckets

/-- The functions an arena imports spans with; both act on a state `E` of their own and on the
shared list of unused tags. -/
structure Source (E : Type) where
  /-- `vmem->allocfn`. -/
  allocfn : E → List Tag → ℕ → Flags → Option (Except ℤ ℕ × E × List Tag)
  /-- `vmem->freefn`. -/
  freefn : E → List Tag → ℕ → ℕ → Option (E × List Tag)

/-- `vmem_t` with the tags, the shared list of unused tags, and the state behind the source. -/
structure Arena (E : Type) where
  /-- The contents of the tags. -/
  seg : Tag → Seg
  /-- `vmem->segqueue`, head first. -/
  segqueue : List Tag
  /-- `vmem->spanlist`, head first. -/
  spanlist : List Tag
  /-- `vmem->freelist`. -/
  freelist : ℕ → List Tag
  /-- `vmem->hashtab`. -/
  hashtab : ℕ → List Tag
  /-- `free_segs`. -/
  freeSegs : List Tag
  /-- What the source acts on. -/
  env : E

variable {E : Type} (src : Option (Source E))

/-- `seg_alloc`; it asserts that a tag is left. -/
def segAlloc (v : Arena E) : Option (Tag × Arena E) :=
  match v.freeSegs with
  | [] => none
  | t :: rest => some (t, { v with freeSegs := rest })

/-- `seg_free`. -/
def segFree (v : Arena E) (t : Tag) : Arena E := { v with freeSegs := t :: v.freeSegs }

/-- Assigning the fields of a tag. -/
def setSeg (v : Arena E) (t : Tag) (s : Seg) : Arena E :=
  { v with seg := Function.update v.seg t s }

/-- `LIST_REMOVE(seg, seglist)`: unlink a tag from the list its second link is on. -/
def listRemove (v : Arena E) (t : Tag) : Arena E :=
  { v with
    spanlist := v.spanlist.filter (· ≠ t)
    freelist := fun i => (v.freelist i).filter (· ≠ t)
    hashtab := fun i => (v.hashtab i).filter (· ≠ t) }

/-- `TAILQ_REMOVE(&vmem->segqueue, seg, segqueue)`. -/
def queueRemove (v : Arena E) (t : Tag) : Arena E := { v with segqueue := v.segqueue.erase t }

/-- `freelist_insert`. -/
def freelistInsert (v : Arena E) (t : Tag) : Arena E :=
  let i := freelist (v.seg t).size
  { v with freelist := Function.update v.freelist i (t :: v.freelist i) }

/-- `hashtab_insert`. -/
def hashtabInsert (v : Arena E) (t : Tag) : Arena E :=
  let i := hashbucket (v.seg t).base
  { v with hashtab := Function.update v.hashtab i (t :: v.hashtab i) }

/-- `vmem_add_internal`'s search: the last span before `base`. -/
def lastSpanBefore (seg : Tag → Seg) (base : ℕ) (acc : Option Tag) : List Tag → Option Tag
  | [] => acc
  | t :: l => if base ≤ (seg t).base then acc else lastSpanBefore seg base (some t) l

/-- `vmem_add_internal`'s insertion of the new span marker into the span list and the queue. -/
def spanInsert (v : Arena E) (newspan : Tag) (afterspan : Option Tag) : Arena E :=
  match afterspan with
  | some a =>
      { v with
        spanlist := Queue.insertAfter a newspan v.spanlist
        segqueue :=
          match Queue.nextOf a v.spanlist with
          | some nextspan => Queue.insertBefore nextspan newspan v.segqueue
          | none => v.segqueue ++ [newspan] }
  | none => { v with spanlist := newspan :: v.spanlist, segqueue := newspan :: v.segqueue }

/-- `vmem_add_internal`; it hands back the tag of the new free segment. -/
def vmemAddInternal (v : Arena E) (spantype : SegType) (base size : ℕ) :
    Option (Tag × Arena E) := do
  let afterspan := lastSpanBefore v.seg base none v.spanlist
  let (newspan, v) ← segAlloc v
  let v := setSeg v newspan ⟨spantype, base, size⟩
  let (newfree, v) ← segAlloc v
  let v := setSeg v newfree ⟨.kVMemSegFree, base, size⟩
  let v := spanInsert v newspan afterspan
  let v := { v with segqueue := Queue.insertAfter newspan newfree v.segqueue }
  return (newfree, freelistInsert v newfree)

/-- `vmem_add`. -/
def vmemAdd (v : Arena E) (base size : ℕ) : Option (Arena E) :=
  (vmemAddInternal v .kVMemSegSpan base size).map Prod.snd

/-- `vmem_init`: an arena without spans, or with one span if it has a size and no source. -/
def vmemInit (seg : Tag → Seg) (freeSegs : List Tag) (env : E) (base size : ℕ) :
    Option (Arena E) :=
  let v : Arena E :=
    { seg := seg, segqueue := [], spanlist := [], freelist := fun _ => [], hashtab := fun _ => [],
      freeSegs := freeSegs, env := env }
  if size ≠ 0 ∧ src.isNone then vmemAdd v base size else some v

/-- The left part of `split_seg`. -/
def splitLeft (v : Arena E) (seg left : Tag) (addr : ℕ) : Arena E :=
  let s := v.seg seg
  if s.base < addr then
    let v := setSeg v left ⟨.kVMemSegFree, s.base, addr - s.base⟩
    let v := { v with segqueue := Queue.insertBefore seg left v.segqueue }
    freelistInsert v left
  else segFree v left

/-- The right part of `split_seg`. -/
def splitRight (v : Arena E) (seg right : Tag) (addr size : ℕ) : Arena E :=
  let s := v.seg seg
  if add64 addr size < add64 s.base s.size then
    let v := setSeg v right
      ⟨.kVMemSegFree, add64 addr size, sub64 (add64 s.base s.size) (add64 addr size)⟩
    let v := { v with segqueue := Queue.insertAfter seg right v.segqueue }
    freelistInsert v right
  else segFree v right

/-- `split_seg`. -/
def splitSeg (v : Arena E) (seg left right : Tag) (addr size : ℕ) : Option (Arena E) :=
  if (v.seg seg).type = .kVMemSegFree then
    let v := listRemove v seg
    let v := splitLeft v seg left addr
    let v := splitRight v seg right addr size
    let v := setSeg v seg ⟨.kVMemSegAllocated, addr, size⟩
    some (hashtabInsert v seg)
  else none

/-- `try_import`. -/
def tryImport (v : Arena E) (size : ℕ) (flags : Flags) : Option (Except ℤ Tag × Arena E) :=
  match src with
  | none => some (.error (-eResourceExhausted), v)
  | some f => do
      let (r, env, freeSegs) ← f.allocfn v.env v.freeSegs size flags
      let v := { v with env := env, freeSegs := freeSegs }
      match r with
      | .error r => return (.error r, v)
      | .ok addr =>
          let (t, v) ← vmemAddInternal v .kVMemSegSpanImported addr size
          return (.ok t, v)

/-- The address a free segment would serve a request at, if `vmem_xalloc` does not pass it over. -/
def fitAddr (s : Seg) (size min : ℕ) (flags : Flags) : Option ℕ :=
  if s.base ≤ min then
    if add64 s.base s.size < add64 min size then none else some min
  else if flags.exact then none
  else if add64 s.base s.size < add64 s.base size then none
  else some s.base

/-- `vmem_xalloc`'s search of one free list. -/
def searchList (seg : Tag → Seg) (size min : ℕ) (flags : Flags) : List Tag → Option (Tag × ℕ)
  | [] => none
  | t :: l =>
      match fitAddr (seg t) size min flags with
      | some addr => some (t, addr)
      | none => searchList seg size min flags l

/-- `vmem_xalloc`'s search of the free lists with the given indices. -/
def search (v : Arena E) (size min : ℕ) (flags : Flags) : List ℕ → Option (Tag × ℕ)
  | [] => none
  | i :: l =>
      match searchList v.seg size min flags (v.freelist i) with
      | some found => some found
      | none => search v size min flags l

/-- The indices `vmem_xalloc` searches: from the size class of the request on. -/
def searchIndices (size : ℕ) : List ℕ :=
  List.range' (freelist size) (kNFreeLists - freelist size)

/-- `vmem_xalloc`, after `seg_refill`; alignment, phase and an upper limit are not supported, and a
lower limit only with `kVMemExact`. -/
def vmemXalloc (v : Arena E) (size align phase min max : ℕ) (flags : Flags) :
    Option (Except ℤ ℕ × Arena E) :=
  if align = 0 ∧ phase = 0 ∧ (min = 0 ∨ flags.exact) ∧ max = 0 ∧ size ≠ 0 then do
    let (newlseg, v) ← segAlloc v
    let (newrseg, v) ← segAlloc v
    match search v size min flags (searchIndices size) with
    -- `split_seg`, from the segment that the search has found
    | some (freeseg, addr) =>
        let v ← splitSeg v freeseg newlseg newrseg addr size
        return (.ok addr, v)
    | none =>
        let (r, v) ← tryImport src v size flags
        match r with
        -- the two tags are not given back
        | .error r => return (.error r, v)
        | .ok freeseg =>
            let addr := (v.seg freeseg).base
            let v ← splitSeg v freeseg newlseg newrseg addr size
            return (.ok addr, v)
  else none

/-- `freeseg_expand`. -/
def freesegExpand (v : Arena E) (t : Tag) (newbase newsize : ℕ) : Arena E :=
  let old := freelist (v.seg t).size
  let v := setSeg v t { v.seg t with base := newbase, size := newsize }
  if freelist newsize ≠ old then freelistInsert (listRemove v t) t else v

/-- `vmem_xfree`: the search of the hash bucket. -/
def hashFind (seg : Tag → Seg) (addr : ℕ) : List Tag → Option Tag
  | [] => none
  | t :: l => if (seg t).base = addr then some t else hashFind seg addr l

/-- `vmem_xfree`: coalesce the segment with a free one to its left; hands back the segment that now
stands for the range, and whether it was coalesced. -/
def coalesceLeft (v : Arena E) (seg : Tag) : Option (Tag × Bool × Arena E) := do
  let left ← Queue.prevOf seg v.segqueue
  if (v.seg left).type = .kVMemSegFree then
    let v := freesegExpand v left (v.seg left).base (add64 (v.seg left).size (v.seg seg).size)
    let v := segFree (queueRemove v seg) seg
    return (left, true, v)
  else return (seg, false, v)

/-- `vmem_xfree`: coalesce the segment with a free one to its right. -/
def coalesceRight (v : Arena E) (seg : Tag) (coalescedLeft : Bool) : Tag × Bool × Arena E :=
  match Queue.nextOf seg v.segqueue with
  | none => (seg, coalescedLeft, v)
  | some right =>
      if (v.seg right).type = .kVMemSegFree then
        let v := freesegExpand v right (v.seg seg).base
          (add64 (v.seg right).size (v.seg seg).size)
        let v := queueRemove v seg
        let v := if coalescedLeft then listRemove v seg else v
        (right, true, segFree v seg)
      else (seg, coalescedLeft, v)

/-- `vmem_xfree`: give an imported span that is entirely free back to the source. -/
def releaseSpan (v : Arena E) (seg left : Tag) (coalesced : Bool) : Option (Bool × Arena E) :=
  if (v.seg left).type = .kVMemSegSpanImported ∧ (v.seg seg).size = (v.seg left).size then
    if (Queue.nextOf seg v.segqueue).all fun right =>
        (v.seg right).type = .kVMemSegSpanImported then do
      let f ← src
      let (env, freeSegs) ← f.freefn v.env v.freeSegs (v.seg left).base (v.seg left).size
      let v := { v with env := env, freeSegs := freeSegs }
      -- the segment is on a freelist only if it has been coalesced
      let v := if coalesced then listRemove v seg else v
      let v := segFree (queueRemove v seg) seg
      let v := segFree (queueRemove (listRemove v left) left) left
      return (true, v)
    else none
  else some (coalesced, v)

/-- `vmem_xfree`; the size is handed back as an `int`. -/
def vmemXfree (v : Arena E) (addr : ℕ) : Option (ℤ × Arena E) := do
  let seg ← hashFind v.seg addr (v.hashtab (hashbucket addr))
  let size := (v.seg seg).size
  let v := listRemove v seg
  let (seg, coalesced, v) ← coalesceLeft v seg
  let left ← Queue.prevOf seg v.segqueue
  let (seg, coalesced, v) := coalesceRight v seg coalesced
  let (coalesced, v) ← releaseSpan src v seg left coalesced
  -- a segment that joins no other is dropped, not put on a freelist
  let v := if coalesced then v else segFree (queueRemove v seg) seg
  return (Int.bmod size (2 ^ 32), v)

/-- `vmem_destroy`; it asserts that nothing is allocated, and frees the tags of the queue. -/
def vmemDestroy (v : Arena E) : Option (Arena E) :=
  if ∀ i ∈ List.range kNHashBuckets, v.hashtab i = [] then
    some { v with freeSegs := v.segqueue.reverse ++ v.freeSegs }
  else none

end Scalux.Vmem
