import Mathlib.Data.List.ReduceOption
import Scalux.Lib.Ledger
import Scalux.Lib.Run
import Scalux.Vm.Map

/-! # The blocks of objects

The functions of `vm/vm.c` on anonymous objects, with every block that they take from `kmem_alloc` and
every page that they take from `vm_pagealloc`: the object, its amap, the array of pointers to chunks, which
`kmem_realloc` makes larger, the chunks, and the anons with their pages.

* Blocks and pages are numbered by a `Ledger`, which keeps the sizes that `kmem_free` is called with.
* `none` stands for a failed assertion, and for an allocation that does not fit into the kernel heap.
* Page tables and locks are left out.

* **`Bal`**: the blocks that are not freed are those of the live objects and anons, and those that are lost.
* **`blocks_returned_iff`**: after every object has been released, all blocks and pages have been freed if
  and only if there was no page fault: `amap_release` does not free the array. -/

namespace Scalux.Vm.Blocks

/-! ## Memory -/

/-- `sizeof(vm_object_t)`. -/
def sizeofObject : ℕ := 88

/-- `sizeof(vm_amap_t)`. -/
def sizeofAmap : ℕ := 16

/-- `sizeof(vm_amap_chunk_t)`. -/
def sizeofChunk : ℕ := 256

/-- `sizeof(vm_anon_t)`. -/
def sizeofAnon : ℕ := 56

/-- `sizeof(vm_amap_chunk_t *)`. -/
def sizeofPtr : ℕ := 8

/-- `vm_anon_t`, with the number of its block. -/
structure Anon where
  block : ℕ
  refcnt : ℤ
  resident : Bool
  physpage : ℕ
  deriving Inhabited

/-- `vm_amap_chunk_t`, with the number of its block. -/
structure Chunk where
  block : ℕ
  anon : List (Option AnonId)

/-- `vm_amap_t`, with the number of its block. -/
structure Amap where
  block : ℕ
  /-- The block of the array `chunks`. -/
  chunks : Option ℕ
  /-- What the array has; its length is `curnchunk`. -/
  table : List (Option Chunk)
  deriving Inhabited

/-- `vm_object_t` of the type `kVMObjAnon` without a parent, with the number of its block. -/
structure Object where
  block : ℕ
  refcnt : ℤ
  size : ℕ
  amap : Amap
  deriving Inhabited

/-- The memory.  An object and an anon are told by the number of their block. -/
structure Mem where
  kmem : Ledger ℕ
  pages : Ledger Unit
  objs : Heap Object
  anons : Heap Anon

/-- `kmem_alloc` and `kmem_zalloc`. -/
def kmemAlloc (s : Mem) (size : ℕ) : Option (ℕ × Mem) :=
  if 0 < size ∧ size ≤ kheapSize then some (s.kmem.next, { s with kmem := s.kmem.take size }) else none

/-- `kmem_free`. -/
def kmemFree (s : Mem) (ptr size : ℕ) : Option Mem :=
  if 0 < size then some { s with kmem := s.kmem.give ptr size } else none

/-- `kmem_realloc`. -/
def kmemRealloc (s : Mem) (ptr : Option ℕ) (oldSize size : ℕ) : Option (ℕ × Mem) := do
  let (ret, s) ← kmemAlloc s size
  match ptr with
  | none => return (ret, s)
  | some ptr =>
      if 0 < oldSize ∧ oldSize < size then
        let s ← kmemFree s ptr oldSize
        return (ret, s)
      else none

/-! ## Anons -/

/-- `anon_new`. -/
def anonNew (s : Mem) : Option (AnonId × Mem) := do
  let (a, s) ← kmemAlloc s sizeofAnon
  let anons ← s.anons.alloc a ⟨a, 1, true, s.pages.next⟩
  return (a, { s with pages := s.pages.take (), anons := anons })

/-- `anon_release`. -/
def anonRelease (s : Mem) (a : AnonId) : Option Mem := do
  let anon ← s.anons.get? a
  let refcnt := decr 24 anon.refcnt
  if 0 < refcnt then return { s with anons := s.anons.set a { anon with refcnt := refcnt } }
  else if anon.resident then
    let s ← kmemFree { s with pages := s.pages.give anon.physpage () } anon.block sizeofAnon
    return { s with anons := s.anons.free a }
  else none

/-- `amap_copy` of one anon. -/
def anonShare (s : Mem) (a : AnonId) : Option Mem := do
  let anon ← s.anons.get? a
  return { s with anons := s.anons.set a { anon with refcnt := incr 24 anon.refcnt } }

/-! ## Amaps -/

/-- The first part of `amap_anon_at`: the array is made larger. -/
def growTable (s : Mem) (amap : Amap) (minnchunk : ℕ) : Option (Amap × Mem) :=
  if amap.table.length < minnchunk then do
    let (chunks, s) ← kmemRealloc s amap.chunks (amap.table.length * sizeofPtr) (minnchunk * sizeofPtr)
    return ({ amap with
      chunks := some chunks
      table := amap.table ++ List.replicate (minnchunk - amap.table.length) none }, s)
  else some (amap, s)

/-- `amap_anon_at`: the amap, with a chunk for the slot of the page. -/
def amapAnonAt (s : Mem) (amap : Amap) (page : ℕ) : Option (Amap × Mem) := do
  let chunk := page / kAMapChunkNPages
  let (amap, s) ← growTable s amap (page / kAMapChunkNPages + 1)
  match amap.table[chunk]? with
  | some none =>
      let (block, s) ← kmemAlloc s sizeofChunk
      return ({ amap with
        table := amap.table.set chunk (some ⟨block, List.replicate kAMapChunkNPages none⟩) }, s)
  | _ => return (amap, s)

/-- The anon at the pointer that `amap_anon_at` returns. -/
def anonAt (amap : Amap) (page : ℕ) : Option AnonId := do
  let chunk ← (amap.table[page / kAMapChunkNPages]?).join
  (chunk.anon[page % kAMapChunkNPages]?).join

/-- The assignment of an anon at this pointer. -/
def setAnonAt (amap : Amap) (page : ℕ) (a : AnonId) : Amap :=
  { amap with table := amap.table.modify (page / kAMapChunkNPages) fun chunk =>
      chunk.map fun c => { c with anon := c.anon.set (page % kAMapChunkNPages) (some a) } }

/-- The loop of `amap_copy` over the chunks. -/
def copyChunks (s : Mem) : List (Option Chunk) → Option (List (Option Chunk) × Mem)
  | [] => some ([], s)
  | none :: table => do
      let (table, s) ← copyChunks s table
      return (none :: table, s)
  | some c :: table => do
      let (block, s) ← kmemAlloc s sizeofChunk
      -- each anon of the chunk gets one reference more
      let s ← c.anon.reduceOption.foldlM anonShare s
      let (table, s) ← copyChunks s table
      return (some ⟨block, c.anon⟩ :: table, s)

/-- `amap_copy`. -/
def amapCopy (s : Mem) (amap : Amap) : Option (Amap × Mem) := do
  let (block, s) ← kmemAlloc s sizeofAmap
  let (chunks, s) ← kmemAlloc s (sizeofPtr * amap.table.length)
  let (table, s) ← copyChunks s amap.table
  return (⟨block, some chunks, table⟩, s)

/-- The loop of `amap_release` for one chunk. -/
def releaseChunk (s : Mem) (c : Chunk) : Option Mem := do
  let s ← c.anon.reduceOption.foldlM anonRelease s
  kmemFree s c.block sizeofChunk

/-- `amap_release`. -/
def amapRelease (s : Mem) (amap : Amap) : Option Mem := do
  let s ← amap.table.reduceOption.foldlM releaseChunk s
  kmemFree s amap.block sizeofAmap

/-! ## Objects -/

/-- Assigning the amap of an object. -/
def setAmap (s : Mem) (o : ObjId) (obj : Object) (amap : Amap) : Mem :=
  { s with objs := s.objs.set o { obj with amap := amap } }

/-- `vm_aobj_new`. -/
def vmAobjNew (s : Mem) (size : ℕ) : Option Mem := do
  let (o, s) ← kmemAlloc s sizeofObject
  let (block, s) ← kmemAlloc s sizeofAmap
  let objs ← s.objs.alloc o ⟨o, 1, size, ⟨block, none, []⟩⟩
  return { s with objs := objs }

/-- `vm_object_copy`. -/
def vmObjectCopy (s : Mem) (o : ObjId) : Option Mem := do
  let (newobj, s) ← kmemAlloc s sizeofObject
  let obj ← s.objs.get? o
  let (amap, s) ← amapCopy s obj.amap
  let objs ← s.objs.alloc newobj ⟨newobj, 1, obj.size, amap⟩
  return { s with objs := objs }

/-- `vm_object_retain`. -/
def vmObjectRetain (s : Mem) (o : ObjId) : Option Mem := do
  let obj ← s.objs.get? o
  return { s with objs := s.objs.set o { obj with refcnt := incr 32 obj.refcnt } }

/-- `vm_object_release`. -/
def vmObjectRelease (s : Mem) (o : ObjId) : Option Mem := do
  let obj ← s.objs.get? o
  let refcnt := decr 32 obj.refcnt
  if 0 < refcnt then return { s with objs := s.objs.set o { obj with refcnt := refcnt } }
  else
    let s ← amapRelease s obj.amap
    let s ← kmemFree s obj.block sizeofObject
    return { s with objs := s.objs.free o }

/-- `fault_aobj` at a page of an object. -/
def faultAobj (s : Mem) (o : ObjId) (page : ℕ) (flags : FaultFlags) : Option Mem := do
  let obj ← s.objs.get? o
  let (amap, s) ← amapAnonAt s obj.amap page
  let s := setAmap s o obj amap
  match anonAt amap page with
  | some a =>
      let anon ← s.anons.get? a
      if anon.resident then
        if 1 < anon.refcnt then
          -- a write duplicates the anon; a read of a page that is mapped fails an assertion
          if flags.write then
            let s := { s with anons := s.anons.set a { anon with refcnt := decr 24 anon.refcnt } }
            let (new, s) ← anonNew s
            return setAmap s o obj (setAnonAt amap page new)
          else if flags.present then none
          else return s
        else if flags.present ∧ ¬ flags.write then none
        else return s
      else if flags.present then none
      else return s
  | none =>
      let (new, s) ← anonNew s
      return setAmap s o obj (setAnonAt amap page new)

/-! ## Runs -/

/-- The calls. -/
inductive Action
  | vmAobjNew (size : ℕ)
  | vmObjectCopy (o : ObjId)
  | vmObjectRetain (o : ObjId)
  | vmObjectRelease (o : ObjId)
  /-- A page fault at a page of an object. -/
  | fault (o : ObjId) (page : ℕ) (flags : FaultFlags)
  deriving DecidableEq

/-- One call. -/
def step (s : Mem) : Action → Option Mem
  | .vmAobjNew size => vmAobjNew s size
  | .vmObjectCopy o => vmObjectCopy s o
  | .vmObjectRetain o => vmObjectRetain s o
  | .vmObjectRelease o => vmObjectRelease s o
  | .fault o page flags => faultAobj s o page flags

/-- The runs. -/
def machine : Machine Mem Action := ⟨step⟩

/-- There are no objects. -/
def start : Mem := ⟨.empty, .empty, .empty, .empty⟩

/-- The action is a page fault. -/
def Action.isFault : Action → Bool
  | .fault .. => true
  | _ => false

/-- Every block was freed once, with the size it was allocated with, and every page was freed once. -/
def AllReturned (s : Mem) : Prop := s.kmem.Returned ∧ s.pages.Returned

/-! ## The blocks in use -/

/-- The array of pointers to chunks. -/
def Amap.array (amap : Amap) : List (ℕ × ℕ) :=
  amap.chunks.toList.map fun b => (b, amap.table.length * sizeofPtr)

/-- The chunks. -/
def chunkBlocks (table : List (Option Chunk)) : List (ℕ × ℕ) :=
  table.reduceOption.map fun c => (c.block, sizeofChunk)

/-- The blocks of an amap. -/
def Amap.blocks (amap : Amap) : List (ℕ × ℕ) :=
  (amap.block, sizeofAmap) :: (amap.array ++ chunkBlocks amap.table)

/-- The blocks of an object. -/
def Object.blocks (obj : Object) : List (ℕ × ℕ) := (obj.block, sizeofObject) :: obj.amap.blocks

/-- How often a block is one of the objects `H` and of the anons. -/
def held (H : Heap Object) (anons : Heap Anon) (x : ℕ × ℕ) : ℕ :=
  H.weigh (fun obj => obj.blocks.count x) + anons.weigh fun anon => [(anon.block, sizeofAnon)].count x

/-- The blocks that are not freed are those of the objects `H`, of the anons, and `extra`; the pages that
are not freed are those of the anons. -/
structure Bal (H : Heap Object) (s : Mem) (extra : List (ℕ × ℕ)) : Prop where
  kmem : s.kmem.Balanced fun x => held H s.anons x + extra.count x
  pages : s.pages.Balanced fun x => s.anons.weigh fun anon => [(anon.physpage, ())].count x

variable {H : Heap Object} {s s' : Mem} {extra extra' : List (ℕ × ℕ)} {a : AnonId} {o : ObjId} {obj obj' : Object}
  {amap amap' : Amap} {i size : ℕ}

/-- The order does not matter. -/
theorem Bal.perm (h : Bal H s extra) (hp : extra.Perm extra') : Bal H s extra' :=
  ⟨h.kmem.congr fun x => by rw [hp.count_eq], h.pages⟩

/-- The blocks of an object may be counted apart. -/
theorem Bal.open (h : Bal H s extra) (hobj : H.get? o = some obj) :
    Bal (H.free o) s (obj.blocks ++ extra) := by
  refine ⟨h.kmem.congr fun x => ?_, h.pages⟩
  unfold held
  rw [Heap.weigh_free hobj, List.count_append]
  omega

/-- An object is put back, with the blocks it has now. -/
theorem Bal.close (hobj : H.get? o = some obj) (obj' : Object)
    (h : Bal (H.free o) s (obj'.blocks ++ extra)) : Bal (H.set o obj') s extra := by
  refine ⟨h.kmem.congr fun x => ?_, h.pages⟩
  have hset := Heap.weigh_set (w := fun obj => obj.blocks.count x) hobj obj'
  have hfree := Heap.weigh_free (w := fun obj => obj.blocks.count x) hobj
  unfold held
  rw [List.count_append]
  omega

/-- The blocks of a new object. -/
theorem Bal.alloc {H' : Heap Object} (h : Bal H s (obj.blocks ++ extra)) (halloc : H.alloc o obj = some H') :
    Bal H' s extra := by
  refine ⟨h.kmem.congr fun x => ?_, h.pages⟩
  unfold held
  rw [Heap.weigh_alloc halloc, List.count_append]
  omega

/-- `kmem_alloc`. -/
theorem kmemAlloc_bal (h : Bal H s extra) (hs : kmemAlloc s size = some (i, s')) :
    Bal H s' ((i, size) :: extra) ∧ s'.objs = s.objs ∧ s'.anons = s.anons := by
  unfold kmemAlloc at hs
  split at hs
  · cases hs
    refine ⟨⟨(h.kmem.take size).congr fun x => ?_, h.pages⟩, rfl, rfl⟩
    rw [Ledger.count_cons_eq x _ extra]
    dsimp only
    omega
  · cases hs

/-- `kmem_free`. -/
theorem kmemFree_bal (h : Bal H s ((i, size) :: extra)) (hs : kmemFree s i size = some s') :
    Bal H s' extra ∧ s'.objs = s.objs ∧ s'.anons = s.anons := by
  unfold kmemFree at hs
  split at hs
  · cases hs
    refine ⟨⟨Ledger.Balanced.give (h.kmem.congr fun x => ?_), h.pages⟩, rfl, rfl⟩
    rw [Ledger.count_cons_eq x _ extra]
    dsimp only
    omega
  · cases hs

/-- `kmem_free` leaves the anons. -/
theorem kmemFree_anons (hs : kmemFree s i size = some s') : s'.anons = s.anons := by
  unfold kmemFree at hs
  split at hs
  · cases hs
    rfl
  · cases hs

/-- The references to an anon do not matter. -/
theorem Bal.setRefcnt (h : Bal H s extra) {anon : Anon} (ha : s.anons.get? a = some anon) (r : ℤ) :
    Bal H { s with anons := s.anons.set a { anon with refcnt := r } } extra := by
  have hweigh : ∀ w : Anon → ℕ, w { anon with refcnt := r } = w anon →
      (s.anons.set a { anon with refcnt := r }).weigh w = s.anons.weigh w := by
    intro w hw
    have hset := Heap.weigh_set (w := w) ha { anon with refcnt := r }
    omega
  refine ⟨h.kmem.congr fun x => ?_, h.pages.congr fun x => ?_⟩
  · unfold held
    rw [hweigh _ rfl]
  · exact hweigh _ rfl

/-- `anon_new`. -/
theorem anonNew_bal (h : Bal H s extra) (hs : anonNew s = some (a, s')) :
    Bal H s' extra ∧ s'.objs = s.objs := by
  unfold anonNew at hs
  obtain ⟨⟨b, s₁⟩, halloc, hs⟩ := Option.bind_eq_some_iff.mp hs
  obtain ⟨anons, hanons, hs⟩ := Option.bind_eq_some_iff.mp hs
  cases hs
  obtain ⟨h₁, hobjs, -⟩ := kmemAlloc_bal h halloc
  refine ⟨⟨h₁.kmem.congr fun x => ?_, (h₁.pages.take ()).congr fun x => ?_⟩, hobjs⟩
  · unfold held
    rw [Heap.weigh_alloc hanons, Ledger.count_cons_eq x _ extra]
    dsimp only
    omega
  · exact Heap.weigh_alloc hanons

/-- `anon_release`. -/
theorem anonRelease_bal (h : Bal H s extra) (hs : anonRelease s a = some s') :
    Bal H s' extra ∧ s'.objs = s.objs := by
  obtain ⟨anon, ha, hs⟩ := Option.bind_eq_some_iff.mp hs
  dsimp only at hs
  -- a reference less, or the last one: page and block go back
  split at hs
  · cases hs
    exact ⟨h.setRefcnt ha _, rfl⟩
  · split at hs
    · obtain ⟨s₁, hfree, hs⟩ := Option.bind_eq_some_iff.mp hs
      cases hs
      unfold kmemFree at hfree
      split at hfree
      · cases hfree
        refine ⟨⟨Ledger.Balanced.give (h.kmem.congr fun x => ?_),
          Ledger.Balanced.give (h.pages.congr fun x => ?_)⟩, rfl⟩
        · unfold held
          rw [Heap.weigh_free ha]
          dsimp only
          omega
        · rw [Heap.weigh_free ha]
      · cases hfree
    · cases hs

/-- A loop over anons. -/
theorem foldlM_bal {f : Mem → AnonId → Option Mem} {l : List AnonId} (h : Bal H s extra)
    (hf : ∀ {s a s'}, Bal H s extra → f s a = some s' → Bal H s' extra ∧ s'.objs = s.objs)
    (hs : l.foldlM f s = some s') : Bal H s' extra ∧ s'.objs = s.objs := by
  refine foldlM_invariant (P := fun t => Bal H t extra ∧ t.objs = s.objs) hs ⟨h, rfl⟩ ?_
  intro t a _ t' ht hft
  obtain ⟨h', hobjs⟩ := hf ht.1 hft
  exact ⟨h', hobjs.trans ht.2⟩

/-- `amap_copy` of one anon. -/
theorem anonShare_bal (h : Bal H s extra) (hs : anonShare s a = some s') :
    Bal H s' extra ∧ s'.objs = s.objs := by
  obtain ⟨anon, ha, hs⟩ := Option.bind_eq_some_iff.mp hs
  cases hs
  exact ⟨h.setRefcnt ha _, rfl⟩

/-! ## Amaps -/

/-- A missing chunk has no block. -/
@[simp] theorem chunkBlocks_none (table : List (Option Chunk)) : chunkBlocks (none :: table) = chunkBlocks table :=
  rfl

/-- A chunk has its block. -/
@[simp] theorem chunkBlocks_some (c : Chunk) (table : List (Option Chunk)) :
    chunkBlocks (some c :: table) = (c.block, sizeofChunk) :: chunkBlocks table := rfl

/-- The blocks of two tables. -/
theorem chunkBlocks_append (table table' : List (Option Chunk)) :
    chunkBlocks (table ++ table') = chunkBlocks table ++ chunkBlocks table' := by
  unfold chunkBlocks
  rw [List.reduceOption_append, List.map_append]

/-- A table of missing chunks has no block. -/
theorem chunkBlocks_replicate (n : ℕ) : chunkBlocks (List.replicate n none) = [] := by
  induction n with
  | zero => rfl
  | succ n ih => exact ih

/-- A chunk more. -/
theorem chunkBlocks_set {table : List (Option Chunk)} (hi : table[i]? = some none) (c : Chunk) :
    (chunkBlocks (table.set i (some c))).Perm ((c.block, sizeofChunk) :: chunkBlocks table) := by
  obtain ⟨hlt, hget⟩ := List.getElem?_eq_some_iff.mp hi
  have hsplit : table = table.take i ++ none :: table.drop (i + 1) := by
    rw [← hget, List.getElem_cons_drop, List.take_append_drop]
  rw [List.set_eq_take_append_cons_drop, if_pos hlt, chunkBlocks_append, chunkBlocks_some]
  refine List.perm_middle.trans (List.Perm.cons _ ?_)
  nth_rewrite 3 [hsplit]
  rw [chunkBlocks_append, chunkBlocks_none]

/-- Assigning a slot takes no block. -/
theorem chunkBlocks_modify (table : List (Option Chunk)) (i : ℕ) (f : Chunk → Chunk)
    (hf : ∀ c, (f c).block = c.block) :
    chunkBlocks (table.modify i fun chunk => chunk.map f) = chunkBlocks table := by
  induction table generalizing i with
  | nil => simp
  | cons c table ih =>
      cases i with
      | zero => cases c <;> simp [hf]
      | succ i => cases c <;> simp [ih]

/-- An amap has an array if its table is not empty. -/
def Amap.WellFormed (amap : Amap) : Prop := amap.chunks = none → amap.table = []

/-- The array is made larger. -/
theorem growTable_bal {n : ℕ} (h : Bal H s (amap.blocks ++ extra)) (hwf : amap.WellFormed) (hn : 0 < n)
    (hs : growTable s amap n = some (amap', s')) :
    Bal H s' (amap'.blocks ++ extra) ∧ s'.objs = s.objs ∧ s'.anons = s.anons ∧ amap'.chunks ≠ none := by
  unfold growTable at hs
  split at hs
  · rename_i hlt
    obtain ⟨⟨ret, s₂⟩, hrealloc, hs⟩ := Option.bind_eq_some_iff.mp hs
    cases hs
    obtain ⟨⟨ret', s₁⟩, halloc, hrealloc⟩ := Option.bind_eq_some_iff.mp hrealloc
    -- the new array is allocated before the old one is released
    obtain ⟨h₁, hobjs, hanons⟩ := kmemAlloc_bal h halloc
    have hlen : (amap.table ++ List.replicate (n - amap.table.length) none).length = n := by
      rw [List.length_append, List.length_replicate]
      omega
    cases hchunks : amap.chunks with
    -- the first array: there is nothing to be released
    | none =>
        rw [hchunks] at hrealloc
        cases hrealloc
        refine ⟨h₁.perm ?_, hobjs, hanons, by simp⟩
        refine List.perm_iff_count.mpr fun x => ?_
        simp only [Amap.blocks, Amap.array, hchunks, hlen, chunkBlocks_append, chunkBlocks_replicate,
          List.count_append, List.count_cons, Option.toList_none, Option.toList_some, List.map_nil,
          List.map_cons, List.count_nil]
        omega
    | some ptr =>
        rw [hchunks] at hrealloc
        dsimp only at hrealloc
        split at hrealloc
        · obtain ⟨s₃, hfree, hrealloc⟩ := Option.bind_eq_some_iff.mp hrealloc
          cases hrealloc
          have h₂ : Bal H s₁ ((ptr, amap.table.length * sizeofPtr) :: (ret, n * sizeofPtr) ::
              (amap.block, sizeofAmap) :: (chunkBlocks amap.table ++ extra)) := by
            refine h₁.perm (List.perm_iff_count.mpr fun x => ?_)
            simp only [Amap.blocks, Amap.array, hchunks, List.count_append, List.count_cons,
              Option.toList_some, List.map_nil, List.map_cons, List.count_nil]
            omega
          obtain ⟨h₃, hobjs', hanons'⟩ := kmemFree_bal h₂ hfree
          refine ⟨h₃.perm ?_, hobjs'.trans hobjs, hanons'.trans hanons, by simp⟩
          refine List.perm_iff_count.mpr fun x => ?_
          simp only [Amap.blocks, Amap.array, hlen, chunkBlocks_append, chunkBlocks_replicate,
            List.count_append, List.count_cons, Option.toList_some, List.map_nil, List.map_cons,
            List.count_nil]
          omega
        · cases hrealloc
  · rename_i hge
    cases hs
    refine ⟨h, rfl, rfl, fun hnone => ?_⟩
    rw [hwf hnone] at hge
    exact hge hn

/-- `amap_anon_at`. -/
theorem amapAnonAt_bal {page : ℕ} (h : Bal H s (amap.blocks ++ extra)) (hwf : amap.WellFormed)
    (hs : amapAnonAt s amap page = some (amap', s')) :
    Bal H s' (amap'.blocks ++ extra) ∧ s'.objs = s.objs ∧ s'.anons = s.anons ∧ amap'.chunks ≠ none := by
  unfold amapAnonAt at hs
  obtain ⟨⟨amap₁, s₁⟩, hgrow, hs⟩ := Option.bind_eq_some_iff.mp hs
  obtain ⟨h₁, hobjs, hanons, hchunks⟩ := growTable_bal h hwf (Nat.succ_pos _) hgrow
  dsimp only at hs
  split at hs
  · rename_i hnone
    obtain ⟨⟨block, s₂⟩, halloc, hs⟩ := Option.bind_eq_some_iff.mp hs
    cases hs
    obtain ⟨h₂, hobjs', hanons'⟩ := kmemAlloc_bal h₁ halloc
    refine ⟨h₂.perm ?_, hobjs'.trans hobjs, hanons'.trans hanons, hchunks⟩
    have hset := chunkBlocks_set hnone ⟨block, List.replicate kAMapChunkNPages none⟩
    refine List.perm_iff_count.mpr fun x => ?_
    simp only [Amap.blocks, Amap.array, List.length_set, List.count_append, List.count_cons, hset.count_eq]
    omega
  · cases hs
    exact ⟨h₁, hobjs, hanons, hchunks⟩

/-- The loop of `amap_copy`. -/
theorem copyChunks_bal {table table' : List (Option Chunk)} (h : Bal H s extra)
    (hs : copyChunks s table = some (table', s')) :
    Bal H s' (chunkBlocks table' ++ extra) ∧ s'.objs = s.objs ∧ table'.length = table.length := by
  induction table generalizing s extra table' with
  | nil =>
      cases hs
      exact ⟨h, rfl, rfl⟩
  | cons c table ih =>
      -- an empty entry allocates nothing, a chunk takes one block
      cases c with
      | none =>
          unfold copyChunks at hs
          obtain ⟨⟨table₁, s₁⟩, hcopy, hs⟩ := Option.bind_eq_some_iff.mp hs
          cases hs
          obtain ⟨h₁, hobjs, hlen⟩ := ih h hcopy
          exact ⟨h₁, hobjs, congrArg (· + 1) hlen⟩
      | some c =>
          unfold copyChunks at hs
          obtain ⟨⟨block, s₁⟩, halloc, hs⟩ := Option.bind_eq_some_iff.mp hs
          obtain ⟨s₂, hshare, hs⟩ := Option.bind_eq_some_iff.mp hs
          obtain ⟨⟨table₁, s₃⟩, hcopy, hs⟩ := Option.bind_eq_some_iff.mp hs
          cases hs
          obtain ⟨h₁, hobjs₁, -⟩ := kmemAlloc_bal h halloc
          obtain ⟨h₂, hobjs₂⟩ := foldlM_bal h₁ anonShare_bal hshare
          obtain ⟨h₃, hobjs₃, hlen⟩ := ih h₂ hcopy
          refine ⟨h₃.perm ?_, hobjs₃.trans (hobjs₂.trans hobjs₁), congrArg (· + 1) hlen⟩
          rw [chunkBlocks_some]
          exact List.perm_middle

/-- `amap_copy`. -/
theorem amapCopy_bal (h : Bal H s extra) (hs : amapCopy s amap = some (amap', s')) :
    Bal H s' (amap'.blocks ++ extra) ∧ s'.objs = s.objs ∧ amap'.chunks ≠ none := by
  unfold amapCopy at hs
  obtain ⟨⟨block, s₁⟩, halloc₁, hs⟩ := Option.bind_eq_some_iff.mp hs
  obtain ⟨⟨chunks, s₂⟩, halloc₂, hs⟩ := Option.bind_eq_some_iff.mp hs
  obtain ⟨⟨table, s₃⟩, hcopy, hs⟩ := Option.bind_eq_some_iff.mp hs
  cases hs
  obtain ⟨h₁, hobjs₁, -⟩ := kmemAlloc_bal h halloc₁
  obtain ⟨h₂, hobjs₂, -⟩ := kmemAlloc_bal h₁ halloc₂
  obtain ⟨h₃, hobjs₃, hlen⟩ := copyChunks_bal h₂ hcopy
  refine ⟨h₃.perm ?_, hobjs₃.trans (hobjs₂.trans hobjs₁), by simp⟩
  refine List.perm_iff_count.mpr fun x => ?_
  simp only [Amap.blocks, Amap.array, hlen, Nat.mul_comm sizeofPtr, List.count_append, List.count_cons,
    Option.toList_some, List.map_nil, List.map_cons, List.count_nil]
  omega

/-- The loop of `amap_release`. -/
theorem releaseChunks_bal {cs : List Chunk} (h : Bal H s (cs.map (fun c => (c.block, sizeofChunk)) ++ extra))
    (hs : cs.foldlM releaseChunk s = some s') : Bal H s' extra ∧ s'.objs = s.objs := by
  induction cs generalizing s with
  | nil =>
      cases hs
      exact ⟨h, rfl⟩
  | cons c cs ih =>
      rw [List.foldlM_cons] at hs
      obtain ⟨s₂, hchunk, hs⟩ := Option.bind_eq_some_iff.mp hs
      obtain ⟨s₁, hrelease, hfree⟩ := Option.bind_eq_some_iff.mp hchunk
      obtain ⟨h₁, hobjs₁⟩ := foldlM_bal h anonRelease_bal hrelease
      obtain ⟨h₂, hobjs₂, -⟩ := kmemFree_bal h₁ hfree
      obtain ⟨h₃, hobjs₃⟩ := ih h₂ hs
      exact ⟨h₃, hobjs₃.trans (hobjs₂.trans hobjs₁)⟩

/-- **`amap_release`** leaves the array. -/
theorem amapRelease_bal (h : Bal H s (amap.blocks ++ extra)) (hs : amapRelease s amap = some s') :
    Bal H s' (amap.array ++ extra) ∧ s'.objs = s.objs := by
  obtain ⟨s₁, hrelease, hfree⟩ := Option.bind_eq_some_iff.mp hs
  have h₀ : Bal H s (chunkBlocks amap.table ++ ((amap.block, sizeofAmap) :: (amap.array ++ extra))) := by
    refine h.perm (List.perm_iff_count.mpr fun x => ?_)
    simp only [Amap.blocks, List.count_append, List.count_cons]
    omega
  obtain ⟨h₁, hobjs₁⟩ := releaseChunks_bal h₀ hrelease
  obtain ⟨h₂, hobjs₂, -⟩ := kmemFree_bal h₁ hfree
  exact ⟨h₂, hobjs₂.trans hobjs₁⟩

/-! ## Calls -/

/-- The blocks `lost` belong to nothing any more. -/
structure Inv (lost : List (ℕ × ℕ)) (s : Mem) : Prop where
  bal : Bal s.objs s lost
  wf : ∀ o obj, s.objs.get? o = some obj → obj.amap.WellFormed

/-- The number of arrays of live objects. -/
def arrays (H : Heap Object) : ℕ := H.weigh fun obj => obj.amap.array.length

variable {lost : List (ℕ × ℕ)}

/-- There is one array, or none: `if amap.chunks = none then 0 else 1`. -/
theorem length_array (amap : Amap) : amap.array.length = if amap.chunks = none then 0 else 1 := by
  unfold Amap.array
  cases amap.chunks <;> rfl

/-- If there are no arrays, an object has none. -/
theorem chunks_eq_none (hzero : arrays H = 0) (hobj : H.get? o = some obj) : obj.amap.chunks = none := by
  have hle := Heap.le_weigh (w := fun obj => obj.amap.array.length) hobj
  by_contra hne
  rw [length_array, if_neg hne] at hle
  unfold arrays at hzero
  omega

/-- What a call does to the blocks: arrays are lost or stay, and `n` are added. -/
def Keeps (n : ℕ) (lost : List (ℕ × ℕ)) (s s' : Mem) : Prop :=
  ∃ lost', Inv lost' s' ∧ lost'.length + arrays s'.objs = lost.length + arrays s.objs + n

/-- A new object. -/
theorem Inv.alloc (h : Inv lost s) {H' : Heap Object} (hbal : Bal s.objs s' (obj.blocks ++ lost))
    (halloc : s.objs.alloc o obj = some H') (hwf : obj.amap.WellFormed) :
    Keeps obj.amap.array.length lost s { s' with objs := H' } := by
  have hbal' := hbal.alloc halloc
  refine ⟨lost, ⟨⟨hbal'.kmem, hbal'.pages⟩, fun o' obj' hobj' => ?_⟩, ?_⟩
  · rw [Heap.get?_alloc halloc] at hobj'
    split at hobj'
    · cases hobj'
      exact hwf
    · exact h.wf o' obj' hobj'
  · have hweigh := Heap.weigh_alloc (w := fun obj => obj.amap.array.length) halloc
    unfold arrays
    dsimp only
    omega

/-- An object is assigned. -/
theorem Inv.set (h : Inv lost s) (hobj : s.objs.get? o = some obj) (hbal : Bal (s.objs.set o obj') s' lost)
    (hwf : obj'.amap.WellFormed) {n : ℕ} (hn : obj'.amap.array.length = obj.amap.array.length + n) :
    Keeps n lost s { s' with objs := s.objs.set o obj' } := by
  refine ⟨lost, ⟨⟨hbal.kmem, hbal.pages⟩, fun o₁ obj₁ hobj₁ => ?_⟩, ?_⟩
  · rw [Heap.get?_set hobj] at hobj₁
    split at hobj₁
    · cases hobj₁
      exact hwf
    · exact h.wf o₁ obj₁ hobj₁
  · have hweigh := Heap.weigh_set (w := fun obj => obj.amap.array.length) hobj obj'
    unfold arrays
    dsimp only
    omega

/-- An object is assigned that has the same blocks. -/
theorem Bal.set (h : Bal H s extra) (hobj : H.get? o = some obj) (hblocks : obj'.blocks = obj.blocks) :
    Bal (H.set o obj') s extra := by
  have hopen := h.open hobj
  rw [← hblocks] at hopen
  exact .close hobj obj' hopen

/-- `vm_aobj_new`. -/
theorem vmAobjNew_keeps (h : Inv lost s) (hs : vmAobjNew s size = some s') :
    Keeps 0 lost s s' ∧ s'.anons = s.anons := by
  unfold vmAobjNew at hs
  obtain ⟨⟨o, s₁⟩, halloc₁, hs⟩ := Option.bind_eq_some_iff.mp hs
  obtain ⟨⟨block, s₂⟩, halloc₂, hs⟩ := Option.bind_eq_some_iff.mp hs
  obtain ⟨objs, halloc, hs⟩ := Option.bind_eq_some_iff.mp hs
  cases hs
  obtain ⟨h₁, hobjs₁, hanons₁⟩ := kmemAlloc_bal h.bal halloc₁
  obtain ⟨h₂, hobjs₂, hanons₂⟩ := kmemAlloc_bal h₁ halloc₂
  rw [hobjs₂, hobjs₁] at halloc
  exact ⟨h.alloc (h₂.perm (List.Perm.swap _ _ _)) halloc fun _ => rfl, hanons₂.trans hanons₁⟩

/-- `vm_object_copy`. -/
theorem vmObjectCopy_keeps (h : Inv lost s) (hs : vmObjectCopy s o = some s') :
    Keeps 1 lost s s' ∧ arrays s.objs ≠ 0 := by
  unfold vmObjectCopy at hs
  obtain ⟨⟨newobj, s₁⟩, halloc₁, hs⟩ := Option.bind_eq_some_iff.mp hs
  obtain ⟨obj, hobj, hs⟩ := Option.bind_eq_some_iff.mp hs
  obtain ⟨⟨amap, s₂⟩, hcopy, hs⟩ := Option.bind_eq_some_iff.mp hs
  obtain ⟨objs, halloc, hs⟩ := Option.bind_eq_some_iff.mp hs
  cases hs
  obtain ⟨h₁, hobjs₁, -⟩ := kmemAlloc_bal h.bal halloc₁
  obtain ⟨h₂, hobjs₂, hchunks⟩ := amapCopy_bal h₁ hcopy
  rw [hobjs₂, hobjs₁] at halloc
  rw [hobjs₁] at hobj
  have hkeeps := h.alloc (h₂.perm List.perm_middle) halloc fun hnone => absurd hnone hchunks
  rw [length_array, if_neg hchunks] at hkeeps
  refine ⟨hkeeps, fun hzero => ?_⟩
  -- an object without an array cannot be copied: the size of the array of its copy would be zero
  unfold amapCopy at hcopy
  obtain ⟨⟨block, s₃⟩, -, hcopy⟩ := Option.bind_eq_some_iff.mp hcopy
  obtain ⟨x, halloc₂, -⟩ := Option.bind_eq_some_iff.mp hcopy
  rw [h.wf o obj hobj (chunks_eq_none hzero hobj)] at halloc₂
  cases halloc₂

/-- The references to an object do not matter. -/
theorem Inv.setRefcnt (h : Inv lost s) (hobj : s.objs.get? o = some obj) (r : ℤ) :
    Keeps 0 lost s { s with objs := s.objs.set o { obj with refcnt := r } } := by
  have hbal : Bal (s.objs.set o { obj with refcnt := r }) s lost := h.bal.set hobj rfl
  exact h.set hobj hbal (h.wf o obj hobj) rfl

/-- **`vm_object_release`**: the array of the object is lost. -/
theorem vmObjectRelease_keeps (h : Inv lost s) (hs : vmObjectRelease s o = some s') : Keeps 0 lost s s' := by
  obtain ⟨obj, hobj, hs⟩ := Option.bind_eq_some_iff.mp hs
  dsimp only at hs
  split at hs
  · cases hs
    exact h.setRefcnt hobj _
  -- the array of chunk pointers is never freed: its block joins the lost ones
  · obtain ⟨s₁, hrelease, hs⟩ := Option.bind_eq_some_iff.mp hs
    obtain ⟨s₂, hfree, hs⟩ := Option.bind_eq_some_iff.mp hs
    cases hs
    have hopen : Bal (s.objs.free o) s (obj.amap.blocks ++ ((obj.block, sizeofObject) :: lost)) :=
      (h.bal.open hobj).perm List.perm_middle.symm
    obtain ⟨h₁, hobjs₁⟩ := amapRelease_bal hopen hrelease
    obtain ⟨h₂, hobjs₂, -⟩ := kmemFree_bal (h₁.perm List.perm_middle) hfree
    rw [hobjs₂, hobjs₁]
    refine ⟨obj.amap.array ++ lost, ⟨⟨h₂.kmem, h₂.pages⟩, fun o' obj' hobj' => ?_⟩, ?_⟩
    · dsimp only at hobj'
      rw [Heap.get?_free] at hobj'
      split at hobj'
      · cases hobj'
      · exact h.wf o' obj' hobj'
    · have hweigh := Heap.weigh_free (w := fun obj => obj.amap.array.length) hobj
      unfold arrays
      rw [List.length_append]
      dsimp only
      omega

/-- The end of `fault_aobj`: the object has an array. -/
theorem Inv.fault (h : Inv lost s) (hobj : s.objs.get? o = some obj) (amap : Amap) {t : Mem}
    (hbal : Bal (s.objs.set o { obj with amap := amap }) t lost)
    (hobjs : t.objs = s.objs.set o { obj with amap := amap }) (hchunks : amap.chunks ≠ none) :
    (∃ n, Keeps n lost s t) ∧ 0 < arrays t.objs := by
  have hget : t.objs.get? o = some { obj with amap := amap } := by
    rw [hobjs, Heap.get?_set hobj, if_pos rfl]
  constructor
  · have hle : obj.amap.array.length ≤ amap.array.length := by
      rw [length_array, length_array, if_neg hchunks]
      split <;> decide
    have hkeeps := h.set hobj hbal (fun hnone => absurd hnone hchunks) (Nat.add_sub_of_le hle).symm
    rw [← hobjs] at hkeeps
    exact ⟨_, hkeeps⟩
  · have hle := Heap.le_weigh (w := fun obj => obj.amap.array.length) hget
    rw [length_array, if_neg hchunks] at hle
    exact hle

/-- The end of `fault_aobj` with a new anon. -/
theorem Inv.fault_new (h : Inv lost s) (hobj : s.objs.get? o = some obj) {t t' : Mem} {page : ℕ}
    (hbal : Bal (s.objs.set o { obj with amap := amap }) t lost)
    (hobjs : t.objs = s.objs.set o { obj with amap := amap }) (hchunks : amap.chunks ≠ none)
    (hnew : anonNew t = some (a, t')) :
    (∃ n, Keeps n lost s (setAmap t' o obj (setAnonAt amap page a))) ∧
      0 < arrays (setAmap t' o obj (setAnonAt amap page a)).objs := by
  obtain ⟨h', hobjs'⟩ := anonNew_bal hbal hnew
  have hget : (s.objs.set o { obj with amap := amap }).get? o = some { obj with amap := amap } := by
    rw [Heap.get?_set hobj, if_pos rfl]
  have hblocks : ({ obj with amap := setAnonAt amap page a } : Object).blocks
      = ({ obj with amap := amap } : Object).blocks := by
    unfold Object.blocks Amap.blocks Amap.array setAnonAt
    dsimp only
    rw [List.length_modify, chunkBlocks_modify]
    exact fun _ => rfl
  have hset := h'.set hget hblocks
  rw [Heap.set_set] at hset
  refine h.fault hobj (setAnonAt amap page a) ⟨hset.kmem, hset.pages⟩ ?_ hchunks
  unfold setAmap
  rw [hobjs', hobjs, Heap.set_set]

/-- **`fault_aobj`**: the object has an array then. -/
theorem faultAobj_keeps {page : ℕ} {flags : FaultFlags} (h : Inv lost s)
    (hs : faultAobj s o page flags = some s') : (∃ n, Keeps n lost s s') ∧ 0 < arrays s'.objs := by
  obtain ⟨obj, hobj, hs⟩ := Option.bind_eq_some_iff.mp hs
  obtain ⟨⟨amap, s₁⟩, hat, hs⟩ := Option.bind_eq_some_iff.mp hs
  -- the object is taken out of the balance while its amap grows
  have hopen : Bal (s.objs.free o) s (obj.amap.blocks ++ ((obj.block, sizeofObject) :: lost)) :=
    (h.bal.open hobj).perm List.perm_middle.symm
  obtain ⟨h₁, hobjs₁, -, hchunks⟩ := amapAnonAt_bal hopen (h.wf o obj hobj) hat
  have h₂ : Bal (s.objs.set o { obj with amap := amap }) (setAmap s₁ o obj amap) lost := by
    have hclose := Bal.close hobj { obj with amap := amap } (h₁.perm List.perm_middle)
    exact ⟨hclose.kmem, hclose.pages⟩
  have hobjs₂ : (setAmap s₁ o obj amap).objs = s.objs.set o { obj with amap := amap } := by
    unfold setAmap
    rw [hobjs₁]
  have hdone := h.fault hobj amap h₂ hobjs₂ hchunks
  dsimp only at hs
  split at hs
  · rename_i a _
    obtain ⟨anon, hanon, hs⟩ := Option.bind_eq_some_iff.mp hs
    split at hs
    · split at hs
      · split at hs
        · -- the anon is shared: a copy takes its place
          obtain ⟨⟨new, s₃⟩, hnew, hs⟩ := Option.bind_eq_some_iff.mp hs
          cases hs
          exact h.fault_new hobj (h₂.setRefcnt hanon _) hobjs₂ hchunks hnew
        · split at hs
          · cases hs
          · cases hs
            exact hdone
      · split at hs
        · cases hs
        · cases hs
          exact hdone
    · split at hs
      · cases hs
      · cases hs
        exact hdone
  · obtain ⟨⟨new, s₃⟩, hnew, hs⟩ := Option.bind_eq_some_iff.mp hs
    cases hs
    exact h.fault_new hobj h₂ hobjs₂ hchunks hnew

/-- Each call. -/
theorem step_keeps {x : Action} (h : Inv lost s) (hs : step s x = some s') :
    (∃ n, Keeps n lost s s') ∧ (x.isFault → 0 < arrays s'.objs) := by
  cases x with
  | vmAobjNew size => exact ⟨⟨0, (vmAobjNew_keeps h hs).1⟩, fun hf => by cases hf⟩
  | vmObjectCopy o => exact ⟨⟨1, (vmObjectCopy_keeps h hs).1⟩, fun hf => by cases hf⟩
  | vmObjectRetain o =>
      obtain ⟨obj, hobj, hs⟩ := Option.bind_eq_some_iff.mp hs
      cases hs
      exact ⟨⟨0, h.setRefcnt hobj _⟩, fun hf => by cases hf⟩
  | vmObjectRelease o => exact ⟨⟨0, vmObjectRelease_keeps h hs⟩, fun hf => by cases hf⟩
  | fault o page flags =>
      obtain ⟨hkeeps, hpos⟩ := faultAobj_keeps h hs
      exact ⟨hkeeps, fun _ => hpos⟩

/-- The blocks as long as no object has an array. -/
structure Clean (s : Mem) : Prop where
  inv : Inv [] s
  arrays_eq : arrays s.objs = 0
  anons : ∀ a, s.anons.get? a = none

/-- A call that loses nothing and leaves the anons leaves nothing behind. -/
theorem Clean.of_keeps (h : Clean s) (hkeeps : Keeps 0 [] s s') (hanons : s'.anons = s.anons) : Clean s' := by
  obtain ⟨lost, hinv, hcount⟩ := hkeeps
  rw [h.arrays_eq, List.length_nil] at hcount
  obtain rfl : lost = [] := List.length_eq_zero_iff.mp (by omega)
  exact ⟨hinv, by omega, hanons ▸ h.anons⟩

/-- Each call that is not a page fault keeps this. -/
theorem Clean.step {x : Action} (h : Clean s) (hx : x.isFault = false) (hs : step s x = some s') : Clean s' := by
  cases x with
  | vmAobjNew size =>
      obtain ⟨hkeeps, hanons⟩ := vmAobjNew_keeps h.inv hs
      exact h.of_keeps hkeeps hanons
  | vmObjectCopy o => exact absurd h.arrays_eq (vmObjectCopy_keeps h.inv hs).2
  | vmObjectRetain o =>
      obtain ⟨obj, hobj, hs⟩ := Option.bind_eq_some_iff.mp hs
      cases hs
      exact h.of_keeps (h.inv.setRefcnt hobj _) rfl
  | vmObjectRelease o =>
      refine h.of_keeps (vmObjectRelease_keeps h.inv hs) ?_
      obtain ⟨obj, hobj, hs⟩ := Option.bind_eq_some_iff.mp hs
      dsimp only at hs
      split at hs
      · cases hs
        rfl
      · -- the amap has no chunks
        obtain ⟨s₁, hrelease, hs⟩ := Option.bind_eq_some_iff.mp hs
        obtain ⟨s₂, hfree, hs⟩ := Option.bind_eq_some_iff.mp hs
        cases hs
        unfold amapRelease at hrelease
        rw [h.inv.wf o obj hobj (chunks_eq_none h.arrays_eq hobj)] at hrelease
        have hrelease : kmemFree s obj.amap.block sizeofAmap = some s₁ := hrelease
        exact (kmemFree_anons hfree).trans (kmemFree_anons hrelease)
  | fault o page flags => cases hx

/-! ## Runs -/

/-- A run keeps the blocks balanced, and has lost an array or has one once there was a page fault. -/
theorem exec_keeps {l : List Action} (h : Inv lost s) (hs : machine.exec s l = some s') :
    ∃ lost', Inv lost' s' ∧ lost.length + arrays s.objs ≤ lost'.length + arrays s'.objs ∧
      ((∃ x ∈ l, x.isFault) → 0 < lost'.length + arrays s'.objs) := by
  induction l generalizing s lost with
  | nil =>
      cases hs
      exact ⟨lost, h, Nat.le_refl _, by simp⟩
  | cons x l ih =>
      rw [Machine.exec_cons] at hs
      obtain ⟨t, hstep, hs⟩ := Option.bind_eq_some_iff.mp hs
      obtain ⟨⟨n, lost₁, h₁, hcount⟩, hfault⟩ := step_keeps h hstep
      obtain ⟨lost₂, h₂, hle, hfault₂⟩ := ih h₁ hs
      refine ⟨lost₂, h₂, by omega, ?_⟩
      rintro ⟨y, hy, hyf⟩
      rcases List.mem_cons.mp hy with rfl | hy
      · have hpos := hfault hyf
        omega
      · exact hfault₂ ⟨y, hy, hyf⟩

/-- A run without page faults. -/
theorem exec_clean {l : List Action} (h : Clean s) (hl : ∀ x ∈ l, x.isFault = false)
    (hs : machine.exec s l = some s') : Clean s' := by
  induction l generalizing s with
  | nil =>
      cases hs
      exact h
  | cons x l ih =>
      rw [Machine.exec_cons] at hs
      obtain ⟨t, hstep, hs⟩ := Option.bind_eq_some_iff.mp hs
      exact ih (h.step (hl x List.mem_cons_self) hstep) (fun y hy => hl y (List.mem_cons_of_mem _ hy)) hs

/-- The invariant at the start. -/
theorem inv_start : Inv [] start where
  bal := ⟨Ledger.balanced_empty, Ledger.balanced_empty⟩
  wf o obj hobj := by cases hobj

/-- Nothing is left behind at the start. -/
theorem clean_start : Clean start := ⟨inv_start, rfl, fun _ => rfl⟩

/-- Nothing is held without objects and anons. -/
theorem weigh_eq_zero_of_none {α : Type*} {h : Heap α} (hnone : ∀ i, h.get? i = none) (w : α → ℕ) :
    h.weigh w = 0 := Heap.weigh_eq_zero fun i x hx => by rw [hnone i] at hx; cases hx

/-- **The blocks of objects.** For every run of `vm_aobj_new`, `vm_object_copy`, `vm_object_retain`,
`vm_object_release` and page faults after which there is no object: every block was freed exactly once, with
the size that it was allocated with, and every page was freed exactly once, if and only if there was no page
fault in the run. -/
theorem blocks_returned_iff {l : List Action} (hs : machine.exec start l = some s)
    (hreleased : ∀ o, s.objs.get? o = none) : AllReturned s ↔ ∀ x ∈ l, x.isFault = false := by
  have hobjs := weigh_eq_zero_of_none hreleased
  constructor
  · intro hret x hx
    by_contra hfault
    obtain ⟨lost, hinv, -, hpos⟩ := exec_keeps inv_start hs
    have hpos := hpos ⟨x, hx, by simpa using hfault⟩
    have harrays : arrays s.objs = 0 := hobjs _
    obtain ⟨y, lost, rfl⟩ := List.exists_cons_of_ne_nil (List.ne_nil_of_length_pos (l := lost) (by omega))
    -- a lost block was not freed
    have hzero := (Ledger.returned_iff hinv.bal.kmem).mp hret.1 y
    rw [List.count_cons_self] at hzero
    omega
  · intro hl
    have hclean := exec_clean clean_start hl hs
    have hanons := weigh_eq_zero_of_none hclean.anons
    constructor
    · refine (Ledger.returned_iff hclean.inv.bal.kmem).mpr fun x => ?_
      unfold held
      rw [hobjs, hanons, List.count_nil]
    · exact (Ledger.returned_iff hclean.inv.bal.pages).mpr fun x => hanons _

/-- Without objects there is none to find. -/
theorem get?_of_dom_nil (hdom : s.objs.dom = []) (o : ObjId) : s.objs.get? o = none := by
  unfold Heap.get?
  rw [hdom]
  rfl

/-- Two objects, of which one has two references for a while. -/
theorem blocks_returned_two :
    ∃ s, machine.exec start [.vmAobjNew 0x2000, .vmAobjNew 0x1000, .vmObjectRetain 0, .vmObjectRelease 0,
      .vmObjectRelease 2, .vmObjectRelease 0] = some s ∧ s.kmem.next = 4 ∧ AllReturned s := by
  have hrun : (machine.exec start [.vmAobjNew 0x2000, .vmAobjNew 0x1000, .vmObjectRetain 0,
      .vmObjectRelease 0, .vmObjectRelease 2, .vmObjectRelease 0]).map (fun s => (s.objs.dom, s.kmem.next))
        = some ([], 4) := by
    decide +kernel
  obtain ⟨s, hs, hend⟩ := Option.map_eq_some_iff.mp hrun
  obtain ⟨hdom, hnext⟩ := Prod.mk.inj hend
  exact ⟨s, hs, hnext, (blocks_returned_iff hs (get?_of_dom_nil hdom)).mpr (by decide)⟩

/-- One page fault: the array, which is the block with the number 2, is not freed. -/
theorem array_not_freed :
    ∃ s, machine.exec start [.vmAobjNew 0x1000, .fault 0 0 ⟨false, true⟩, .vmObjectRelease 0] = some s ∧
      (∀ o, s.objs.get? o = none) ∧ (2, 8) ∈ s.kmem.allocated ∧ (∀ x ∈ s.kmem.freed, x.1 ≠ 2) ∧
      ¬ AllReturned s := by
  have hrun : (machine.exec start [.vmAobjNew 0x1000, .fault 0 0 ⟨false, true⟩, .vmObjectRelease 0]).map
      (fun s => (s.objs.dom, s.kmem.allocated, s.kmem.freed))
        = some ([], [(4, 56), (3, 256), (2, 8), (1, 16), (0, 88)], [(0, 88), (1, 16), (3, 256), (4, 56)]) := by
    decide +kernel
  obtain ⟨s, hs, hend⟩ := Option.map_eq_some_iff.mp hrun
  obtain ⟨hdom, hledger⟩ := Prod.mk.inj hend
  obtain ⟨hallocated, hfreed⟩ := Prod.mk.inj hledger
  have hmem : (2, 8) ∈ s.kmem.allocated := by
    rw [hallocated]
    decide
  refine ⟨s, hs, get?_of_dom_nil hdom, hmem, ?_, fun hret => ?_⟩
  · rw [hfreed]
    decide
  · have honce := hret.1 2 8 hmem
    rw [hfreed] at honce
    cases honce

end Scalux.Vm.Blocks
