import Scalux.Kern.Config
import Scalux.Kern.VmemQuantum

/-! # The kernel heap

`vm/vm_kernel.c`, with `seg_refill` of `kern/vmem.c`.  Two arenas: `kmap.vmem` holds the addresses of
the kernel heap, and `vm_kernel_wired` imports spans from it that it backs with pages
(`internal_allocwired`).  Both draw their segment tags from the list `free_segs`, which `seg_refill`
fills up with a page of tags that it allocates from `vm_kernel_wired`; so `vmem_xalloc` calls itself,
through `vm_kalloc` and through `allocfn`, and the recursion is bounded here by fuel.

* A tag is the address of a `vmem_seg_t`: one of the 128 static ones, or one in a page of tags.
* The kernel page table is a finite map from page addresses to pages; `vm_pagealloc` returns the
  pages of a list that the environment gives.
* `Stop` says why a call does not return. -/

namespace Scalux.KernelHeap

open Vmem (Arena Tag Flags Source withPool)

/-- Why a call does not return. -/
inductive Stop
  /-- The assertion of `seg_alloc`: there is no unused tag. -/
  | segAlloc
  /-- `internal_allocwired` reports that the kernel heap is exhausted, or there is no page. -/
  | outOfMemory
  /-- Another assertion, a `fatal` or a null link. -/
  | assertion
  /-- The loop counter of a page loop, an `int`, overflows. -/
  | overflow
  /-- The bound on the recursion is reached. -/
  | fuel
  deriving DecidableEq, Repr

/-- The two arenas. -/
inductive ArenaId
  | kmap
  | wired
  deriving DecidableEq, Repr

/-- The state of the kernel heap. -/
structure Heap where
  /-- `kmap.vmem`. -/
  kmap : Arena Unit
  /-- `vm_kernel_wired`. -/
  wired : Arena Unit
  /-- `free_segs`; `nfreesegs` is its length. -/
  freeSegs : List Tag
  /-- The blocks `seg_refill` has made into tags. -/
  segBlocks : List ℕ
  /-- The kernel page table: the page that is mapped at an address. -/
  ptes : ℕ → Option ℕ
  /-- The pages that `vm_pagealloc` returns next. -/
  pages : List ℕ

/-- An arena, with the shared list of unused tags. -/
def Heap.arena (h : Heap) : ArenaId → Arena Unit
  | .kmap => withPool h.kmap h.freeSegs
  | .wired => withPool h.wired h.freeSegs

/-- Assigning an arena, and the shared list with it. -/
def Heap.setArena (h : Heap) (a : ArenaId) (v : Arena Unit) : Heap :=
  match a with
  | .kmap => { h with kmap := v, freeSegs := v.freeSegs }
  | .wired => { h with wired := v, freeSegs := v.freeSegs }

/-- A result or the reason why there is none. -/
def orStop {α : Type} (s : Stop) : Option α → Except Stop α
  | none => .error s
  | some a => .ok a

/-! ## Tags -/

/-- `seg_alloc`. -/
def segAlloc (h : Heap) : Except Stop (Tag × Heap) :=
  match h.freeSegs with
  | [] => .error .segAlloc
  | t :: rest => .ok (t, { h with freeSegs := rest })

/-- The tags of a `struct seg_block`: 63 chunks of 64 bytes, the tag at offset 8 of each, after the
16 bytes of the block's own link. -/
def segBlockTags (block : ℕ) : List Tag := (List.range 63).map fun i : ℕ => (block + 24 + 64 * i : ℕ)

/-- `seg_refill`; it fills up when fewer than 128 tags are left, with a block from `vm_kalloc`. -/
def segRefill (kalloc : Heap → Except Stop (Except ℤ ℕ × Heap)) (h : Heap) : Except Stop Heap :=
  if 128 ≤ h.freeSegs.length then .ok h
  else do
    let (r, h) ← kalloc h
    match r with
    | .error _ => .error .assertion
    | .ok block =>
        return { h with
          segBlocks := block :: h.segBlocks
          freeSegs := (segBlockTags block).reverse ++ h.freeSegs }

/-- `if (!(flags & kVMemBootstrap)) seg_refill(flags)`. -/
def refillUnless (bootstrap : Bool) (kalloc : Heap → Except Stop (Except ℤ ℕ × Heap)) (h : Heap) :
    Except Stop Heap :=
  if bootstrap then .ok h else segRefill kalloc h

/-! ## Pages -/

/-- `vm_pagealloc`. -/
def vmPagealloc (h : Heap) : Except Stop (ℕ × Heap) :=
  match h.pages with
  | [] => .error .outOfMemory
  | page :: rest => .ok (page, { h with pages := rest })

/-- `pmap_enter_kern`. -/
def pmapEnterKern (h : Heap) (page virt : ℕ) : Heap :=
  { h with ptes := Function.update h.ptes virt (some page) }

/-- `pmap_unenter_kern`, whose page `vm_page_free` then frees. -/
def pmapUnenterKern (h : Heap) (virt : ℕ) : Except Stop Heap :=
  match h.ptes virt with
  | none => .error .assertion
  | some _ => .ok { h with ptes := Function.update h.ptes virt none }

/-- The values of the loop counter of `for (int i = 0; i < bound; i += PGSIZE)`. -/
def pageOffsets (bound : ℕ) : List ℕ :=
  (List.range ((bound + (pgSize - 1)) / pgSize)).map (· * pgSize)

/-- The loop counter overflows if the last value below the bound is less than a page from `2 ^ 31`. -/
def loopOk (bound : ℕ) : Bool := bound ≤ 2 ^ 31 - pgSize

/-! ## The source of `vm_kernel_wired` -/

/-- The body of the page loop of `internal_allocwired`. -/
def wirePage (out : ℕ) (h : Heap) (i : ℕ) : Except Stop Heap := do
  let (page, h) ← vmPagealloc h
  return pmapEnterKern h page (out + i)

/-- `internal_allocwired`, with the call of `vmem_xalloc` on `kmap.vmem`. -/
def internalAllocwired (xalloc : Heap → Except Stop (Except ℤ ℕ × Heap)) (size : ℕ) (h : Heap) :
    Except Stop (ℕ × Heap) := do
  let (r, h) ← xalloc h
  match r with
  | .error _ => .error .outOfMemory
  | .ok out =>
      if loopOk (size - 1) then
        let h ← (pageOffsets (size - 1)).foldlM (wirePage out) h
        return (out, h)
      else .error .overflow

/-- `internal_freewired`. -/
def internalFreewired (h : Heap) (addr size : ℕ) : Except Stop Heap := do
  let (r, v) ← orStop .assertion (Vmem.vmemXfree none (h.arena .kmap) addr)
  let h := h.setArena .kmap v
  if r < 0 then return h
  else
    let r := (Int.bmod size (2 ^ 32)).toNat
    if loopOk r then
      (pageOffsets r).foldlM (fun h i => pmapUnenterKern h (addr + i)) h
    else .error .overflow

/-! ## `vmem_xalloc` and `vmem_xfree` of the two arenas -/

/-- `vmem_xalloc` on either arena; `bootstrap` is the flag `kVMemBootstrap`.  `vm_kalloc` passes on
no flag but that one. -/
def vmemXalloc : ℕ → ArenaId → (size align phase min max : ℕ) → Flags → (bootstrap : Bool) → Heap →
    Except Stop (Except ℤ ℕ × Heap)
  | 0, _, _, _, _, _, _, _, _, _ => .error .fuel
  | fuel + 1, a, size, align, phase, min, max, flags, bootstrap, h =>
      if align = 0 ∧ phase = 0 ∧ (min = 0 ∨ flags.exact) ∧ max = 0 then do
        let h ← refillUnless bootstrap (vmemXalloc fuel .wired pgSize 0 0 0 0 ⟨false⟩ true) h
        if size = 0 then .error .assertion
        else
          let (newlseg, h) ← segAlloc h
          let (newrseg, h) ← segAlloc h
          match Vmem.search (h.arena a) size min flags (Vmem.searchIndices size) with
          -- `split_seg`, from the segment that the search has found
          | some (freeseg, addr) =>
              let v ← orStop .assertion
                (Vmem.splitSeg (h.arena a) freeseg newlseg newrseg addr size)
              return (.ok addr, h.setArena a v)
          | none =>
              match a with
              -- the arena of the kernel map has no source to import from
              | .kmap => return (.error (-Vmem.eResourceExhausted), h)
              | .wired =>
                  let (addr, h) ← internalAllocwired
                    (vmemXalloc fuel .kmap size 0 0 0 0 flags bootstrap) size h
                  -- the only way to fail here is that there is no unused tag
                  let (freeseg, v) ← orStop .segAlloc
                    (Vmem.vmemAddInternal (h.arena .wired) .kVMemSegSpanImported addr size)
                  let addr := (v.seg freeseg).base
                  let v ← orStop .assertion (Vmem.splitSeg v freeseg newlseg newrseg addr size)
                  return (.ok addr, h.setArena .wired v)
      else .error .assertion

/-- An arena with another state behind its source. -/
def withEnv {E F : Type} (v : Arena E) (env : F) : Arena F :=
  { seg := v.seg, segqueue := v.segqueue, spanlist := v.spanlist, freelist := v.freelist,
    hashtab := v.hashtab, freeSegs := v.freeSegs, env := env }

/-- What `vmem_xfree` of `vm_kernel_wired` gives spans back to; it does not call `allocfn`. -/
def wiredSource : Source Heap where
  allocfn _ _ _ _ := none
  freefn h pool addr size :=
    (internalFreewired { h with freeSegs := pool } addr size).toOption.map fun h => (h, h.freeSegs)

/-- `vmem_xfree` on either arena. -/
def vmemXfree (a : ArenaId) (addr : ℕ) (h : Heap) : Except Stop Heap :=
  match a with
  | .kmap => do
      let (_, v) ← orStop .assertion (Vmem.vmemXfree none (h.arena .kmap) addr)
      return h.setArena .kmap v
  | .wired => do
      let (_, v) ← orStop .assertion
        (Vmem.vmemXfree (some wiredSource) (withEnv (h.arena .wired) h) addr)
      return v.env.setArena .wired (withEnv v ())

/-! ## The calls of the kernel -/

/-- `static_segs`: 128 tags outside the kernel heap. -/
def staticSegs : List Tag := List.range 128

/-- `vm_kernel_init`, with `vmem_earlyinit`; the page table is what it was.  `vm_kernel_wired` is set
up with no size, so that its source does not matter yet. -/
def vmKernelInit (ptes : ℕ → Option ℕ) : Option Heap := do
  let seg : Tag → Vmem.Seg := fun _ => ⟨.kVMemSegFree, 0, 0⟩
  let kmap ← Vmem.vmemInit none seg staticSegs.reverse () kheapBase kheapSize
  let wired ← Vmem.vmemInit none seg kmap.freeSegs () 0 0
  return ⟨kmap, wired, wired.freeSegs, [], ptes, []⟩

/-- `vm_kalloc` with `kVMKSleep` or `kVMKNoSleep`; the size is a 64-bit product. -/
def vmKalloc (fuel npages : ℕ) (h : Heap) : Except Stop (Except ℤ ℕ × Heap) :=
  vmemXalloc fuel .wired (npages * pgSize % 2 ^ 64) 0 0 0 0 ⟨false⟩ false h

/-- `vm_kfree`; the number of pages is not used. -/
def vmKfree (addr : ℕ) (h : Heap) : Except Stop Heap := vmemXfree .wired addr h

end Scalux.KernelHeap
