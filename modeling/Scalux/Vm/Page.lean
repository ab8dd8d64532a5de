import Scalux.Lib.Run
import Scalux.Kern.Config

/-! # Physical pages and their queues

`mem_init` (`x86_64/kmain.c`) and `vm_page.c`: the resident page table that boot builds from the
memory map, and the calls that move pages between the six page queues afterwards.

A page's queue is recorded twice, by the list it is linked into and by its `queue` tag, which
`vm_page_queue` decodes.  `TAILQ_REMOVE` follows the page's own links, so it unlinks the page from
the list it is really on, whichever head it is given; the head it is given only loses a page from
its count.  (It also overwrites that head's `tqh_last`, which nothing reads after boot: every later
insertion is at a head.) -/

namespace Scalux.Pageq

/-- `enum vm_page_queue`: the tag in a page. -/
inductive Tag
  | kVMPageFree
  | kVMPageKMem
  | kVMPageWired
  | kVMPageActive
  | kVMPageInactive
  | kVMPagePMap
  deriving DecidableEq, Repr

/-- The six page queues. -/
inductive Queue
  | vmPgfreeq
  | vmPgkmemq
  | vmPgwiredq
  | vmPgactiveq
  | vmPginactiveq
  | vmPgpmapq
  deriving DecidableEq, Repr

/-- A page descriptor: the base of the region whose resident page table it is in, and its index
there. -/
structure Page where
  region : ℕ
  index : ℕ
  deriving DecidableEq, Repr

/-- `page->paddr`. -/
def Page.paddr (p : Page) : ℕ := p.region + pgSize * p.index

/-- `struct limine_memmap_entry`. -/
structure MemMapEntry where
  base : ℕ
  length : ℕ
  type : ℕ
  deriving DecidableEq, Repr

/-- The entries `mem_init` does not skip: usable memory above the first MiB. -/
def MemMapEntry.usable (e : MemMapEntry) : Bool := e.type = 0 && 0x100000 ≤ e.base

/-- `bm->npages`. -/
def MemMapEntry.npages (e : MemMapEntry) : ℕ := e.length / pgSize

/-- `sizeof(vm_page_t)`. -/
def sizeofPage : ℕ := 88

/-- `sizeof(vm_pregion_t)`. -/
def sizeofPregion : ℕ := 32

/-- The pages at the start of a region that hold its resident page table: `used / PGSIZE`. -/
def MemMapEntry.usedPages (e : MemMapEntry) : ℕ :=
  pgRoundUp (sizeofPregion + sizeofPage * e.npages) / pgSize

/-- A memory map as the boot protocol hands it over: the usable regions are page-aligned, not empty,
of fewer than `2 ^ 31` pages, and no two regions overlap. -/
structure MemMap where
  entries : List MemMapEntry
  aligned : ∀ e ∈ entries, e.usable = true →
    pgSize ∣ e.base ∧ pgSize ∣ e.length ∧ 0 < e.length ∧ e.npages < 2 ^ 31
  disjoint : entries.Pairwise fun d e =>
    d.usable = true → e.usable = true → d.base + d.length ≤ e.base ∨ e.base + e.length ≤ d.base

/-- The regions `mem_init` makes a resident page table for. -/
def MemMap.regions (m : MemMap) : List MemMapEntry := m.entries.filter MemMapEntry.usable

/-- The pages of a memory map. -/
def MemMap.IsPage (m : MemMap) (p : Page) : Prop :=
  ∃ e ∈ m.regions, e.base = p.region ∧ p.index < e.npages

instance (m : MemMap) (p : Page) : Decidable (m.IsPage p) :=
  inferInstanceAs (Decidable (∃ e ∈ m.regions, _))

/-- The tags of the pages and the queues with their counts. -/
structure State where
  /-- `page->queue`. -/
  tag : Page → Tag
  /-- The lists of pages, head first. -/
  queue : Queue → List Page
  /-- `npages` of each queue, a `size_t`. -/
  npages : Queue → ℕ

/-- The body of `mem_init`'s two loops: tag a page and put it at the end of a queue. -/
def bootInsert (g : Tag) (q : Queue) (s : State) (p : Page) : State where
  tag := Function.update s.tag p g
  queue := Function.update s.queue q (s.queue q ++ [p])
  npages := Function.update s.npages q (incr64 (s.npages q))

/-- A page is inserted with its tag. -/
@[simp] theorem bootInsert_tag (g : Tag) (q : Queue) (s : State) (p : Page) :
    (bootInsert g q s p).tag = Function.update s.tag p g := rfl

/-- A page is inserted at the end of its queue. -/
@[simp] theorem bootInsert_queue (g : Tag) (q : Queue) (s : State) (p : Page) :
    (bootInsert g q s p).queue = Function.update s.queue q (s.queue q ++ [p]) := rfl

/-- The descriptors of a region from index `lo` on, `n` of them. -/
def regionPages (e : MemMapEntry) (lo n : ℕ) : List Page :=
  (List.range' lo n).map fun b => ⟨e.base, b⟩

/-- `mem_init` for one entry: the pages of the resident page table go on `vm_pgpmapq`, the others on
`vm_pgfreeq`. -/
def memInitEntry (s : State) (e : MemMapEntry) : State :=
  let s := (regionPages e 0 e.usedPages).foldl (bootInsert .kVMPagePMap .vmPgpmapq) s
  (regionPages e e.usedPages (e.npages - e.usedPages)).foldl (bootInsert .kVMPageFree .vmPgfreeq) s

/-- The state `mem_init` builds. -/
def memInit (m : MemMap) : State :=
  m.regions.foldl memInitEntry
    { tag := fun _ => .kVMPageFree, queue := fun _ => [], npages := fun _ => 0 }

/-- `vm_page_queue`; `none` where it asserts. -/
def vmPageQueue : Tag → Option Queue
  | .kVMPageFree => some .vmPgfreeq
  | .kVMPageKMem => some .vmPgkmemq
  | .kVMPageWired => some .vmPgactiveq
  | .kVMPageActive => some .vmPgactiveq
  | .kVMPageInactive => some .vmPginactiveq
  | .kVMPagePMap => none

/-- `vm_page_changequeue` after it has settled on the queue to take the page from. -/
def moveQueue (s : State) (p : Page) (src dst : Queue) : State :=
  let queue := fun q => (s.queue q).erase p
  let npages := Function.update s.npages src (decr64 (s.npages src))
  { s with
    queue := Function.update queue dst (p :: queue dst)
    npages := Function.update npages dst (incr64 (npages dst)) }

/-- Moving a page between queues leaves the tags. -/
@[simp] theorem moveQueue_tag (s : State) (p : Page) (src dst : Queue) :
    (moveQueue s p src dst).tag = s.tag := rfl

/-- The page goes from its queue to the head of another: `if q = dst then p :: (s.queue dst).erase p else …`. -/
theorem moveQueue_queue (s : State) (p : Page) (src dst q : Queue) :
    (moveQueue s p src dst).queue q
      = if q = dst then p :: (s.queue dst).erase p else (s.queue q).erase p := by
  unfold moveQueue
  dsimp only
  by_cases hq : q = dst
  · rw [if_pos hq, hq, Function.update_self]
  · rw [if_neg hq, Function.update_of_ne hq]

/-- `vm_page_changequeue`; `none` where `vm_page_queue` asserts. -/
def vmPageChangequeue (s : State) (p : Page) (src : Option Queue) (dst : Queue) : Option State :=
  match src with
  | some src => some (moveQueue s p src dst)
  | none => (vmPageQueue (s.tag p)).map fun src => moveQueue s p src dst

/-- `vm_page_free`. -/
def vmPageFree (s : State) (p : Page) : Option State := vmPageChangequeue s p none .vmPgfreeq

/-- `vm_pagealloc`; `none` where it stops because no page is free. -/
def vmPagealloc (s : State) (q : Queue) : Option State :=
  match s.queue .vmPgfreeq with
  | [] => none
  | p :: _ => vmPageChangequeue s p (some .vmPgfreeq) q

/-- A call after boot. -/
inductive Action
  | vmPagealloc (q : Queue)
  | vmPageFree (p : Page)
  | vmPageChangequeue (p : Page) (src : Option Queue) (dst : Queue)
  deriving DecidableEq

/-- One call: only pages that are not free are freed, and a source queue that is named is the one
the page is on. -/
def step (m : MemMap) (s : State) : Action → Option State
  | .vmPagealloc q => vmPagealloc s q
  | .vmPageFree p => if m.IsPage p ∧ p ∉ s.queue .vmPgfreeq then vmPageFree s p else none
  | .vmPageChangequeue p src dst =>
      if m.IsPage p ∧ ∀ q ∈ src, p ∈ s.queue q then vmPageChangequeue s p src dst else none

/-- The page calls of one machine. -/
def machine (m : MemMap) : Machine State Action where
  step := step m

end Scalux.Pageq
