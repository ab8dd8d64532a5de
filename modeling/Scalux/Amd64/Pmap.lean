import Scalux.Lib.Heap
import Scalux.Lib.Run
import Scalux.Kern.Config

/-! # Page tables

`x86_64/vm.c`: the four levels of page tables that the processor walks, as the kernel builds them in
physical memory.

* Memory is read and written through the direct map, so an address here is a physical one: `P2V` and
  `V2P` are left out.  A table is a page of 512 words.
* `vm_pagealloc` takes the first page of `vm_pgfreeq` and clears it; `vm_page_free` puts a page there.
  The rest of the kernel takes pages and gives them back too, so the pages may come in any order:
  `requeue`.  The pages it holds are then those that do not come up.
* `struct pmap` is the address of the top table; a map and its pmap have one identity.
* `none` stands for a failed assertion, a `fatal`, or the dereference of an invalid pointer. -/

namespace Scalux.Pmap

/-- The address of a `pmap_t`. -/
abbrev PmapId := ℕ

/-- `kmap.pmap`. -/
def kpmap : PmapId := 0

/-! ## Page table entries -/

def kMMUPresent : BitVec 64 := 0x1

def kMMUWrite : BitVec 64 := 0x2

def kMMUUser : BitVec 64 := 0x4

def kMMUDefaultProt : BitVec 64 := kMMUPresent ||| kMMUWrite ||| kMMUUser

def kMMUFrame : BitVec 64 := 0x000FFFFFFFFFF000

/-- `vm_prot_t`. -/
structure Prot where
  /-- `kVMRead`. -/
  read : Bool
  /-- `kVMWrite`. -/
  write : Bool
  /-- `kVMExecute`. -/
  execute : Bool
  deriving DecidableEq, Repr

/-- `pte_get_flags`. -/
def pteGetFlags (pte : BitVec 64) : BitVec 64 := pte &&& ~~~kMMUFrame

/-- `pte_get_addr`. -/
def pteGetAddr (pte : BitVec 64) : BitVec 64 := pte &&& kMMUFrame

/-- What `pte_set` assigns. -/
def pteValue (addr flags : BitVec 64) : BitVec 64 := (addr &&& kMMUFrame) ||| flags

/-- `vm_prot_to_i386`. -/
def vmProtToI386 (prot : Prot) : BitVec 64 :=
  (if prot.read then kMMUPresent else 0) ||| (if prot.write then kMMUWrite else 0) ||| kMMUUser

/-! ## Memory -/

/-- `vm_pregion_t`: a region of memory with its page descriptors. -/
structure Pregion where
  base : ℕ
  npages : ℕ
  deriving DecidableEq, Repr

/-- The memory the functions of `vm.c` act on. -/
structure State where
  /-- The words of physical memory, by their addresses. -/
  mem : ℕ → BitVec 64
  /-- `vm_pgfreeq`: the addresses of the pages. -/
  freeq : List ℕ
  /-- `vm_pregion_queue`. -/
  pregions : List Pregion
  /-- `pmap->pml4`. -/
  pmaps : Heap ℕ
  /-- `page->pv_table`, by the address of the page. -/
  pv : ℕ → List (PmapId × ℕ)

/-- `pte_set`. -/
def pteSet (s : State) (pte : ℕ) (addr flags : BitVec 64) : State :=
  { s with mem := Function.update s.mem pte (pteValue addr flags) }

/-- `memset` of a page to zero. -/
def clearPage (mem : ℕ → BitVec 64) (page : ℕ) : ℕ → BitVec 64 := fun a =>
  if page ≤ a ∧ a < page + pgSize then 0 else mem a

/-- `vm_pagealloc`. -/
def vmPagealloc (s : State) : Option (ℕ × State) :=
  match s.freeq with
  | [] => none
  | page :: freeq => some (page, { s with freeq := freeq, mem := clearPage s.mem page })

/-- `vm_page_free`. -/
def vmPageFree (s : State) (page : ℕ) : State := { s with freeq := page :: s.freeq }

/-- `vm_page_from_paddr`: the address of the page. -/
def vmPageFromPaddr (pregions : List Pregion) (paddr : ℕ) : Option ℕ :=
  (pregions.find? fun preg => preg.base ≤ paddr && paddr < preg.base + pgSize * preg.npages).map
    fun preg => preg.base + pgSize * ((paddr - preg.base) / pgSize)

/-! ## Walking -/

/-- `(virta >> 39) & 0x1FF`. -/
def pml4i (virt : ℕ) : ℕ := virt >>> 39 &&& 0x1FF

/-- `(virta >> 30) & 0x1FF`. -/
def pdpti (virt : ℕ) : ℕ := virt >>> 30 &&& 0x1FF

/-- `(virta >> 21) & 0x1FF`. -/
def pdi (virt : ℕ) : ℕ := virt >>> 21 &&& 0x1FF

/-- `(virta >> 12) & 0x1FF`. -/
def pti (virt : ℕ) : ℕ := virt >>> 12 &&& 0x1FF

/-- `&table[index]`. -/
def entryOf (table index : ℕ) : ℕ := table + 8 * index

/-- `pmap_descend`; 0 is `NULL`. -/
def pmapDescend (s : State) (table index : ℕ) (alloc : Bool) (mmuprot : BitVec 64) :
    Option (ℕ × State) :=
  let entry := entryOf table index
  if s.mem entry &&& kMMUPresent ≠ 0 then some ((pteGetAddr (s.mem entry)).toNat, s)
  else if alloc then do
    let (page, s) ← vmPagealloc s
    return (page, pteSet s entry (BitVec.ofNat 64 page) mmuprot)
  else some (0, s)

/-- `pmap_fully_descend`; 0 is `NULL`. -/
def pmapFullyDescend (s : State) (m : PmapId) (virt : ℕ) : Option ℕ := do
  let pml4 ← s.pmaps.get? m
  let (pdptes, s) ← pmapDescend s pml4 (pml4i virt) false 0
  if pdptes = 0 then return 0
  else
    let (pdes, s) ← pmapDescend s pdptes (pdpti virt) false 0
    if pdes = 0 then return 0
    else
      let (ptes, _) ← pmapDescend s pdes (pdi virt) false 0
      if ptes = 0 then return 0
      else return entryOf ptes (pti virt)

/-! ## Mapping -/

/-- `pmap_enter_kern`. -/
def pmapEnterKern (s : State) (m : PmapId) (phys : BitVec 64) (virt : ℕ) (prot : Prot) :
    Option State := do
  let pml4 ← s.pmaps.get? m
  let (pdpte, s) ← pmapDescend s pml4 (pml4i virt) true kMMUDefaultProt
  let (pde, s) ← pmapDescend s pdpte (pdpti virt) true kMMUDefaultProt
  let (pte, s) ← pmapDescend s pde (pdi virt) true kMMUDefaultProt
  return pteSet s (entryOf pte (pti virt)) phys (vmProtToI386 prot)

/-- Assigning the `pv_table` of a page. -/
def setPv (s : State) (page : ℕ) (l : List (PmapId × ℕ)) : State :=
  { s with pv := Function.update s.pv page l }

/-- `pmap_enter`. -/
def pmapEnter (s : State) (m : PmapId) (page : ℕ) (virt : ℕ) (prot : Prot) : Option State := do
  let s ← pmapEnterKern s m (BitVec.ofNat 64 page) virt prot
  return setPv s page ((m, virt) :: s.pv page)

/-- `pmap_unenter`; fatal if it has to look for the `pv_entry` and the page has none. -/
def pmapUnenter (s : State) (m : PmapId) (page : Option ℕ) (vaddr : ℕ) (pv : Option (PmapId × ℕ)) :
    Option State := do
  let pte ← pmapFullyDescend s m vaddr
  if pte = 0 then return s
  else
    let paddr := pteGetAddr (s.mem pte)
    if s.mem pte = 0 then return s
    else
      let s := { s with mem := Function.update s.mem pte 0 }
      -- without a page from the caller it is looked up by its address
      let page ← page.or (vmPageFromPaddr s.pregions paddr.toNat)
      let ent := pv.getD (m, vaddr)
      if pv.isSome ∨ ent ∈ s.pv page then return setPv s page ((s.pv page).erase ent) else none

/-- `pmap_unenter_kern`. -/
def pmapUnenterKern (s : State) (m : PmapId) (vaddr : ℕ) : Option (ℕ × State) := do
  let pte ← pmapFullyDescend s m vaddr
  if pte = 0 then none
  else
    let paddr := pteGetAddr (s.mem pte)
    if s.mem pte = 0 then none
    else
      let s := { s with mem := Function.update s.mem pte 0 }
      let page ← vmPageFromPaddr s.pregions paddr.toNat
      return (page, s)

/-! ## Making and freeing page tables -/

/-- The loop of `x64_vm_init` at one entry. -/
def preallocate (pml4 : ℕ) (s : State) (i : ℕ) : Option State :=
  if pteGetAddr (s.mem (entryOf pml4 i)) = 0 then do
    let (page, s) ← vmPagealloc s
    return pteSet s (entryOf pml4 i) (BitVec.ofNat 64 page) kMMUDefaultProt
  else some s

/-- `x64_vm_init`; the top table is the one the boot loader has left in `cr3`. -/
def x64VmInit (s : State) : Option State := do
  let pml4 ← s.pmaps.get? kpmap
  (List.range' 255 256).foldlM (preallocate pml4) s

/-- `pmap_new`. -/
def pmapNew (s : State) (m : PmapId) : Option State := do
  let (pml4, s) ← vmPagealloc s
  let kpml4 ← s.pmaps.get? kpmap
  let pmaps ← s.pmaps.alloc m pml4
  return (List.range' 255 257).foldl (fun s i =>
    pteSet s (entryOf pml4 i) (s.mem (entryOf kpml4 i)) kMMUDefaultProt) { s with pmaps := pmaps }

/-- The end of `pmap_free_sub`. -/
def freeTable (s : State) (table : ℕ) : Option State := do
  let page ← vmPageFromPaddr s.pregions table
  return vmPageFree s page

/-- `pmap_free_sub`. -/
def pmapFreeSub : ℕ → State → ℕ → Option State
  | 0, s, table => if table = 0 then some s else freeTable s table
  | level + 1, s, table =>
      if table = 0 then some s
      else
        -- the entries of the lowest tables are pages, which stay
        (if 1 < level + 1 then
          (List.range 512).foldlM (fun s i =>
            pmapFreeSub level s (pteGetAddr (s.mem (entryOf table i))).toNat) s
        else some s).bind fun s => freeTable s table

/-- `pmap_free`; neither the top table nor the `pmap_t` is given back. -/
def pmapFree (s : State) (m : PmapId) : Option State := do
  let pml4 ← s.pmaps.get? m
  let s ← (List.range 255).foldlM (fun s i =>
    pmapFreeSub 3 s (pteGetAddr (s.mem (entryOf pml4 i))).toNat) s
  return { s with pmaps := s.pmaps.free m }

/-! ## Runs -/

/-- The addresses that the processor translates: 48 bits, the upper ones all as the last of them. -/
def canonical (virt : ℕ) : Bool := virt < 2 ^ 47 || (2 ^ 64 - 2 ^ 47 ≤ virt && virt < 2 ^ 64)

/-- The calls on page tables. -/
inductive Action
  | pmapNew (m : PmapId)
  | pmapFree (m : PmapId)
  | pmapEnter (m : PmapId) (page virt : ℕ) (prot : Prot)
  | pmapEnterKern (m : PmapId) (phys : BitVec 64) (virt : ℕ) (prot : Prot)
  | pmapUnenter (m : PmapId) (page : Option ℕ) (vaddr : ℕ) (pv : Option (PmapId × ℕ))
  | pmapUnenterKern (m : PmapId) (vaddr : ℕ)
  /-- The rest of the kernel takes pages and gives pages back. -/
  | requeue (freeq : List ℕ)
  deriving DecidableEq, Repr

/-- One call.  Addresses are canonical, and the kernel's page tables are never freed. -/
def step (s : State) : Action → Option State
  | .pmapNew m => pmapNew s m
  | .pmapFree m => if m ≠ kpmap then pmapFree s m else none
  | .pmapEnter m page virt prot => if canonical virt then pmapEnter s m page virt prot else none
  | .pmapEnterKern m phys virt prot =>
      if canonical virt then pmapEnterKern s m phys virt prot else none
  | .pmapUnenter m page vaddr pv =>
      if canonical vaddr then pmapUnenter s m page vaddr pv else none
  | .pmapUnenterKern m vaddr =>
      if canonical vaddr then (pmapUnenterKern s m vaddr).map Prod.snd else none
  | .requeue freeq => if freeq.Perm s.freeq then some { s with freeq := freeq } else none

/-- The calls as a machine. -/
def machine : Machine State Action := ⟨step⟩

end Scalux.Pmap
