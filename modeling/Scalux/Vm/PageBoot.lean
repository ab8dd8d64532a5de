import Scalux.Amd64.Pmap
import Scalux.Vm.PageQueues
import Mathlib.Algebra.BigOperators.Group.List.Basic
import Mathlib.Data.List.Perm.Subperm

/-! # The page tables that boot leaves

`mem_init` (`x86_64/kmain.c`) with the addresses it gives the pages, the regions that
`vm_page_from_paddr` (`vm_page.c`) searches, and the pages that `x64_vm_init` takes at its end.

The address of a page is computed as `bm->base + PGSIZE * b`, and that product is an `int`: it is not
defined from page 524288 on.  The search compares with the end of a region as a 64-bit word, which is
zero where a region ends at the top of the address space.

* **`page_tables_at_boot`**: the page tables are as they should be for the memory maps whose regions
  are of at most 2 GiB, end below the top and leave enough free pages, and for no others.
* **`page_tables_two_gigabytes`**: a region one page longer than 2 GiB. -/

namespace Scalux.PageBoot

open Pageq (Tag Queue Page MemMapEntry MemMap State OnOne memInitEntry moveQueue vmPagealloc
  regionPages sizeofPregion sizeofPage)
open Pmap (Pregion pteGetAddr pteValue kMMUDefaultProt)

/-- The memory map of the boot protocol: the usable regions are page-aligned, not empty, in the
address space, and do not overlap. -/
structure BootMap where
  entries : List MemMapEntry
  aligned : ∀ e ∈ entries, e.usable = true →
    pgSize ∣ e.base ∧ pgSize ∣ e.length ∧ 0 < e.length ∧ e.base + e.length ≤ 2 ^ 64
  disjoint : entries.Pairwise fun d e =>
    d.usable = true → e.usable = true → d.base + d.length ≤ e.base ∨ e.base + e.length ≤ d.base

/-- The regions `mem_init` makes a resident page table for. -/
def BootMap.regions (m : BootMap) : List MemMapEntry := m.entries.filter MemMapEntry.usable

/-- The pages of a memory map. -/
def BootMap.IsPage (m : BootMap) (p : Page) : Prop :=
  ∃ e ∈ m.regions, e.base = p.region ∧ p.index < e.npages

/-- What `mem_init` writes. -/
structure Boot where
  /-- The queues and the tags of the pages. -/
  st : State
  /-- `page->paddr`. -/
  paddr : Page → ℕ
  /-- `vm_pregion_queue`. -/
  pregions : List Pregion
  /-- The top page table of the boot loader. -/
  pml4 : ℕ → BitVec 64

/-- `bm->pages[b].paddr = bm->base + PGSIZE * b`; `none` where the product overflows an `int`, which C
leaves undefined. -/
def setPaddr (e : MemMapEntry) (s : Boot) (b : ℕ) : Option Boot :=
  if pgSize * b < 2 ^ 31 then
    some { s with paddr := Function.update s.paddr ⟨e.base, b⟩ ((e.base + pgSize * b) % 2 ^ 64) }
  else none

/-- The body of `mem_init`'s loop for a usable entry. -/
def memInitRegion (s : Boot) (e : MemMapEntry) : Option Boot := do
  let s ← (List.range e.npages).foldlM (setPaddr e) s
  return { s with st := memInitEntry s.st e, pregions := s.pregions ++ [⟨e.base, e.npages⟩] }

/-- The loop of `x64_vm_init` at one entry; `none` where no page is free. -/
def preallocate (s : Boot) (i : ℕ) : Option Boot :=
  if pteGetAddr (s.pml4 i) = 0 then
    match s.st.queue .vmPgfreeq with
    -- `vm_pagealloc` without a free page is fatal
    | [] => none
    | page :: _ => (vmPagealloc s.st .vmPgpmapq).map fun st =>
        { s with
          st := st
          pml4 := Function.update s.pml4 i
            (pteValue (BitVec.ofNat 64 (s.paddr page)) kMMUDefaultProt) }
  else some s

/-- `x64_vm_init`. -/
def x64VmInit (s : Boot) : Option Boot := (List.range' 255 256).foldlM preallocate s

/-- `mem_init`.  The entries are counted with an `int` too. -/
def memInit (m : BootMap) (pml4 : ℕ → BitVec 64) (garbage : Page → ℕ) : Option Boot := do
  if m.entries.length < 2 ^ 31 then
    let s ← m.regions.foldlM memInitRegion
      { st := { tag := fun _ => .kVMPageFree, queue := fun _ => [], npages := fun _ => 0 }
        paddr := garbage, pregions := [], pml4 := pml4 }
    x64VmInit s
  else none

/-- `vm_page_from_paddr`. -/
def vmPageFromPaddr (pregions : List Pregion) (paddr : ℕ) : Option Page :=
  (pregions.find? fun preg =>
    preg.base ≤ paddr && paddr < (preg.base + pgSize * preg.npages) % 2 ^ 64).map
    fun preg => ⟨preg.base, (paddr - preg.base) / pgSize⟩

/-- The page tables are as they should be. -/
structure PageTables (m : BootMap) (s : Boot) : Prop where
  /-- Every page is on exactly one of the two queues, once. -/
  on_one : ∀ p, m.IsPage p →
    (s.st.queue .vmPgpmapq).count p + (s.st.queue .vmPgfreeq).count p = 1
  /-- The counts are the lengths. -/
  npages_eq : ∀ q, s.st.npages q = (s.st.queue q).length
  /-- No free page overlaps a resident page table. -/
  table_not_free : ∀ e ∈ m.regions, ∀ p ∈ s.st.queue .vmPgfreeq,
    s.paddr p + pgSize ≤ e.base ∨ e.base + (sizeofPregion + sizeofPage * e.npages) ≤ s.paddr p
  /-- The page of an address in a region is found. -/
  found : ∀ e ∈ m.regions, ∀ a, e.base ≤ a → a < e.base + e.length →
    ∃ p, vmPageFromPaddr s.pregions a = some p ∧ m.IsPage p ∧ s.paddr p ≤ a ∧ a < s.paddr p + pgSize
  /-- For every other address nothing is found. -/
  not_found : ∀ a, (∀ e ∈ m.regions, ¬ (e.base ≤ a ∧ a < e.base + e.length)) →
    vmPageFromPaddr s.pregions a = none

/-! ## The loops of `mem_init` -/

section Loops

variable {e : MemMapEntry} {p : Page} {l : List MemMapEntry}

/-- The addresses of the pages of a region, after `n` of them have been set. -/
def withPaddrs (e : MemMapEntry) (n : ℕ) (paddr : Page → ℕ) : Page → ℕ := fun p =>
  if p.region = e.base ∧ p.index < n then p.paddr % 2 ^ 64 else paddr p

theorem withPaddrs_succ (e : MemMapEntry) (n : ℕ) (paddr : Page → ℕ) :
    withPaddrs e (n + 1) paddr
      = Function.update (withPaddrs e n paddr) ⟨e.base, n⟩ ((e.base + pgSize * n) % 2 ^ 64) := by
  funext p
  unfold withPaddrs
  by_cases hp : p = ⟨e.base, n⟩
  · rw [hp, Function.update_self, if_pos ⟨rfl, Nat.lt_succ_self n⟩, Page.paddr]
  · rw [Function.update_of_ne hp]
    refine if_congr (and_congr_right fun hr => ?_) rfl rfl
    have hne : p.index ≠ n := fun hn => hp (by rw [← hr, ← hn])
    omega

/-- The loop over the pages of a region runs to its end if the region has at most 2 GiB. -/
theorem setPaddrs_eq (e : MemMapEntry) (n : ℕ) (s : Boot) :
    (List.range n).foldlM (setPaddr e) s
      = if n ≤ 2 ^ 19 then some { s with paddr := withPaddrs e n s.paddr } else none := by
  induction n with
  | zero =>
      have hnone : withPaddrs e 0 s.paddr = s.paddr := by
        funext p
        exact if_neg fun h => Nat.not_lt_zero _ h.2
      rw [if_pos (Nat.zero_le _), hnone]
      rfl
  | succ n ih =>
      rw [List.range_succ, List.foldlM_append, ih]
      -- the index is an int: its product with the page size is defined up to 2^31
      have hlast : n + 1 ≤ 2 ^ 19 ↔ pgSize * n < 2 ^ 31 := by
        unfold pgSize
        omega
      by_cases hn : n ≤ 2 ^ 19
      · rw [if_pos hn, withPaddrs_succ, Option.bind_eq_bind, Option.bind_some, List.foldlM_cons,
          setPaddr, if_congr hlast rfl rfl]
        split
        · rfl
        · rfl
      · rw [if_neg hn, if_neg (by omega)]
        rfl

/-- The loop over the regions runs to its end if none of them has more than 2 GiB. -/
theorem memInitRegions_eq (l : List MemMapEntry) (s : Boot) :
    l.foldlM memInitRegion s
      = if ∀ e ∈ l, e.npages ≤ 2 ^ 19 then
          some { st := l.foldl memInitEntry s.st
                 paddr := l.foldl (fun f e => withPaddrs e e.npages f) s.paddr
                 pregions := s.pregions ++ l.map fun e => ⟨e.base, e.npages⟩
                 pml4 := s.pml4 }
        else none := by
  induction l generalizing s with
  | nil => rw [if_pos nofun, List.map_nil, List.append_nil]; rfl
  | cons e l ih =>
      rw [List.foldlM_cons, memInitRegion, setPaddrs_eq]
      by_cases he : e.npages ≤ 2 ^ 19
      · rw [if_pos he]
        refine (ih _).trans ?_
        simp only [List.forall_mem_cons, he, true_and, List.foldl_cons, List.map_cons,
          List.append_assoc, List.singleton_append]
      · rw [if_neg he, if_neg fun h => he (h e List.mem_cons_self)]
        rfl

/-- Whatever the order of the regions, their pages have their addresses. -/
theorem foldl_withPaddrs (f : Page → ℕ)
    (hp : (∃ e ∈ l, p.region = e.base ∧ p.index < e.npages) ∨ f p = p.paddr % 2 ^ 64) :
    l.foldl (fun f e => withPaddrs e e.npages f) f p = p.paddr % 2 ^ 64 := by
  induction l generalizing f with
  | nil => exact hp.resolve_left nofun
  | cons e l ih =>
      refine ih _ ?_
      by_cases he : p.region = e.base ∧ p.index < e.npages
      · exact .inr (if_pos he)
      · rcases hp with ⟨d, hd, hpd⟩ | hf
        · rcases List.mem_cons.mp hd with rfl | hd
          · exact absurd hpd he
          · exact .inl ⟨d, hd, hpd⟩
        · exact .inr ((if_neg he).trans hf)

end Loops

/-! ## The queues -/

section Queues

variable {m : MemMap} {st : State} {page p : Page} {rest : List Page} {s s' : Boot} {l : List ℕ}

/-- What holds of the queues at boot: the pages are on `vm_pgpmapq` and `vm_pgfreeq`, the free ones
behind the resident page table of their region, and the counts are the lengths as 64-bit words. -/
structure QueueInv (m : MemMap) (st : State) : Prop where
  on_one : OnOne m st
  two : ∀ p q, p ∈ st.queue q → q = .vmPgpmapq ∨ q = .vmPgfreeq
  counted : ∀ q, st.npages q = (st.queue q).length % 2 ^ 64
  behind : ∀ p ∈ st.queue .vmPgfreeq, ∀ e ∈ m.regions, p.region = e.base → e.usedPages ≤ p.index

/-- Putting a page at the end of a queue counts it. -/
theorem counted_bootInsert (g : Tag) (q : Queue) (p : Page)
    (h : ∀ r, st.npages r = (st.queue r).length % 2 ^ 64) (r : Queue) :
    (Pageq.bootInsert g q st p).npages r
      = ((Pageq.bootInsert g q st p).queue r).length % 2 ^ 64 := by
  unfold Pageq.bootInsert
  dsimp only
  by_cases hr : r = q
  · rw [hr, Function.update_self, Function.update_self, h q, incr64, List.length_append,
      Nat.mod_add_mod]
    rfl
  · rw [Function.update_of_ne hr, Function.update_of_ne hr, h r]

theorem counted_foldl_bootInsert (g : Tag) (q : Queue) (l : List Page)
    (h : ∀ r, st.npages r = (st.queue r).length % 2 ^ 64) :
    ∀ r, (l.foldl (Pageq.bootInsert g q) st).npages r
      = ((l.foldl (Pageq.bootInsert g q) st).queue r).length % 2 ^ 64 := by
  induction l generalizing st with
  | nil => exact h
  | cons p l ih => exact ih (counted_bootInsert g q p h)

/-- The counts after the regions have been set up. -/
theorem counted_foldl_memInitEntry (l : List MemMapEntry)
    (h : ∀ r, st.npages r = (st.queue r).length % 2 ^ 64) :
    ∀ r, (l.foldl memInitEntry st).npages r
      = ((l.foldl memInitEntry st).queue r).length % 2 ^ 64 := by
  induction l generalizing st with
  | nil => exact h
  | cons e l ih =>
      exact ih (counted_foldl_bootInsert _ _ _ (counted_foldl_bootInsert _ _ _ h))

/-- The queues before `x64_vm_init`. -/
theorem queueInv_memInit (m : MemMap) : QueueInv m (Pageq.memInit m) := by
  refine ⟨Pageq.onOne_memInit m, ?_, counted_foldl_memInitEntry _ fun _ => rfl, ?_⟩
  · intro p q hp
    obtain ⟨e, -, -, ⟨hq, -⟩ | ⟨hq, -⟩⟩ := Pageq.mem_memInit_queue.mp hp
    · exact .inl hq
    · exact .inr hq
  · intro p hp e he hbase
    obtain ⟨d, hd, hpd, ⟨hq, -⟩ | ⟨-, hused, -⟩⟩ := Pageq.mem_memInit_queue.mp hp
    · cases hq
    · have hed : e = d := Pageq.eq_of_base_eq he hd (hbase.symm.trans hpd)
      rwa [hed]

/-- `vm_pagealloc` at boot. -/
theorem vmPagealloc_eq (h : st.queue .vmPgfreeq = page :: rest) :
    vmPagealloc st .vmPgpmapq = some (moveQueue st page .vmPgfreeq .vmPgpmapq) := by
  rw [vmPagealloc, h]
  rfl

/-- The free page that is taken is the first. -/
theorem moveQueue_free (h : st.queue .vmPgfreeq = page :: rest) :
    (moveQueue st page .vmPgfreeq .vmPgpmapq).queue .vmPgfreeq = rest := by
  rw [Pageq.moveQueue_queue, if_neg (by decide), h, List.erase_cons_head]

/-- Taking a free page keeps the invariant. -/
theorem QueueInv.moveQueue (hi : QueueInv m st) (h : st.queue .vmPgfreeq = page :: rest) :
    QueueInv m (moveQueue st page .vmPgfreeq .vmPgpmapq) := by
  have hmem : page ∈ st.queue .vmPgfreeq := h ▸ List.mem_cons_self
  have hnot : page ∉ st.queue .vmPgpmapq := fun hp =>
    nomatch hi.on_one.unique _ _ _ hp hmem
  constructor
  case on_one => exact Pageq.onOne_moveQueue hi.on_one (hi.on_one.isPage _ _ hmem)
  case two =>
    intro p q hp
    rw [Pageq.moveQueue_queue] at hp
    split at hp
    · rename_i hq
      exact .inl hq
    · exact hi.two p q (List.mem_of_mem_erase hp)
  case counted =>
    intro q
    have hlen : (st.queue .vmPgfreeq).length = rest.length + 1 := by rw [h, List.length_cons]
    have hother : q ≠ .vmPgpmapq → q ≠ .vmPgfreeq → page ∉ st.queue q := fun _ hq hp =>
      hq (hi.on_one.unique _ _ _ hp hmem)
    rw [Pageq.moveQueue_queue, Pageq.moveQueue]
    dsimp only
    -- the page joins the queue of the page tables and leaves the free one; both counters follow
    by_cases hq : q = .vmPgpmapq
    · rw [hq, Function.update_self, if_pos rfl, Function.update_of_ne (by decide), hi.counted,
        List.length_cons, List.erase_of_not_mem hnot, incr64, Nat.mod_add_mod]
    · rw [Function.update_of_ne hq, if_neg hq]
      by_cases hq' : q = .vmPgfreeq
      · rw [hq', Function.update_self, h, List.erase_cons_head, hi.counted, hlen, decr64,
          Nat.mod_add_mod]
        omega
      · rw [Function.update_of_ne hq', List.erase_of_not_mem (hother hq hq'), hi.counted]
  case behind =>
    intro p hp
    rw [moveQueue_free h] at hp
    exact hi.behind p (h ▸ List.mem_cons_of_mem _ hp)

/-- What the loop of `x64_vm_init` does at a slot without a table. -/
theorem preallocate_cons {i : ℕ} (hi : pteGetAddr (s.pml4 i) = 0)
    (h : s.st.queue .vmPgfreeq = page :: rest) :
    preallocate s i = some { s with
      st := moveQueue s.st page .vmPgfreeq .vmPgpmapq
      pml4 := Function.update s.pml4 i
        (pteValue (BitVec.ofNat 64 (s.paddr page)) kMMUDefaultProt) } := by
  rw [preallocate, if_pos hi]
  split
  · rename_i hnil
    rw [h] at hnil
    cases hnil
  · rename_i page' rest' hcons
    obtain ⟨rfl, rfl⟩ := List.cons.inj (h.symm.trans hcons)
    rw [vmPagealloc_eq h, Option.map_some]

/-- Without a free page it stops. -/
theorem preallocate_nil {i : ℕ} (hi : pteGetAddr (s.pml4 i) = 0)
    (h : s.st.queue .vmPgfreeq = []) : preallocate s i = none := by
  rw [preallocate, if_pos hi]
  split
  · rfl
  · rename_i hcons
    rw [h] at hcons
    cases hcons

/-- One slot of the top table keeps the invariant, the addresses and the regions. -/
theorem preallocate_spec {i : ℕ} (hi : QueueInv m s.st) (hs : preallocate s i = some s') :
    QueueInv m s'.st ∧ s'.paddr = s.paddr ∧ s'.pregions = s.pregions := by
  by_cases hmiss : pteGetAddr (s.pml4 i) = 0
  · cases hfree : s.st.queue .vmPgfreeq with
    | nil => cases (preallocate_nil hmiss hfree).symm.trans hs
    | cons page rest =>
        obtain rfl := Option.some.inj ((preallocate_cons hmiss hfree).symm.trans hs)
        exact ⟨hi.moveQueue hfree, rfl, rfl⟩
  · rw [preallocate, if_neg hmiss] at hs
    obtain rfl := Option.some.inj hs
    exact ⟨hi, rfl, rfl⟩

theorem preallocates_spec (hi : QueueInv m s.st) (hs : l.foldlM preallocate s = some s') :
    QueueInv m s'.st ∧ s'.paddr = s.paddr ∧ s'.pregions = s.pregions := by
  induction l generalizing s with
  | nil =>
      obtain rfl := Option.some.inj hs
      exact ⟨hi, rfl, rfl⟩
  | cons i l ih =>
      rw [List.foldlM_cons] at hs
      obtain ⟨s₁, hs₁, hs⟩ := Option.bind_eq_some_iff.mp hs
      obtain ⟨hi₁, hpaddr₁, hpregions₁⟩ := preallocate_spec hi hs₁
      obtain ⟨hi', hpaddr, hpregions⟩ := ih hi₁ hs
      exact ⟨hi', hpaddr.trans hpaddr₁, hpregions.trans hpregions₁⟩

/-- The slots of the top table that the loop finds empty. -/
def missing (pml4 : ℕ → BitVec 64) (l : List ℕ) : ℕ := l.countP fun i => pteGetAddr (pml4 i) = 0

/-- The loop of `x64_vm_init` runs to its end if there is a free page for every empty slot. -/
theorem preallocates_isSome (hl : l.Nodup) :
    (l.foldlM preallocate s).isSome = true ↔
      missing s.pml4 l ≤ (s.st.queue .vmPgfreeq).length := by
  induction l generalizing s with
  | nil => exact iff_of_true rfl (Nat.zero_le _)
  | cons i l ih =>
      obtain ⟨hi, hl⟩ := List.nodup_cons.mp hl
      rw [List.foldlM_cons, missing, List.countP_cons]
      -- each missing entry takes a page, each present one takes none
      by_cases hmiss : pteGetAddr (s.pml4 i) = 0
      · rw [if_pos (decide_eq_true hmiss)]
        cases hfree : s.st.queue .vmPgfreeq with
        | nil =>
            rw [preallocate_nil hmiss hfree]
            simp
        | cons page rest =>
            rw [preallocate_cons hmiss hfree, Option.bind_eq_bind, Option.bind_some, ih hl,
              moveQueue_free hfree, List.length_cons, Nat.add_le_add_iff_right]
            refine iff_of_eq (congrArg (· ≤ rest.length) ?_)
            refine List.countP_congr fun j hj => ?_
            have hji : j ≠ i := fun hji => hi (hji ▸ hj)
            have hsame : ∀ pte, Function.update s.pml4 i pte j = s.pml4 j :=
              fun pte => Function.update_of_ne hji pte s.pml4
            rw [decide_eq_true_iff, decide_eq_true_iff]
            exact iff_of_eq (congrArg (pteGetAddr · = 0) (hsame _))
      · rw [if_neg (by simpa using hmiss), preallocate, if_neg hmiss, Option.bind_eq_bind,
          Option.bind_some, ih hl]
        rfl

end Queues

/-! ## The regions -/

section Regions

variable {m : BootMap} {d e : MemMapEntry} {p p' : Page} {a : ℕ}

theorem BootMap.aligned_region (he : e ∈ m.regions) :
    pgSize ∣ e.base ∧ pgSize * e.npages = e.length ∧ 0 < e.length ∧ e.base + e.length ≤ 2 ^ 64 := by
  obtain ⟨hmem, huse⟩ := List.mem_filter.mp he
  obtain ⟨hbase, hlength, hpos, htop⟩ := m.aligned e hmem huse
  exact ⟨hbase, Nat.mul_div_cancel' hlength, hpos, htop⟩

/-- Different regions do not overlap. -/
theorem BootMap.apart (hd : d ∈ m.regions) (he : e ∈ m.regions) (hne : d ≠ e) :
    d.base + d.length ≤ e.base ∨ e.base + e.length ≤ d.base := by
  obtain ⟨hdm, hdu⟩ := List.mem_filter.mp hd
  obtain ⟨hem, heu⟩ := List.mem_filter.mp he
  have hsymm : Std.Symm fun d e : MemMapEntry => d.usable = true → e.usable = true →
      d.base + d.length ≤ e.base ∨ e.base + e.length ≤ d.base :=
    ⟨fun _ _ h hd he => (h he hd).symm⟩
  exact m.disjoint.forall hdm hem hne hdu heu

/-- An address is in one region at most. -/
theorem BootMap.region_unique (hd : d ∈ m.regions) (he : e ∈ m.regions) (hda : d.base ≤ a)
    (hda' : a < d.base + d.length) (hea : e.base ≤ a) (hea' : a < e.base + e.length) : d = e := by
  by_contra hne
  have hapart := BootMap.apart hd he hne
  omega

/-- The addresses of a page are in its region. -/
theorem page_in_region (he : e ∈ m.regions) (hbase : e.base = p.region)
    (hidx : p.index < e.npages) : e.base ≤ p.paddr ∧ p.paddr + pgSize ≤ e.base + e.length := by
  obtain ⟨-, hlength, -, -⟩ := BootMap.aligned_region he
  have hle : pgSize * (p.index + 1) ≤ pgSize * e.npages := Nat.mul_le_mul_left _ hidx
  rw [Nat.mul_add, Nat.mul_one] at hle
  rw [Page.paddr]
  omega

/-- The pages have different numbers. -/
theorem page_number_inj (hp : m.IsPage p) (hp' : m.IsPage p')
    (heq : p.paddr / pgSize = p'.paddr / pgSize) : p = p' := by
  obtain ⟨e, he, hbase, hidx⟩ := hp
  obtain ⟨e', he', hbase', hidx'⟩ := hp'
  have hdvd : pgSize ∣ p.paddr := by
    rw [Page.paddr, ← hbase]
    exact Nat.dvd_add (BootMap.aligned_region he).1 (Nat.dvd_mul_right _ _)
  have hdvd' : pgSize ∣ p'.paddr := by
    rw [Page.paddr, ← hbase']
    exact Nat.dvd_add (BootMap.aligned_region he').1 (Nat.dvd_mul_right _ _)
  -- the addresses are multiples of the page size, so equal numbers are equal addresses
  have hpaddr : p.paddr = p'.paddr := by
    rw [← Nat.mul_div_cancel' hdvd, ← Nat.mul_div_cancel' hdvd', heq]
  obtain ⟨hlo, hhi⟩ := page_in_region he hbase hidx
  obtain ⟨hlo', hhi'⟩ := page_in_region he' hbase' hidx'
  have hpos : 0 < pgSize := by decide
  obtain rfl : e = e' := BootMap.region_unique he he' hlo (by omega) (by omega) (by omega)
  have hregion : p.region = p'.region := hbase.symm.trans hbase'
  have hindex : pgSize * p.index = pgSize * p'.index := by
    rw [Page.paddr, Page.paddr, hregion] at hpaddr
    exact Nat.add_left_cancel hpaddr
  cases p
  cases p'
  exact congrArg₂ Page.mk hregion (Nat.eq_of_mul_eq_mul_left hpos hindex)

/-- A list of different pages is shorter than `2 ^ 64`. -/
theorem pages_length_lt {l : List Page} (hnd : l.Nodup) (hl : ∀ p ∈ l, m.IsPage p) :
    l.length < 2 ^ 64 := by
  have hnumbers : (l.map fun p => p.paddr / pgSize).Nodup :=
    hnd.map_on fun p hp p' hp' heq => page_number_inj (hl p hp) (hl p' hp') heq
  have hrange : l.map (fun p => p.paddr / pgSize) ⊆ List.range (2 ^ 52) := by
    intro n hn
    obtain ⟨p, hp, rfl⟩ := List.mem_map.mp hn
    obtain ⟨e, he, hbase, hidx⟩ := hl p hp
    obtain ⟨-, hhi⟩ := page_in_region he hbase hidx
    obtain ⟨-, -, -, htop⟩ := BootMap.aligned_region he
    rw [List.mem_range, Nat.div_lt_iff_lt_mul (by decide)]
    unfold pgSize at hhi ⊢
    omega
  have hle := (hnumbers.subperm hrange).length_le
  rw [List.length_map, List.length_range] at hle
  exact lt_of_le_of_lt hle (by norm_num)

/-! ## The search -/

/-- The regions as `vm_page_from_paddr` finds them. -/
def BootMap.pregions (m : BootMap) : List Pregion := m.regions.map fun e => ⟨e.base, e.npages⟩

/-- What `vm_page_from_paddr` finds. -/
theorem vmPageFromPaddr_some (h : vmPageFromPaddr m.pregions a = some p) :
    ∃ e ∈ m.regions, e.base ≤ a ∧ a < (e.base + e.length) % 2 ^ 64 ∧
      p = ⟨e.base, (a - e.base) / pgSize⟩ := by
  obtain ⟨preg, hfind, rfl⟩ := Option.map_eq_some_iff.mp h
  obtain ⟨e, he, rfl⟩ := List.mem_map.mp (List.mem_of_find?_eq_some hfind)
  have htest := List.find?_some hfind
  obtain ⟨hlo, hhi⟩ := Bool.and_eq_true_iff.mp htest
  refine ⟨e, he, of_decide_eq_true hlo, ?_, rfl⟩
  rw [← (BootMap.aligned_region he).2.1]
  exact of_decide_eq_true hhi

/-- When it finds something. -/
theorem vmPageFromPaddr_isSome (he : e ∈ m.regions) (hlo : e.base ≤ a)
    (hhi : a < (e.base + e.length) % 2 ^ 64) : (vmPageFromPaddr m.pregions a).isSome = true := by
  rw [vmPageFromPaddr, Option.isSome_map, List.find?_isSome]
  refine ⟨_, List.mem_map_of_mem he, ?_⟩
  rw [(BootMap.aligned_region he).2.1]
  exact Bool.and_eq_true_iff.mpr ⟨decide_eq_true hlo, decide_eq_true hhi⟩

/-- **The search is right** for an address in a region if and only if the region ends below the top. -/
theorem vmPageFromPaddr_eq_iff (he : e ∈ m.regions) (hlo : e.base ≤ a)
    (hhi : a < e.base + e.length) :
    vmPageFromPaddr m.pregions a = some ⟨e.base, (a - e.base) / pgSize⟩ ↔
      e.base + e.length < 2 ^ 64 := by
  have htop := (BootMap.aligned_region he).2.2.2
  constructor
  · intro h
    obtain ⟨d, hd, hda, hda', -⟩ := vmPageFromPaddr_some h
    have hlen : a < d.base + d.length := lt_of_lt_of_le hda' (Nat.mod_le _ _)
    obtain rfl := BootMap.region_unique hd he hda hlen hlo hhi
    omega
  · intro hlt
    obtain ⟨p, hp⟩ := Option.isSome_iff_exists.mp
      (vmPageFromPaddr_isSome he hlo (by rwa [Nat.mod_eq_of_lt hlt]))
    obtain ⟨d, hd, hda, hda', rfl⟩ := vmPageFromPaddr_some hp
    have hlen : a < d.base + d.length := lt_of_lt_of_le hda' (Nat.mod_le _ _)
    obtain rfl := BootMap.region_unique hd he hda hlen hlo hhi
    exact hp

end Regions

/-! ## The result -/

section Result

variable {m : BootMap} {pml4 : ℕ → BitVec 64} {garbage : Page → ℕ} {s : Boot}

/-- The memory map, if its regions are small enough for their pages to be counted. -/
def BootMap.toMemMap (m : BootMap) (h : ∀ e ∈ m.regions, e.npages ≤ 2 ^ 19) : MemMap where
  entries := m.entries
  aligned := by
    intro e he huse
    obtain ⟨hbase, hlength, hpos, -⟩ := m.aligned e he huse
    exact ⟨hbase, hlength, hpos,
      lt_of_le_of_lt (h e (List.mem_filter.mpr ⟨he, huse⟩)) (by decide)⟩
  disjoint := m.disjoint

/-- The free pages that the regions leave. -/
def BootMap.freePages (m : BootMap) : ℕ := (m.regions.map fun e => e.npages - e.usedPages).sum

/-- The number of free pages before `x64_vm_init`. -/
theorem length_freeq (h : ∀ e ∈ m.regions, e.npages ≤ 2 ^ 19) :
    ((Pageq.memInit (m.toMemMap h)).queue .vmPgfreeq).length = m.freePages := by
  rw [Pageq.memInit, Pageq.queue_foldl_memInitEntry, Function.update_self, List.nil_append,
    List.length_flatMap]
  refine congrArg List.sum (List.map_congr_left fun e _ => ?_)
  rw [regionPages, List.length_map, List.length_range']

/-- `mem_init` up to the call of `x64_vm_init`. -/
theorem memInit_eq (h : ∀ e ∈ m.regions, e.npages ≤ 2 ^ 19) (hlen : m.entries.length < 2 ^ 31) :
    memInit m pml4 garbage = x64VmInit
      { st := Pageq.memInit (m.toMemMap h)
        paddr := m.regions.foldl (fun f e => withPaddrs e e.npages f) garbage
        pregions := m.pregions
        pml4 := pml4 } := by
  rw [memInit, if_pos hlen, memInitRegions_eq, if_pos h, List.nil_append]
  rfl

/-- When `mem_init` returns. -/
theorem memInit_isSome : (memInit m pml4 garbage).isSome = true ↔
    m.entries.length < 2 ^ 31 ∧ (∀ e ∈ m.regions, e.npages ≤ 2 ^ 19) ∧
      missing pml4 (List.range' 255 256) ≤ m.freePages := by
  by_cases hlen : m.entries.length < 2 ^ 31
  · by_cases h : ∀ e ∈ m.regions, e.npages ≤ 2 ^ 19
    · rw [memInit_eq h hlen, x64VmInit, preallocates_isSome List.nodup_range', length_freeq]
      exact ⟨fun hmiss => ⟨hlen, h, hmiss⟩, fun hall => hall.2.2⟩
    · rw [memInit, if_pos hlen, memInitRegions_eq, if_neg h]
      exact iff_of_false Bool.false_ne_true fun hall => h hall.2.1
  · rw [memInit, if_neg hlen]
    exact iff_of_false Bool.false_ne_true fun hall => hlen hall.1

/-- What `mem_init` leaves. -/
theorem memInit_spec (hs : memInit m pml4 garbage = some s) :
    ∃ h, QueueInv (m.toMemMap h) s.st ∧ (∀ p, m.IsPage p → s.paddr p = p.paddr) ∧
      s.pregions = m.pregions := by
  obtain ⟨hlen, h, -⟩ := memInit_isSome.mp (Option.isSome_iff_exists.mpr ⟨s, hs⟩)
  rw [memInit_eq h hlen] at hs
  obtain ⟨hi, hpaddr, hpregions⟩ := preallocates_spec (queueInv_memInit (m.toMemMap h)) hs
  refine ⟨h, hi, fun p hp => ?_, hpregions⟩
  obtain ⟨e, he, hbase, hidx⟩ := hp
  obtain ⟨-, hhi⟩ := page_in_region he hbase hidx
  obtain ⟨-, -, -, htop⟩ := BootMap.aligned_region he
  have hpos : 0 < pgSize := by decide
  rw [hpaddr]
  exact (foldl_withPaddrs _ (.inl ⟨e, he, hbase.symm, hidx⟩)).trans (Nat.mod_eq_of_lt (by omega))

/-- The resident page table of a region ends where the first page behind it begins. -/
theorem table_le_usedPages {e : MemMapEntry} (h : e.npages < 2 ^ 31) :
    sizeofPregion + sizeofPage * e.npages ≤ pgSize * e.usedPages := by
  rw [Pageq.usedPages_eq h]
  unfold sizeofPregion sizeofPage pgSize
  omega

/-- What `mem_init` leaves is as it should be, if no region ends at the top. -/
theorem pageTables_of_spec (h : ∀ e ∈ m.regions, e.npages ≤ 2 ^ 19)
    (htop : ∀ e ∈ m.regions, e.base + e.length < 2 ^ 64) (hi : QueueInv (m.toMemMap h) s.st)
    (hpaddr : ∀ p, m.IsPage p → s.paddr p = p.paddr) (hpregions : s.pregions = m.pregions) :
    PageTables m s := by
  constructor
  case on_one =>
    intro p hp
    obtain ⟨q, hq⟩ := hi.on_one.exists_mem p hp
    have hzero : ∀ r, r ≠ q → (s.st.queue r).count p = 0 := fun r hr =>
      List.count_eq_zero.mpr fun hp => hr (hi.on_one.unique p r q hp hq)
    have hone : (s.st.queue q).count p = 1 := List.count_eq_one_of_mem (hi.on_one.nodup q) hq
    -- two queues are in use after boot, a page is on one of them
    rcases hi.two p q hq with rfl | rfl
    · rw [hone, hzero _ (by decide)]
    · rw [hone, hzero _ (by decide)]
  case npages_eq =>
    intro q
    rw [hi.counted q, Nat.mod_eq_of_lt (pages_length_lt (hi.on_one.nodup q)
      fun p hp => hi.on_one.isPage p q hp)]
  case table_not_free =>
    intro e he p hp
    have hpage : m.IsPage p := hi.on_one.isPage p _ hp
    rw [hpaddr p hpage]
    obtain ⟨d, hd, hbase, hidx⟩ := hpage
    obtain ⟨hlo, hhi⟩ := page_in_region hd hbase hidx
    have htable := table_le_usedPages (Pageq.npages_lt (m := m.toMemMap h) he)
    by_cases hde : d = e
    · -- in its own region a free page is behind the table
      have hused := hi.behind p hp e he (hbase.symm.trans (congrArg _ hde))
      have hle := Nat.mul_le_mul_left pgSize hused
      rw [Page.paddr, ← hbase, hde]
      omega
    · -- the table of another region is in that region
      have hle := Pageq.usedPages_le (m := m.toMemMap h) he
      have hle' := Nat.mul_le_mul_left pgSize hle
      have hlength := (BootMap.aligned_region he).2.1
      have hapart := BootMap.apart hd he hde
      omega
  case found =>
    intro e he a hlo hhi
    have hlength := (BootMap.aligned_region he).2.1
    have hpage : m.IsPage ⟨e.base, (a - e.base) / pgSize⟩ := by
      refine ⟨e, he, rfl, (Nat.div_lt_iff_lt_mul (by decide)).mpr ?_⟩
      rw [Nat.mul_comm, hlength]
      omega
    refine ⟨_, ?_, hpage, ?_⟩
    · rw [hpregions]
      exact (vmPageFromPaddr_eq_iff he hlo hhi).mpr (htop e he)
    · have hdiv := Nat.div_add_mod (a - e.base) pgSize
      have hmod := Nat.mod_lt (a - e.base) (show 0 < pgSize by decide)
      rw [hpaddr _ hpage, Page.paddr]
      dsimp only
      omega
  case not_found =>
    intro a hout
    rw [hpregions]
    refine Option.eq_none_iff_forall_ne_some.mpr fun p hp => ?_
    obtain ⟨e, he, hlo, hhi, -⟩ := vmPageFromPaddr_some hp
    exact hout e he ⟨hlo, lt_of_lt_of_le hhi (Nat.mod_le _ _)⟩

/-- **The page tables at boot.** For every memory map, top page table of the boot loader and contents of
the memory: `mem_init` returns, every page is on one of the two queues, the counts are right, no free
page overlaps a resident page table and `vm_page_from_paddr` finds exactly the addresses of the regions,
if and only if no region is longer than 2 GiB or ends at the top of the address space, and the regions
have a free page for every empty slot of the top table. -/
theorem page_tables_at_boot (m : BootMap) (pml4 : ℕ → BitVec 64) (garbage : Page → ℕ) :
    (∃ s, memInit m pml4 garbage = some s ∧ PageTables m s) ↔
      m.entries.length < 2 ^ 31 ∧
      (∀ e ∈ m.regions, e.length ≤ 2 ^ 31 ∧ e.base + e.length < 2 ^ 64) ∧
      missing pml4 (List.range' 255 256) ≤ m.freePages := by
  have hsize : ∀ e ∈ m.regions, e.npages ≤ 2 ^ 19 ↔ e.length ≤ 2 ^ 31 := by
    intro e he
    rw [← (BootMap.aligned_region he).2.1]
    unfold pgSize
    omega
  constructor
  · rintro ⟨s, hs, htables⟩
    obtain ⟨hlen, h, hmiss⟩ := memInit_isSome.mp (Option.isSome_iff_exists.mpr ⟨s, hs⟩)
    obtain ⟨-, -, -, hpregions⟩ := memInit_spec hs
    refine ⟨hlen, fun e he => ⟨(hsize e he).mp (h e he), ?_⟩, hmiss⟩
    -- the first address of a region is found in no other
    have hfirst : e.base < e.base + e.length :=
      Nat.lt_add_of_pos_right (BootMap.aligned_region he).2.2.1
    obtain ⟨p, hp, -⟩ := htables.found e he e.base le_rfl hfirst
    rw [hpregions] at hp
    obtain ⟨d, hd, hlo, hhi, rfl⟩ := vmPageFromPaddr_some hp
    have hlen := lt_of_lt_of_le hhi (Nat.mod_le _ _)
    obtain rfl := BootMap.region_unique hd he hlo hlen le_rfl hfirst
    exact (vmPageFromPaddr_eq_iff he le_rfl hfirst).mp hp
  · rintro ⟨hlen, hall, hmiss⟩
    have h : ∀ e ∈ m.regions, e.npages ≤ 2 ^ 19 := fun e he => (hsize e he).mpr (hall e he).1
    have hsome : (memInit m pml4 garbage).isSome = true := memInit_isSome.mpr ⟨hlen, h, hmiss⟩
    obtain ⟨s, hs⟩ := Option.isSome_iff_exists.mp hsome
    obtain ⟨h, hi, hpaddr, hpregions⟩ := memInit_spec hs
    exact ⟨s, hs, pageTables_of_spec h (fun e he => (hall e he).2) hi hpaddr hpregions⟩

/-- A memory map with one region, a page longer than 2 GiB. -/
def twoGigabytes : BootMap where
  entries := [⟨0x100000, 0x80001000, 0⟩]
  aligned := by decide
  disjoint := List.pairwise_singleton _ _

/-- **A region longer than 2 GiB.** The address of its last page cannot be computed with an `int`. -/
theorem page_tables_two_gigabytes :
    ¬ ∀ (m : BootMap) (pml4 : ℕ → BitVec 64) (garbage : Page → ℕ),
      ∃ s, memInit m pml4 garbage = some s ∧ PageTables m s := by
  intro h
  obtain ⟨s, hs, -⟩ := h twoGigabytes (fun _ => 0x1003) Page.paddr
  obtain ⟨-, hsmall, -⟩ := memInit_isSome.mp (Option.isSome_iff_exists.mpr ⟨s, hs⟩)
  have hlong := hsmall ⟨0x100000, 0x80001000, 0⟩ List.mem_cons_self
  revert hlong
  decide

end Result

end Scalux.PageBoot
