import Scalux.Lib.Ledger
import Scalux.Lib.Partial
import Scalux.Vm.Mdl
import Scalux.Vm.Page

/-! # Growing an MDL

`vm_mdl_new_with_capacity`, `vm_mdl_expand` and `vm_mdl_capacity` of `vm/vm_page.c`: an MDL is a block of the
kernel's heap, with an array of the pages that it describes at its end.  To "expand (if necessary)" it, a new
block is made for the number of bytes asked for, the old pages are copied there, and pages are allocated for
the rest.

* The new array is as long as the request needs, and what is copied there is as long as the old array: one
  that needs fewer pages than there are does not leave the MDL as it is.
* The queues of pages are those of `Scalux.Pageq`, and the blocks of the heap are kept in a ledger, with the
  size they were asked for.

* **`copyPages_spec`**, **`allocPages_spec`**: the two loops.
* **`valid_of_expanded`**: an MDL that grew as it should can grow again.
* **`mdl_expand_iff`**: the requests that `vm_mdl_expand` is right for. -/

namespace Scalux.MdlExpand

open Scalux.Pageq
open VmMdl (Mdl vmMdlCapacity)

/-- An MDL of pages, with the number of the block it is in. -/
structure HeapMdl extends Mdl Page where
  block : ℕ
  deriving DecidableEq

/-- The MDL as `vm_mdl_copy` reads it, with the physical addresses of the pages. -/
def HeapMdl.phys (mdl : HeapMdl) : Mdl ℕ := ⟨mdl.offset, mdl.nBytes, mdl.nPages, mdl.pages.map Page.paddr⟩

/-- The queues of pages, and the blocks of the heap. -/
structure Memory where
  queues : State
  blocks : Ledger ℕ

/-- The pages that may be allocated. -/
def Memory.free (m : Memory) : List Page := m.queues.queue .vmPgfreeq

/-- What `kmem_alloc` does when it is called: whether it returns a block, and what is in the array there. -/
structure Alloc where
  returns : Bool
  junk : ℕ → Page

/-- Why `vm_mdl_expand` does not return 0. -/
inductive Stop
  /-- It returns `-ENOMEM`. -/
  | enomem
  /-- There is no free page. -/
  | fatal
  /-- An assignment outside of the new array. -/
  | outside
  /-- `i++` beyond the largest `int`. -/
  | overflow
  deriving DecidableEq

/-- What has no meaning in C. -/
def Stop.Undefined (e : Stop) : Prop := e = .outside ∨ e = .overflow

instance (e : Stop) : Decidable e.Undefined := inferInstanceAs (Decidable (_ ∨ _))

/-- `sizeof(vm_mdl_t) + sizeof(vm_page_t *) * nPages`. -/
def mdlSize (nPages : ℕ) : ℕ := (24 + 8 * nPages) % 2 ^ 64

/-- `vm_pagealloc(1, &vm_pgwiredq)`: the page, and the queues after. -/
def wirePage (s : State) : Option (Page × State) :=
  (s.queue .vmPgfreeq).head?.bind fun page => (vmPagealloc s .vmPgwiredq).map fun s' => (page, s')

/-- `pages[i] = page; i++`. -/
def assign (pages : List Page) (i : ℕ) (page : Page) : Except Stop (List Page) :=
  if i < pages.length then
    if i + 1 < 2 ^ 31 then .ok (pages.set i page) else .error .overflow
  else .error .outside

/-- The loop over the old pages, from `i` on. -/
def copyPages : List Page → ℕ → List Page → Except Stop (List Page)
  | [], _, pages => .ok pages
  | page :: old, i, pages => (assign pages i page).bind fun pages => copyPages old (i + 1) pages

/-- The loop that allocates pages: `n` of them, from `i` on. -/
def allocPages : ℕ → ℕ → List Page → State → Except Stop (List Page × State)
  | 0, _, pages, s => .ok (pages, s)
  | n + 1, i, pages, s =>
      (wirePage s).elim (.error .fatal) fun x =>
        (assign pages i x.1).bind fun pages => allocPages n (i + 1) pages x.2

/-- The array of a new block. -/
def newPages (a : Alloc) (nPages : ℕ) : List Page := (List.range nPages).map a.junk

/-- `vm_mdl_expand`. -/
def vmMdlExpand (a : Alloc) (mdl : HeapMdl) (bytes : ℕ) (m : Memory) : Except Stop (HeapMdl × Memory) :=
  let nPages := pgRoundUp bytes / pgSize
  if a.returns then
    (copyPages mdl.pages 0 (newPages a nPages)).bind fun pages =>
      (allocPages (nPages - mdl.nPages) mdl.nPages pages m.queues).bind fun x =>
        .ok (⟨⟨0, bytes, nPages, x.1⟩, m.blocks.next⟩,
          ⟨x.2, (m.blocks.take (mdlSize nPages)).give mdl.block (mdlSize mdl.nPages)⟩)
  else .error .enomem

/-- `vm_mdl_new_with_capacity`. -/
def vmMdlNewWithCapacity (a : Alloc) (bytes : ℕ) (m : Memory) : Except Stop (HeapMdl × Memory) :=
  let nPages := pgRoundUp bytes / pgSize
  if a.returns then
    (allocPages nPages 0 (newPages a nPages) m.queues).bind fun x =>
      .ok (⟨⟨0, bytes, nPages, x.1⟩, m.blocks.next⟩, ⟨x.2, m.blocks.take (mdlSize nPages)⟩)
  else .error .enomem

/-- The pages that hold some bytes. -/
def pagesFor (bytes : ℕ) : ℕ := (bytes + (pgSize - 1)) / pgSize

/-- An MDL that is as large as its bytes need, with pages of its own. -/
structure HeapMdl.Valid (mdl : HeapMdl) : Prop where
  nPages_eq : mdl.nPages = pagesFor mdl.nBytes
  length_eq : mdl.pages.length = mdl.nPages
  nodup : mdl.pages.Nodup

/-- The MDL is in a block of the heap, of some size. -/
structure Memory.Holds (m : Memory) (mdl : HeapMdl) (size : ℕ) : Prop where
  allocated : (mdl.block, size) ∈ m.blocks.allocated
  size_eq : size = mdlSize mdl.nPages

/-- What `vm_mdl_expand` leaves when it returns 0. -/
structure Expanded (mdl : HeapMdl) (size bytes : ℕ) (m : Memory) (mdl' : HeapMdl) (m' : Memory) : Prop where
  request_le : bytes ≤ vmMdlCapacity mdl'.toMdl
  capacity_le : vmMdlCapacity mdl.toMdl ≤ vmMdlCapacity mdl'.toMdl
  nBytes_eq : mdl'.nBytes = bytes
  nPages_eq : mdl'.nPages = pagesFor bytes
  length_eq : mdl'.pages.length = mdl'.nPages
  /-- The old pages come first, and then pages that were free. -/
  pages_eq : mdl'.pages = mdl.pages ++ m.free.take (mdl'.nPages - mdl.nPages)
  free_eq : m'.free = m.free.drop (mdl'.nPages - mdl.nPages)
  wired : ∀ page ∈ m.free.take (mdl'.nPages - mdl.nPages), page ∈ m'.queues.queue .vmPgwiredq
  /-- The old block is given back, with its size. -/
  freed : m'.blocks.freed = (mdl.block, size) :: m.blocks.freed
  holds : m'.Holds mdl' (mdlSize mdl'.nPages)

/-- What `vm_mdl_expand` is for, in every state of the memory. -/
def Expands (mdl : HeapMdl) (bytes : ℕ) : Prop :=
  ∀ a m size, Memory.Holds m mdl size →
    (∀ e, vmMdlExpand a mdl bytes m = .error e → ¬ e.Undefined) ∧
      ∀ mdl' m', vmMdlExpand a mdl bytes m = .ok (mdl', m') → Expanded mdl size bytes m mdl' m'

variable {a : Alloc} {mdl mdl' : HeapMdl} {m m' : Memory} {s s' : State} {old pages : List Page} {page : Page}
  {bytes size i n : ℕ} {e : Stop}

/-! ## The loops -/

/-- Storing a page inside the array. -/
theorem assign_ok (hi : i < pages.length) (hint : i + 1 < 2 ^ 31) :
    assign pages i page = .ok (pages.set i page) := by
  rw [assign, if_pos hi, if_pos hint]

/-- Storing a page outside the array is undefined. -/
theorem assign_undefined (page : Page) (h : ¬ (i < pages.length ∧ i + 1 < 2 ^ 31)) :
    ∃ e, Stop.Undefined e ∧ assign pages i page = .error e := by
  by_cases hi : i < pages.length
  · exact ⟨.overflow, .inr rfl, by rw [assign, if_pos hi, if_neg fun hint => h ⟨hi, hint⟩]⟩
  · exact ⟨.outside, .inl rfl, by rw [assign, if_neg hi]⟩

/-- An element of a list is assigned before the others that follow it. -/
theorem take_set_append {α : Type*} {l r : List α} {x : α} (hi : i < l.length) :
    (l.set i x).take (i + 1) ++ r = l.take i ++ x :: r := by
  rw [List.take_add_one, List.take_set_of_le (Nat.le_refl i), List.getElem?_set_self hi,
    Option.toList_some, List.append_assoc, List.singleton_append]

/-- **The loop over the old pages**, when the array and `int` have room for them. -/
theorem copyPages_spec (hlen : i + old.length ≤ pages.length) (hint : i + old.length < 2 ^ 31) :
    copyPages old i pages = .ok (pages.take i ++ (old ++ pages.drop (i + old.length))) := by
  induction old generalizing i pages with
  | nil => rw [copyPages, List.nil_append, List.length_nil, Nat.add_zero, List.take_append_drop]
  | cons page old ih =>
      rw [List.length_cons] at hlen hint
      have hi : i < pages.length := by omega
      rw [copyPages, assign_ok hi (by omega)]
      show copyPages old (i + 1) (pages.set i page) = _
      rw [ih (by rw [List.length_set]; omega) (by omega), take_set_append hi,
        List.drop_set_of_lt (by omega), List.length_cons, List.cons_append]
      congr 5
      omega

/-- The loop over the old pages, when there is no room. -/
theorem copyPages_undefined (old pages : List Page)
    (h : pages.length < i + old.length ∨ 2 ^ 31 ≤ i + old.length) (hi : i ≤ pages.length) (hint : i < 2 ^ 31) :
    ∃ e, Stop.Undefined e ∧ copyPages old i pages = .error e := by
  induction old generalizing i pages with
  | nil =>
      rw [List.length_nil] at h
      omega
  | cons page old ih =>
      rw [List.length_cons] at h
      by_cases hok : i < pages.length ∧ i + 1 < 2 ^ 31
      · rw [copyPages, assign_ok hok.1 hok.2]
        exact ih _ (by rw [List.length_set]; omega) (by rw [List.length_set]; omega) hok.2
      · obtain ⟨e, he, heq⟩ := assign_undefined page hok
        exact ⟨e, he, by rw [copyPages, heq]; rfl⟩

/-- The page that is wired is the first of the free ones. -/
theorem wirePage_cons {l : List Page} (hs : s.queue .vmPgfreeq = page :: l) :
    wirePage s = some (page, moveQueue s page .vmPgfreeq .vmPgwiredq) := by
  have halloc : vmPagealloc s .vmPgwiredq = some (moveQueue s page .vmPgfreeq .vmPgwiredq) := by
    simp only [vmPagealloc, hs]
    rfl
  rw [wirePage, hs, List.head?_cons, Option.bind_some, halloc, Option.map_some]

/-- Without a free page none is wired. -/
theorem wirePage_nil (hs : s.queue .vmPgfreeq = []) : wirePage s = none := by
  rw [wirePage, hs, List.head?_nil, Option.bind_none]

/-- The free pages that remain. -/
theorem free_moveQueue {l : List Page} (hs : s.queue .vmPgfreeq = page :: l) :
    (moveQueue s page .vmPgfreeq .vmPgwiredq).queue .vmPgfreeq = l := by
  rw [moveQueue_queue, if_neg (by decide), hs, List.erase_cons_head]

/-- The wired pages after one more. -/
theorem wired_moveQueue {q : Page} (hq : q = page ∨ q ∈ s.queue .vmPgwiredq) :
    q ∈ (moveQueue s page .vmPgfreeq .vmPgwiredq).queue .vmPgwiredq := by
  rw [moveQueue_queue, if_pos rfl]
  by_cases heq : q = page
  · exact List.mem_cons.mpr (.inl heq)
  · exact List.mem_cons_of_mem _ ((List.mem_erase_of_ne heq).mpr (hq.resolve_left heq))

/-- **The loop that allocates pages**, when there are enough. -/
theorem allocPages_spec (pages : List Page) (hlen : i + n ≤ pages.length) (hint : i + n < 2 ^ 31)
    (hn : n ≤ (s.queue .vmPgfreeq).length) :
    ∃ s', allocPages n i pages s =
        .ok (pages.take i ++ ((s.queue .vmPgfreeq).take n ++ pages.drop (i + n)), s') ∧
      s'.queue .vmPgfreeq = (s.queue .vmPgfreeq).drop n ∧
      ∀ q, q ∈ (s.queue .vmPgfreeq).take n ∨ q ∈ s.queue .vmPgwiredq → q ∈ s'.queue .vmPgwiredq := by
  induction n generalizing i pages s with
  | zero => exact ⟨s, by simp [allocPages], rfl, by simp⟩
  | succ n ih =>
      cases hs : s.queue .vmPgfreeq with
      | nil =>
          rw [hs] at hn
          exact absurd hn (Nat.not_succ_le_zero n)
      | cons page l =>
          have hi : i < pages.length := by omega
          have hfree := free_moveQueue hs
          rw [hs, List.length_cons] at hn
          -- the first free page is wired, and the loop goes on with the next slot
          obtain ⟨s', heq, hfree', hwired⟩ := ih (s := moveQueue s page .vmPgfreeq .vmPgwiredq) (i := i + 1)
            (pages.set i page) (by rw [List.length_set]; omega) (by omega) (by rw [hfree]; omega)
          rw [hfree] at heq hfree' hwired
          refine ⟨s', ?_, hfree', fun q hq => hwired q ?_⟩
          · rw [allocPages, wirePage_cons hs, Option.elim_some, assign_ok hi (by omega)]
            refine heq.trans ?_
            rw [take_set_append hi, List.drop_set_of_lt (by omega), List.take_succ_cons,
              List.cons_append, Nat.add_assoc, Nat.add_comm 1 n]
          · rw [List.take_succ_cons, List.mem_cons, or_assoc] at hq
            rcases hq with rfl | hq | hq
            · exact .inr (wired_moveQueue (.inl rfl))
            · exact .inl hq
            · exact .inr (wired_moveQueue (.inr hq))

/-- The loop that allocates pages, when there are not enough of them. -/
theorem allocPages_fatal (pages : List Page) (hlen : i + n ≤ pages.length) (hint : i + n < 2 ^ 31)
    (hn : (s.queue .vmPgfreeq).length < n) : allocPages n i pages s = .error .fatal := by
  induction n generalizing i pages s with
  | zero => exact absurd hn (Nat.not_lt_zero _)
  | succ n ih =>
      cases hs : s.queue .vmPgfreeq with
      | nil => rw [allocPages, wirePage_nil hs, Option.elim_none]
      | cons page l =>
          rw [hs, List.length_cons] at hn
          rw [allocPages, wirePage_cons hs, Option.elim_some, assign_ok (by omega) (by omega)]
          exact ih _ (by rw [List.length_set]; omega) (by omega) (by rw [free_moveQueue hs]; omega)

/-- The loop that allocates pages, when there are enough and `int` has no room for their number. -/
theorem allocPages_undefined (pages : List Page) (hpos : 0 < n) (hint : 2 ^ 31 ≤ i + n)
    (hn : n ≤ (s.queue .vmPgfreeq).length) :
    ∃ e, Stop.Undefined e ∧ allocPages n i pages s = .error e := by
  induction n generalizing i pages s with
  | zero => exact absurd hpos (Nat.lt_irrefl 0)
  | succ n ih =>
      cases hs : s.queue .vmPgfreeq with
      | nil =>
          rw [hs] at hn
          exact absurd hn (Nat.not_succ_le_zero n)
      | cons page l =>
          rw [hs, List.length_cons] at hn
          rw [allocPages, wirePage_cons hs, Option.elim_some]
          by_cases hok : i < pages.length ∧ i + 1 < 2 ^ 31
          · rw [assign_ok hok.1 hok.2]
            exact ih _ (by omega) (by omega) (by rw [free_moveQueue hs]; omega)
          · obtain ⟨e, he, heq⟩ := assign_undefined page hok
            exact ⟨e, he, by rw [heq]; rfl⟩

/-! ## The calls -/

/-- The pages for a number of bytes: `(bytes + 4095) / 4096`. -/
theorem pagesFor_eq (bytes : ℕ) : pagesFor bytes = (bytes + 4095) / 4096 := rfl

/-- `PGROUNDUP(bytes) / PGSIZE`. -/
theorem pgRoundUp_div (bytes : ℕ) : pgRoundUp bytes / pgSize = (bytes + 4095) % 2 ^ 64 / 4096 := by
  rw [pgRoundUp_eq]
  exact Nat.mul_div_cancel _ (by decide)

/-- Rounding up does not wrap for less than `2 ^ 31` pages. -/
theorem pgRoundUp_div_of_lt (h : pagesFor bytes < 2 ^ 31) : pgRoundUp bytes / pgSize = pagesFor bytes := by
  rw [pagesFor_eq] at h
  rw [pgRoundUp_div, pagesFor_eq, Nat.mod_eq_of_lt (by omega)]

/-- An array for `n` pages has `n` places. -/
theorem length_newPages (a : Alloc) (n : ℕ) : (newPages a n).length = n := by
  rw [newPages, List.length_map, List.length_range]

/-- Nothing lies behind the array. -/
theorem drop_newPages (a : Alloc) {n k : ℕ} (h : n ≤ k) : (newPages a n).drop k = [] :=
  List.drop_eq_nil_of_le (by rw [length_newPages]; exact h)

section Room

variable {N : ℕ}

/-- The old pages in an array that has room for them. -/
theorem copyPages_newPages (a : Alloc) (hlen : mdl.pages.length = mdl.nPages) (hle : mdl.nPages ≤ N)
    (hint : mdl.nPages < 2 ^ 31) :
    copyPages mdl.pages 0 (newPages a N) = .ok (mdl.pages ++ (newPages a N).drop mdl.nPages) := by
  rw [copyPages_spec (by rw [length_newPages]; omega) (by omega), List.take_zero, List.nil_append,
    Nat.zero_add, hlen]

/-- What the first loop leaves is as long as the new array. -/
theorem length_copied (a : Alloc) (hlen : mdl.pages.length = mdl.nPages) (hle : mdl.nPages ≤ N) :
    (mdl.pages ++ (newPages a N).drop mdl.nPages).length = N := by
  rw [List.length_append, List.length_drop, length_newPages]
  omega

/-- A call that returns 0: the old pages, then the first of the free ones. -/
theorem vmMdlExpand_ok (hN : pgRoundUp bytes / pgSize = N) (hlen : mdl.pages.length = mdl.nPages)
    (hle : mdl.nPages ≤ N) (hlt : N < 2 ^ 31) (hret : a.returns = true)
    (hfree : N - mdl.nPages ≤ m.free.length) :
    ∃ s', vmMdlExpand a mdl bytes m =
        .ok (⟨⟨0, bytes, N, mdl.pages ++ m.free.take (N - mdl.nPages)⟩, m.blocks.next⟩,
          ⟨s', (m.blocks.take (mdlSize N)).give mdl.block (mdlSize mdl.nPages)⟩) ∧
      s'.queue .vmPgfreeq = m.free.drop (N - mdl.nPages) ∧
      ∀ q ∈ m.free.take (N - mdl.nPages), q ∈ s'.queue .vmPgwiredq := by
  obtain ⟨s', hs', hfree', hwired⟩ := allocPages_spec (s := m.queues) (i := mdl.nPages)
    (n := N - mdl.nPages) (mdl.pages ++ (newPages a N).drop mdl.nPages)
    (by rw [length_copied a hlen hle]; omega) (by omega) hfree
  refine ⟨s', ?_, hfree', fun q hq => hwired q (.inl hq)⟩
  -- nothing is left of what was in the new block
  have hdrop : (mdl.pages ++ (newPages a N).drop mdl.nPages).drop (mdl.nPages + (N - mdl.nPages)) = [] :=
    List.drop_eq_nil_of_le (by rw [length_copied a hlen hle]; omega)
  rw [hdrop, List.append_nil, List.take_left' hlen] at hs'
  simp only [vmMdlExpand, hret, if_true, hN, copyPages_newPages a hlen hle (by omega), Except.bind]
  rw [hs']
  rfl

/-- A call that finds too few free pages. -/
theorem vmMdlExpand_fatal (hN : pgRoundUp bytes / pgSize = N) (hlen : mdl.pages.length = mdl.nPages)
    (hle : mdl.nPages ≤ N) (hlt : N < 2 ^ 31) (hret : a.returns = true)
    (hfree : m.free.length < N - mdl.nPages) : vmMdlExpand a mdl bytes m = .error .fatal := by
  have halloc := allocPages_fatal (s := m.queues) (i := mdl.nPages) (n := N - mdl.nPages)
    (mdl.pages ++ (newPages a N).drop mdl.nPages) (by rw [length_copied a hlen hle]; omega)
    (by omega) hfree
  simp only [vmMdlExpand, hret, if_true, hN, copyPages_newPages a hlen hle (by omega), Except.bind]
  rw [halloc]

end Room

/-- What is returned is for the request: the offset is 0, and there are `PGROUNDUP(bytes) / PGSIZE` pages. -/
theorem vmMdlExpand_fields (h : vmMdlExpand a mdl bytes m = .ok (mdl', m')) :
    mdl'.offset = 0 ∧ mdl'.nPages = pgRoundUp bytes / pgSize := by
  unfold vmMdlExpand at h
  split at h
  · obtain ⟨pages, -, h⟩ := bind_eq_ok.mp h
    obtain ⟨x, -, h⟩ := bind_eq_ok.mp h
    obtain ⟨rfl, -⟩ := Prod.mk.inj (Except.ok.inj h)
    exact ⟨rfl, rfl⟩
  · cases h

/-- **Requests for no fewer pages.** -/
theorem expands_of_le (hlen : mdl.pages.length = mdl.nPages) (hle : mdl.nPages ≤ pagesFor bytes)
    (hlt : pagesFor bytes < 2 ^ 31) : Expands mdl bytes := by
  intro a m size hm
  -- no memory for the block is an error that leaves the MDL alone
  cases hret : a.returns with
  | false =>
      have heq : vmMdlExpand a mdl bytes m = .error .enomem := by
        simp only [vmMdlExpand, hret, Bool.false_eq_true, if_false]
      rw [heq]
      refine ⟨fun e he => ?_, fun mdl' m' h => (nomatch h)⟩
      obtain rfl := Except.error.inj he
      decide
  | true =>
      by_cases hfree : pagesFor bytes - mdl.nPages ≤ m.free.length
      · obtain ⟨s', heq, hfree', hwired⟩ := vmMdlExpand_ok (pgRoundUp_div_of_lt hlt) hlen hle hlt hret hfree
        rw [heq]
        refine ⟨fun e he => (nomatch he), fun mdl' m' h => ?_⟩
        obtain ⟨rfl, rfl⟩ := Prod.mk.inj (Except.ok.inj h)
        -- below `2^31` pages the capacity is a number of the machine
        have hcapacity : pagesFor bytes * pgSize % 2 ^ 64 = pagesFor bytes * 4096 :=
          Nat.mod_eq_of_lt (by show pagesFor bytes * 4096 < 2 ^ 64; omega)
        refine ⟨?_, ?_, rfl, rfl, ?_, rfl, hfree', hwired, ?_, ?_⟩
        · show bytes ≤ pagesFor bytes * pgSize % 2 ^ 64
          rw [hcapacity, pagesFor_eq]
          omega
        · show mdl.nPages * pgSize % 2 ^ 64 ≤ pagesFor bytes * pgSize % 2 ^ 64
          rw [hcapacity]
          exact (Nat.mod_le _ _).trans (Nat.mul_le_mul_right _ hle)
        · show (mdl.pages ++ _).length = pagesFor bytes
          rw [List.length_append, List.length_take]
          omega
        · show (mdl.block, mdlSize mdl.nPages) :: m.blocks.freed = (mdl.block, size) :: m.blocks.freed
          rw [hm.size_eq]
        · exact ⟨List.mem_cons_self, rfl⟩
      · -- there are not enough free pages
        rw [vmMdlExpand_fatal (pgRoundUp_div_of_lt hlt) hlen hle hlt hret (by omega)]
        refine ⟨fun e he => ?_, fun mdl' m' h => (nomatch h)⟩
        obtain rfl := Except.error.inj he
        decide

/-- The memory in which a call has all the pages that it asks for. -/
def ample (mdl : HeapMdl) (pages : List Page) : Memory where
  queues :=
    { tag := fun _ => .kVMPageFree
      queue := fun q => if q = .vmPgfreeq then pages else []
      npages := fun _ => 0 }
  blocks :=
    { next := mdl.block + 1
      allocated := [(mdl.block, mdlSize mdl.nPages)]
      freed := []
      lt_next := by simp
      nodup := List.nodup_singleton _ }

/-- **The others.** A request for fewer pages than there are is written outside of the new array; one that
wraps around has no room; and one for too many pages has no `int` for them. -/
theorem not_expands (hlen : mdl.pages.length = mdl.nPages)
    (h : pagesFor bytes < mdl.nPages ∨ 2 ^ 31 ≤ pagesFor bytes) : ¬ Expands mdl bytes := by
  intro hexp
  let N := pgRoundUp bytes / pgSize
  have hN : N = (bytes + 4095) % 2 ^ 64 / 4096 := pgRoundUp_div bytes
  have hfor := pagesFor_eq bytes
  -- an allocator that always returns and a heap with as many free pages as are asked for
  let a : Alloc := ⟨true, fun _ => ⟨0, 0⟩⟩
  let m := ample mdl (List.replicate N ⟨0, 0⟩)
  have hlength : m.free.length = N := List.length_replicate
  obtain ⟨herr, hok⟩ := hexp a m (mdlSize mdl.nPages) ⟨List.mem_singleton_self _, rfl⟩
  -- more old pages than the new array holds: the copy leaves the array
  by_cases hcopy : N < mdl.nPages ∨ 2 ^ 31 ≤ mdl.nPages
  · obtain ⟨e, he, heq⟩ := copyPages_undefined (i := 0) mdl.pages (newPages a N)
      (by rw [length_newPages, hlen]; omega) (Nat.zero_le _) (by decide)
    refine herr e ?_ he
    simp only [vmMdlExpand, a, if_true]
    rw [heq]
    rfl
  · have hle : mdl.nPages ≤ N := by omega
    rcases Nat.lt_or_ge N (2 ^ 31) with hlt | hge
    · -- the number of bytes has wrapped around, so that the new array is shorter than it should be
      obtain ⟨s', heq, -, -⟩ := vmMdlExpand_ok (a := a) (m := m) (N := N) rfl hlen hle hlt rfl (by omega)
      have hreq : bytes ≤ N * pgSize % 2 ^ 64 := (hok _ _ heq).request_le
      have hcapacity : N * pgSize % 2 ^ 64 = N * 4096 :=
        Nat.mod_eq_of_lt (by show N * 4096 < 2 ^ 64; omega)
      omega
    · obtain ⟨e, he, heq⟩ := allocPages_undefined (s := m.queues) (i := mdl.nPages) (n := N - mdl.nPages)
        (mdl.pages ++ (newPages a N).drop mdl.nPages) (by omega) (by omega)
        (by show _ ≤ m.free.length; omega)
      refine herr e ?_ he
      simp only [vmMdlExpand, a, if_true]
      rw [copyPages_newPages a hlen hle (by omega)]
      simp only [Except.bind]
      rw [heq]

/-- **Exactness.** `vm_mdl_expand` is right for the requests that need no fewer pages than there are, and no
more than an `int` can count. -/
theorem mdl_expand_iff (hmdl : mdl.Valid) :
    Expands mdl bytes ↔ mdl.nPages ≤ pagesFor bytes ∧ pagesFor bytes < 2 ^ 31 := by
  constructor
  · intro h
    by_contra hcond
    exact not_expands hmdl.length_eq (by omega) h
  · rintro ⟨hle, hlt⟩
    exact expands_of_le hmdl.length_eq hle hlt

/-- An MDL of two pages. -/
def twoPages : HeapMdl := ⟨⟨0, 8192, 2, [⟨0, 1⟩, ⟨0, 2⟩]⟩, 0⟩

/-- The list of the example is valid. -/
theorem twoPages_valid : twoPages.Valid := ⟨rfl, rfl, by decide⟩

/-- It can be made to hold 10000 bytes. -/
theorem mdl_expand_iff_two : Expands twoPages 10000 :=
  (mdl_expand_iff twoPages_valid).mpr ⟨by decide, by decide⟩

/-- An MDL of two pages that is asked to hold a byte: the second page is written outside of the new array. -/
theorem mdl_expand_shrink :
    vmMdlExpand ⟨true, fun _ => ⟨0, 0⟩⟩ twoPages 1 (ample twoPages [⟨0, 3⟩]) = .error .outside ∧
      ¬ Expands twoPages 1 := by
  have heq : vmMdlExpand ⟨true, fun _ => ⟨0, 0⟩⟩ twoPages 1 (ample twoPages [⟨0, 3⟩]) = .error .outside :=
    rfl
  exact ⟨heq, fun h => (h _ _ _ ⟨List.mem_singleton_self _, rfl⟩).1 _ heq (by decide)⟩

/-! ## MDLs that grow again -/

/-- No page is lost: the pages of the MDL and the free pages are what they were. -/
theorem pages_append_free (h : Expanded mdl size bytes m mdl' m') :
    mdl'.pages ++ m'.free = mdl.pages ++ m.free := by
  rw [h.pages_eq, h.free_eq, List.append_assoc, List.take_append_drop]

/-- An MDL that grew as it should can grow again. -/
theorem valid_of_expanded (h : Expanded mdl size bytes m mdl' m') (hnodup : (mdl.pages ++ m.free).Nodup) :
    mdl'.Valid ∧ m'.Holds mdl' (mdlSize mdl'.nPages) ∧ (mdl'.pages ++ m'.free).Nodup := by
  have hnodup' : (mdl'.pages ++ m'.free).Nodup := by rw [pages_append_free h]; exact hnodup
  exact ⟨⟨by rw [h.nBytes_eq, h.nPages_eq], h.length_eq, hnodup'.of_append_left⟩, h.holds, hnodup'⟩

/-- A new MDL can grow. -/
theorem valid_of_new (hlt : pagesFor bytes < 2 ^ 31) (hnodup : m.free.Nodup)
    (h : vmMdlNewWithCapacity a bytes m = .ok (mdl, m')) :
    mdl.Valid ∧ m'.Holds mdl (mdlSize mdl.nPages) ∧ (mdl.pages ++ m'.free).Nodup := by
  have hnew := length_newPages a (pagesFor bytes)
  simp only [vmMdlNewWithCapacity, pgRoundUp_div_of_lt hlt] at h
  cases hret : a.returns with
  | false =>
      simp only [hret, Bool.false_eq_true, if_false] at h
      exact nomatch h
  | true =>
      simp only [hret, if_true] at h
      -- a queue that runs short ends in the fatal error, so the call did not return
      by_cases hfree : pagesFor bytes ≤ m.free.length
      · obtain ⟨s', heq, hfree', -⟩ := allocPages_spec (s := m.queues) (i := 0) (n := pagesFor bytes)
          (newPages a (pagesFor bytes)) (by omega) (by omega) hfree
        rw [heq, Nat.zero_add, drop_newPages a (Nat.le_refl _)] at h
        obtain ⟨rfl, rfl⟩ := Prod.mk.inj (Except.ok.inj h)
        have hpages : ([] ++ (m.free.take (pagesFor bytes) ++ [])) = m.free.take (pagesFor bytes) := by
          rw [List.nil_append, List.append_nil]
        refine ⟨⟨rfl, ?_, ?_⟩, ⟨List.mem_cons_self, rfl⟩, ?_⟩
        · show ([] ++ (m.free.take (pagesFor bytes) ++ [])).length = pagesFor bytes
          rw [hpages, List.length_take, Nat.min_eq_left hfree]
        · show ([] ++ (m.free.take (pagesFor bytes) ++ [])).Nodup
          rw [hpages]
          exact hnodup.take
        · show (([] ++ (m.free.take (pagesFor bytes) ++ [])) ++ s'.queue .vmPgfreeq).Nodup
          rw [hpages, hfree']
          exact (List.take_append_drop _ _).symm ▸ hnodup
      · rw [allocPages_fatal _ (by omega) (by omega) (Nat.lt_of_not_le hfree)] at h
        exact nomatch h

end Scalux.MdlExpand
