import Scalux.Vm.Page
import Mathlib.Data.List.Nodup
import Mathlib.Data.List.Range
import Mathlib.Tactic.Linarith

/-! # What the page queues keep and what they lose

`vm_page_changequeue` relinks a page and moves a unit between two counts, and never writes the
page's tag; `vm_page_queue` knows no `kVMPagePMap` and sends wired pages to the active queue.

* **`tag_reach`**: a page keeps for ever the tag `mem_init` gave it.
* **`page_on_one_queue`**: list membership alone is sound: every page stays on exactly one queue.
* **`page_queues_iff`**: the two records agree in no reachable state of any machine that has memory,
  because each region keeps its resident page table on `vm_pgpmapq`. -/

namespace Scalux.Pageq

/-- The queue a tag is named after. -/
def Tag.names : Tag → Queue
  | .kVMPageFree => .vmPgfreeq
  | .kVMPageKMem => .vmPgkmemq
  | .kVMPageWired => .vmPgwiredq
  | .kVMPageActive => .vmPgactiveq
  | .kVMPageInactive => .vmPginactiveq
  | .kVMPagePMap => .vmPgpmapq

/-- The two records of every page's queue agree, and the counts with them. -/
structure QueuesAgree (m : MemMap) (s : State) : Prop where
  /-- Every page is on exactly one queue, once. -/
  on_one : ∀ p, m.IsPage p → ∃ q, (s.queue q).count p = 1 ∧ ∀ r, p ∈ s.queue r → r = q
  /-- The tag names the queue the page is on. -/
  tag_names : ∀ p q, m.IsPage p → p ∈ s.queue q → (s.tag p).names = q
  /-- `vm_page_queue` returns the queue the page is on. -/
  page_queue : ∀ p q, m.IsPage p → p ∈ s.queue q → vmPageQueue (s.tag p) = some q
  /-- The counts are the lengths. -/
  npages_eq : ∀ q, s.npages q = (s.queue q).length
  /-- `vm_page_free` takes a page from the queue it is on: it is charged to that queue's count. -/
  free_removes : ∀ p q, m.IsPage p → p ∈ s.queue q → q ≠ .vmPgfreeq →
    ∃ s', vmPageFree s p = some s' ∧ p ∉ s'.queue q ∧ s'.npages q = decr64 (s.npages q)

/-! ## What boot builds -/

section Boot

variable {e : MemMapEntry} {m : MemMap} {s : State} {p : Page}

/-- The descriptors of a region by index. -/
theorem mem_regionPages {lo n : ℕ} :
    p ∈ regionPages e lo n ↔ p.region = e.base ∧ lo ≤ p.index ∧ p.index < lo + n := by
  rw [regionPages, List.mem_map]
  constructor
  · rintro ⟨b, hb, rfl⟩
    exact ⟨rfl, List.mem_range'_1.mp hb⟩
  · rintro ⟨hr, hlo, hhi⟩
    exact ⟨p.index, List.mem_range'_1.mpr ⟨hlo, hhi⟩, by rw [← hr]⟩

/-- The descriptors of a region are distinct. -/
theorem nodup_regionPages (e : MemMapEntry) (lo n : ℕ) : (regionPages e lo n).Nodup := by
  refine List.Nodup.map ?_ List.nodup_range'
  intro a b hab
  exact congrArg Page.index hab

/-- One loop of `mem_init`: what it does to the tags. -/
theorem tag_foldl_bootInsert (g : Tag) (q : Queue) (l : List Page) (s : State) (p : Page) :
    (l.foldl (bootInsert g q) s).tag p = if p ∈ l then g else s.tag p := by
  induction l generalizing s with
  | nil => rfl
  | cons a l ih =>
      rw [List.foldl_cons, ih (bootInsert g q s a)]
      by_cases hl : p ∈ l
      · rw [if_pos hl, if_pos (List.mem_cons_of_mem a hl)]
      · rw [if_neg hl]
        by_cases ha : p = a
        · rw [if_pos (ha ▸ List.mem_cons_self), bootInsert_tag, ha, Function.update_self]
        · rw [if_neg (by simp [ha, hl]), bootInsert_tag, Function.update_of_ne ha]

/-- One loop of `mem_init`: what it does to the queues. -/
theorem queue_foldl_bootInsert (g : Tag) (q : Queue) (l : List Page) (s : State) :
    (l.foldl (bootInsert g q) s).queue = Function.update s.queue q (s.queue q ++ l) := by
  induction l generalizing s with
  | nil => rw [List.foldl_nil, List.append_nil, Function.update_eq_self]
  | cons a l ih =>
      rw [List.foldl_cons, ih (bootInsert g q s a), bootInsert_queue, Function.update_idem,
        Function.update_self, List.append_assoc, List.singleton_append]

/-- The pages of a resident page table, when its size does not wrap: `(32 + 88 * npages + 4095) / 4096`. -/
theorem usedPages_eq (h : e.npages < 2 ^ 31) : e.usedPages = (32 + 88 * e.npages + 4095) / 4096 := by
  unfold MemMapEntry.usedPages sizeofPregion sizeofPage pgSize
  rw [pgRoundUp_eq, Nat.mod_eq_of_lt (by omega), Nat.mul_div_cancel _ (by decide)]

/-- A region of a memory map has a page. -/
theorem npages_pos (he : e ∈ m.regions) : 0 < e.npages := by
  obtain ⟨hmem, huse⟩ := List.mem_filter.mp he
  obtain ⟨-, hdvd, hpos, -⟩ := m.aligned e hmem huse
  exact Nat.div_pos (Nat.le_of_dvd hpos hdvd) (by decide)

/-- A region of a memory map has fewer pages than an `int` counts. -/
theorem npages_lt (he : e ∈ m.regions) : e.npages < 2 ^ 31 := by
  obtain ⟨hmem, huse⟩ := List.mem_filter.mp he
  exact (m.aligned e hmem huse).2.2.2

/-- A region's resident page table takes at least one page. -/
theorem usedPages_pos (h : e.npages < 2 ^ 31) : 0 < e.usedPages := by
  rw [usedPages_eq h]
  omega

/-- A region has room for its resident page table. -/
theorem usedPages_le (he : e ∈ m.regions) : e.usedPages ≤ e.npages := by
  have hpos := npages_pos he
  rw [usedPages_eq (npages_lt he)]
  omega

/-- `mem_init` for one region: what it does to the tags. -/
theorem tag_memInitEntry (s : State) (e : MemMapEntry) (p : Page) :
    (memInitEntry s e).tag p
      = if p ∈ regionPages e e.usedPages (e.npages - e.usedPages) then .kVMPageFree
        else if p ∈ regionPages e 0 e.usedPages then .kVMPagePMap
        else s.tag p := by
  rw [memInitEntry, tag_foldl_bootInsert, tag_foldl_bootInsert]

/-- The first page of a region, once tagged, keeps its tag while the other regions are set up: no
region tags a first page as free. -/
theorem tag_foldl_memInitEntry (l : List MemMapEntry) (s : State) (hp : p.index = 0)
    (hlt : ∀ e ∈ l, e.npages < 2 ^ 31) (h : s.tag p = .kVMPagePMap ∨ ∃ e ∈ l, e.base = p.region) :
    (l.foldl memInitEntry s).tag p = .kVMPagePMap := by
  induction l generalizing s with
  | nil =>
      rcases h with h | ⟨e, he, -⟩
      · exact h
      · cases he
  | cons a l ih =>
      rw [List.foldl_cons]
      refine ih (memInitEntry s a) (fun e he => hlt e (List.mem_cons_of_mem a he)) ?_
      have hpos := usedPages_pos (hlt a List.mem_cons_self)
      have hnot : p ∉ regionPages a a.usedPages (a.npages - a.usedPages) := by
        rw [mem_regionPages]
        omega
      -- the entry of the page's region tags it, an entry of another region leaves it
      by_cases hbase : a.base = p.region
      · left
        rw [tag_memInitEntry, if_neg hnot, if_pos]
        exact mem_regionPages.mpr ⟨hbase.symm, Nat.zero_le _, by omega⟩
      · rcases h with h | ⟨e, he, hbe⟩
        · left
          rw [tag_memInitEntry, if_neg hnot, if_neg, h]
          rw [mem_regionPages]
          exact fun hmem => hbase hmem.1.symm
        · right
          rcases List.mem_cons.mp he with rfl | he
          · exact absurd hbe hbase
          · exact ⟨e, he, hbe⟩

/-- After `mem_init` the first page of every region is tagged `kVMPagePMap`. -/
theorem tag_memInit_first (he : e ∈ m.regions) :
    (memInit m).tag ⟨e.base, 0⟩ = .kVMPagePMap :=
  tag_foldl_memInitEntry m.regions _ rfl (fun _ => npages_lt) (.inr ⟨e, he, rfl⟩)

/-- After `mem_init` the resident page tables are on `vm_pgpmapq`, all other pages on
`vm_pgfreeq`, and nothing is on the other queues. -/
theorem queue_foldl_memInitEntry (l : List MemMapEntry) (s : State) :
    (l.foldl memInitEntry s).queue
      = Function.update (Function.update s.queue .vmPgpmapq
          (s.queue .vmPgpmapq ++ l.flatMap fun e => regionPages e 0 e.usedPages)) .vmPgfreeq
          (s.queue .vmPgfreeq
            ++ l.flatMap fun e => regionPages e e.usedPages (e.npages - e.usedPages)) := by
  induction l generalizing s with
  | nil =>
      funext q
      simp only [List.foldl_nil, List.flatMap_nil, List.append_nil, Function.update_eq_self]
  | cons a l ih =>
      rw [List.foldl_cons, ih (memInitEntry s a), memInitEntry, queue_foldl_bootInsert,
        queue_foldl_bootInsert]
      funext q
      cases q <;> simp

end Boot

/-! ## Calls after boot -/

variable {m : MemMap} {e : MemMapEntry} {s s' : State} {p : Page} {a : Action}

/-- **What a call does.** It moves one page to the head of a queue, charging some queue for it; the
page is one of the machine's, or the first of the free ones. -/
theorem step_cases (h : step m s a = some s') :
    ∃ p src dst, s' = moveQueue s p src dst ∧ (m.IsPage p ∨ p ∈ s.queue .vmPgfreeq) := by
  -- a queue that is not named is looked up by the tag of the page
  have hchange : ∀ p o dst, vmPageChangequeue s p o dst = some s' →
      ∃ src, s' = moveQueue s p src dst := by
    intro p o dst hc
    cases o with
    | some src => exact ⟨src, (Option.some.inj hc).symm⟩
    | none =>
        obtain ⟨src, -, hsrc⟩ := Option.map_eq_some_iff.mp hc
        exact ⟨src, hsrc.symm⟩
  cases a with
  | vmPagealloc q =>
      rw [step, vmPagealloc] at h
      split at h
      · cases h
      · rename_i p rest hfree
        obtain ⟨src, hs⟩ := hchange _ _ _ h
        exact ⟨p, src, q, hs, .inr (by rw [hfree]; exact List.mem_cons_self)⟩
  | vmPageFree p =>
      rw [step] at h
      split at h
      · rename_i hguard
        obtain ⟨src, hs⟩ := hchange _ _ _ h
        exact ⟨p, src, _, hs, .inl hguard.1⟩
      · cases h
  | vmPageChangequeue p o dst =>
      rw [step] at h
      split at h
      · rename_i hguard
        obtain ⟨src, hs⟩ := hchange _ _ _ h
        exact ⟨p, src, dst, hs, .inl hguard.1⟩
      · cases h

/-- **Tags are never written.** In every state reached after boot a page has the tag `mem_init` gave
it. -/
theorem tag_reach (h : (machine m).Reachable (memInit m) s) : s.tag = (memInit m).tag := by
  refine h.invariant (I := fun s => s.tag = (memInit m).tag) rfl ?_
  intro s a s' hi _ hs
  obtain ⟨p, src, dst, rfl, -⟩ := step_cases hs
  rw [moveQueue_tag, hi]

/-- The pages on the queues are the machine's, each on exactly one queue, once. -/
structure OnOne (m : MemMap) (s : State) : Prop where
  isPage : ∀ p q, p ∈ s.queue q → m.IsPage p
  nodup : ∀ q, (s.queue q).Nodup
  unique : ∀ p q r, p ∈ s.queue q → p ∈ s.queue r → q = r
  exists_mem : ∀ p, m.IsPage p → ∃ q, p ∈ s.queue q

/-- Moving one page keeps every page on exactly one queue: the page is unlinked everywhere. -/
theorem onOne_moveQueue (h : OnOne m s) {src dst : Queue} (hp : m.IsPage p) :
    OnOne m (moveQueue s p src dst) := by
  -- only `p` moves, it is on `dst` and on no other queue afterwards
  have hmem : ∀ r q, r ∈ (moveQueue s p src dst).queue q ↔
      if r = p then q = dst else r ∈ s.queue q := by
    intro r q
    rw [moveQueue_queue]
    by_cases hr : r = p
    · rw [if_pos hr, hr]
      split
      · rename_i hq
        exact iff_of_true List.mem_cons_self hq
      · rename_i hq
        exact iff_of_false (fun hmem => (h.nodup q).not_mem_erase hmem) hq
    · rw [if_neg hr]
      split
      · rename_i hq
        rw [List.mem_cons, List.mem_erase_of_ne hr, hq]
        exact or_iff_right hr
      · exact List.mem_erase_of_ne hr
  constructor
  case isPage =>
    intro r q hr
    rw [hmem] at hr
    split at hr
    · rename_i heq
      exact heq ▸ hp
    · exact h.isPage r q hr
  case nodup =>
    intro q
    rw [moveQueue_queue]
    split
    · exact List.nodup_cons.mpr ⟨(h.nodup dst).not_mem_erase, (h.nodup dst).erase p⟩
    · exact (h.nodup q).erase p
  case unique =>
    intro r q q' hq hq'
    rw [hmem] at hq hq'
    split at hq
    · rename_i heq
      rw [if_pos heq] at hq'
      rw [hq, hq']
    · rename_i heq
      rw [if_neg heq] at hq'
      exact h.unique r q q' hq hq'
  case exists_mem =>
    intro r hr
    by_cases heq : r = p
    · exact ⟨dst, (hmem r dst).mpr (by rw [if_pos heq])⟩
    · obtain ⟨q, hq⟩ := h.exists_mem r hr
      exact ⟨q, (hmem r q).mpr (by rwa [if_neg heq])⟩

/-- The regions of a memory map have different bases. -/
theorem regions_base_ne (m : MemMap) :
    m.regions.Pairwise fun d e => d.base ≠ e.base := by
  refine List.Pairwise.imp_of_mem ?_ (m.disjoint.filter MemMapEntry.usable)
  intro d e hd he hapart hbase
  obtain ⟨hdm, hdu⟩ := List.mem_filter.mp hd
  obtain ⟨hem, heu⟩ := List.mem_filter.mp he
  have := (m.aligned d hdm hdu).2.2.1
  have := (m.aligned e hem heu).2.2.1
  have := hapart hdu heu
  omega

/-- Lists of descriptors drawn from different regions are disjoint. -/
theorem nodup_flatMap_regionPages (m : MemMap) (lo n : MemMapEntry → ℕ) :
    (m.regions.flatMap fun e => regionPages e (lo e) (n e)).Nodup := by
  rw [List.nodup_flatMap]
  refine ⟨fun e _ => nodup_regionPages e _ _, (regions_base_ne m).imp ?_⟩
  intro d e hbase p hd he
  exact hbase ((mem_regionPages.mp hd).1.symm.trans (mem_regionPages.mp he).1)

/-- Where a page is after boot: the pages of a resident page table on `vm_pgpmapq`, the others on
`vm_pgfreeq`. -/
theorem mem_memInit_queue {q : Queue} :
    p ∈ (memInit m).queue q ↔ ∃ e ∈ m.regions, p.region = e.base ∧
      (q = .vmPgpmapq ∧ p.index < e.usedPages ∨
        q = .vmPgfreeq ∧ e.usedPages ≤ p.index ∧ p.index < e.npages) := by
  rw [memInit, queue_foldl_memInitEntry]
  cases q <;> simp only [Function.update_self, Function.update_of_ne, ne_eq, reduceCtorEq,
    not_false_eq_true, List.nil_append, List.mem_flatMap, mem_regionPages, List.not_mem_nil,
    false_and, true_and, or_false, false_or, and_false, exists_false, Nat.zero_le, Nat.zero_add]
  refine exists_congr fun e => and_congr_right fun he => and_congr_right fun _ => ?_
  have := usedPages_le he
  omega

/-- A region of a memory map is known by its base. -/
theorem eq_of_base_eq {d : MemMapEntry} (hd : d ∈ m.regions) (he : e ∈ m.regions)
    (heq : d.base = e.base) : d = e := by
  by_contra hne
  have : Std.Symm fun d e : MemMapEntry => d.base ≠ e.base := ⟨fun _ _ => Ne.symm⟩
  exact (regions_base_ne m).forall hd he hne heq

/-- After boot every page is on exactly one queue. -/
theorem onOne_memInit (m : MemMap) : OnOne m (memInit m) := by
  constructor
  case isPage =>
    intro p q hp
    obtain ⟨e, he, hr, hidx⟩ := mem_memInit_queue.mp hp
    have := usedPages_le he
    exact ⟨e, he, hr.symm, by omega⟩
  case nodup =>
    intro q
    rw [memInit, queue_foldl_memInitEntry]
    cases q
    case vmPgfreeq => exact nodup_flatMap_regionPages m _ _
    case vmPgpmapq => exact nodup_flatMap_regionPages m (fun _ => 0) _
    all_goals exact List.nodup_nil
  case unique =>
    intro p q r hq hr
    obtain ⟨d, hd, hpd, hidx⟩ := mem_memInit_queue.mp hq
    obtain ⟨e, he, hpe, hidx'⟩ := mem_memInit_queue.mp hr
    obtain rfl := eq_of_base_eq hd he (hpd.symm.trans hpe)
    -- the used pages of a region lie below its free ones
    rcases hidx with ⟨rfl, h⟩ | ⟨rfl, h, -⟩ <;> rcases hidx' with ⟨rfl, h'⟩ | ⟨rfl, h', -⟩
    · rfl
    · omega
    · omega
    · rfl
  case exists_mem =>
    rintro p ⟨e, he, hr, hidx⟩
    by_cases hused : p.index < e.usedPages
    · exact ⟨.vmPgpmapq, mem_memInit_queue.mpr ⟨e, he, hr.symm, .inl ⟨rfl, hused⟩⟩⟩
    · exact ⟨.vmPgfreeq, mem_memInit_queue.mpr ⟨e, he, hr.symm, .inr ⟨rfl, by omega, hidx⟩⟩⟩

/-- **Membership is sound.** In every state reached after boot every page of the machine is on
exactly one of the six queues, once, and nothing else is on a queue. -/
theorem page_on_one_queue (h : (machine m).Reachable (memInit m) s) : OnOne m s := by
  refine h.invariant (onOne_memInit m) ?_
  intro s a s' hi _ hs
  obtain ⟨p, src, dst, rfl, hp⟩ := step_cases hs
  exact onOne_moveQueue hi (hp.elim id (hi.isPage p _))

/-- **The two records never agree.** For every memory map and every state reached after boot: the
page queues are as they should be if and only if the machine has no usable memory. -/
theorem page_queues_iff (h : (machine m).Reachable (memInit m) s) :
    QueuesAgree m s ↔ m.regions = [] := by
  constructor
  · -- a region's first page holds the resident page table, and `vm_page_queue` asserts on its tag
    intro hagree
    rw [List.eq_nil_iff_forall_not_mem]
    intro e he
    have hpage : m.IsPage ⟨e.base, 0⟩ := ⟨e, he, rfl, npages_pos he⟩
    obtain ⟨q, hq⟩ := (page_on_one_queue h).exists_mem _ hpage
    have hqueue := hagree.page_queue _ q hpage hq
    rw [tag_reach h, tag_memInit_first he] at hqueue
    cases hqueue
  · -- without a page no call succeeds, and boot has left every queue empty
    intro hnil
    have hnone : ∀ p, ¬ m.IsPage p := by
      rintro p ⟨e, he, -⟩
      rw [hnil] at he
      cases he
    have hstay : s = memInit m := by
      refine h.invariant (I := fun s => s = memInit m) rfl ?_
      rintro s a s' rfl _ hs
      obtain ⟨p, src, dst, -, hp⟩ := step_cases hs
      exact absurd (hp.elim id ((onOne_memInit m).isPage p _)) (hnone p)
    subst hstay
    have hinit : memInit m
        = { tag := fun _ => .kVMPageFree, queue := fun _ => [], npages := fun _ => 0 } := by
      rw [memInit, hnil]
      rfl
    constructor
    case on_one => exact fun p hp => absurd hp (hnone p)
    case tag_names => exact fun p q hp => absurd hp (hnone p)
    case page_queue => exact fun p q hp => absurd hp (hnone p)
    case npages_eq => rw [hinit]; exact fun _ => rfl
    case free_removes => exact fun p q hp => absurd hp (hnone p)

/-- A machine with one region of sixteen pages. -/
def sixteenPages : MemMap where
  entries := [⟨0x100000, 0x10000, 0⟩]
  aligned := by decide
  disjoint := List.pairwise_singleton _ _

/-- On that machine the records disagree also after a page has been allocated and freed. -/
theorem page_queues_iff_sixteen :
    ∃ s, (machine sixteenPages).exec (memInit sixteenPages)
        [.vmPagealloc .vmPgactiveq, .vmPageFree ⟨0x100000, 1⟩] = some s ∧
      ¬ QueuesAgree sixteenPages s := by
  refine ⟨_, rfl, ?_⟩
  rw [page_queues_iff (Machine.reachable_of_exec
    (l := [.vmPagealloc .vmPgactiveq, .vmPageFree ⟨0x100000, 1⟩]) rfl)]
  decide

/-- **A page out of step.** `vm_pagealloc` of an active page leaves its tag at `kVMPageFree`, and so
its release is charged to the free queue: the count of the active queue stays at one when the queue
is empty. -/
theorem page_queues_alloc_free :
    ¬ ∀ s, (machine sixteenPages).Reachable (memInit sixteenPages) s →
      QueuesAgree sixteenPages s := by
  intro h
  have hrun := h _ (Machine.reachable_of_exec
    (l := [.vmPagealloc .vmPgactiveq, .vmPageFree ⟨0x100000, 1⟩]) rfl)
  have hcount := hrun.npages_eq .vmPgactiveq
  revert hcount
  decide

end Scalux.Pageq
