import Scalux.Kern.KmemGeneral

/-! # The contract of `kmem_alloc`

Runs of `kmem_alloc`, `kmem_realloc` and `kmem_free` from `kmem_init` on, with callers that release what
they hold with the size that they have asked for, and that store bytes into it.

* **`Backed`**: the blocks of callers are objects of the slabs and runs of pages.
* **`kmem_contract`**: blocks have room, are apart and aligned, go back where they came from, and keep their
  bytes when they grow. -/

namespace Scalux.Kmem

/-! ## Blocks and callers -/

/-- The zone of a size. -/
def zoneOf (size : ℕ) : ZoneId := kmemAllocZones (zonenum size)

/-- The bytes that a caller may use: the size of the zone, or whole pages. -/
def usable (size : ℕ) : ℕ :=
  if size ≤ 4096 then zoneSizes[(zonenum size).toNat]?.getD 0 else npages size * pgSize

/-- A block, given by its address and the size that was asked for. -/
def extent (b : ℕ × ℕ) : ℕ × ℕ := (b.1, usable b.2)

/-- The blocks that are objects of zones. -/
def heldOf (blocks : List (ℕ × ℕ)) : List (ZoneId × ℕ) :=
  (blocks.filter (·.2 ≤ 4096)).map fun b => (zoneOf b.2, b.1)

/-- The blocks that are pages. -/
def pagesOf (blocks : List (ℕ × ℕ)) : List (ℕ × ℕ) :=
  (blocks.filter fun b => ¬ b.2 ≤ 4096).map extent

/-- The largest size, of which the pages are fewer than the words. -/
def maxSize : ℕ := 2 ^ 64 - pgSize

/-- The allocator, and the blocks of its callers. -/
structure Clients where
  kmem : Allocator
  blocks : List (ℕ × ℕ)

/-- The calls; `next` are the addresses that `vm_kalloc` returns, and `depth` bounds the depth of the
recursion. -/
inductive Request
  | kmemAlloc (next : List ℕ) (depth size : ℕ)
  | kmemRealloc (next : List ℕ) (depth ptr oldSize size : ℕ)
  | kmemFree (ptr size : ℕ)
  /-- A caller stores a byte into a block that it holds. -/
  | write (ptr size a v : ℕ)
  deriving DecidableEq, Repr

/-- One call. -/
def request (s : Clients) : Request → Option Clients
  | .kmemAlloc next depth size =>
      if size ≤ maxSize then
        (kmemAlloc depth size { s.kmem with next := next }).map fun x => ⟨x.2, (x.1, size) :: s.blocks⟩
      else none
  | .kmemRealloc next depth ptr oldSize size =>
      if (ptr = 0 ∨ (ptr, oldSize) ∈ s.blocks) ∧ size ≤ maxSize then
        (kmemRealloc depth ptr oldSize size { s.kmem with next := next }).map fun x =>
          ⟨x.2, (x.1, size) :: s.blocks.erase (ptr, oldSize)⟩
      else none
  | .kmemFree ptr size =>
      if (ptr, size) ∈ s.blocks then
        (kmemFree ptr size s.kmem).map fun k => ⟨k, s.blocks.erase (ptr, size)⟩
      else none
  | .write ptr size a v =>
      if (ptr, size) ∈ s.blocks ∧ ptr ≤ a ∧ a < ptr + size ∧ v < 256 then
        some { s with kmem := { s.kmem with mem := storeByte s.kmem.mem a v } }
      else none

/-- The runs of callers. -/
def clients : Machine Clients Request := ⟨request⟩

/-- The blocks are objects of the slabs `G` and runs of pages. -/
structure Backed (G : List Slab) (s : Clients) : Prop where
  inv : Inv [] (heldOf s.blocks) G s.kmem
  zones : ∀ i c, zoneSizes[i]? = some c → zoneSize s.kmem (i + 2) = c
  sizes : ∀ b ∈ s.blocks, 0 < b.2 ∧ b.2 ≤ maxSize
  run_mem : pagesOf s.blocks ⊆ s.kmem.runs
  run_dvd : ∀ r ∈ pagesOf s.blocks, pgSize ∣ r.1 ∧ r.1 ≠ 0
  pages_apart : (pagesOf s.blocks).Pairwise Apart
  spare : ∀ r ∈ pagesOf s.blocks, ∀ t ∈ G, Apart r t.run

/-- Where a block goes: an object of a zone into the free list of its slab, which is one of the zone, and
pages to the others that are not in use. -/
def ReturnsTo (b : ℕ × ℕ) (k k' : Allocator) : Prop :=
  if b.2 ≤ 4096 then
    PutsBack (zoneOf b.2) b.1 k k' ∧ (zoneOf b.2, b.1) ∈ k.live ∧
      k'.live = k.live.erase (zoneOf b.2, b.1) ∧ k'.runs = k.runs
  else extent b ∈ k.runs ∧ k'.runs = k.runs.erase (extent b) ∧ k'.live = k.live

/-- What callers rely on. -/
structure Contract (s : Clients) : Prop where
  room : ∀ b ∈ s.blocks, b.2 ≤ usable b.2
  apart : (s.blocks.map extent).Pairwise Apart
  aligned : ∀ b ∈ s.blocks, ∀ e ≤ 12, b.2 = 2 ^ e → 2 ^ e ∣ b.1
  free : ∀ b ∈ s.blocks, ∃ k', kmemFree b.1 b.2 s.kmem = some k' ∧ ReturnsTo b s.kmem k'
  realloc : ∀ b ∈ s.blocks, ∀ next depth size p k, b.2 < size → size ≤ maxSize →
    kmemAlloc depth size { s.kmem with next := next } = some (p, k) →
    ∃ k', kmemRealloc depth b.1 b.2 size { s.kmem with next := next } = some (p, k') ∧
      ∀ i < b.2, byteAt k'.mem (p + i) = byteAt s.kmem.mem (b.1 + i)

/-! ## Sizes and blocks -/

variable {G : List Slab} {s s' : Clients} {k k' : Allocator} {blocks : List (ℕ × ℕ)} {b c : ℕ × ℕ}
  {size depth p a : ℕ} {next : List ℕ}

/-- The zone of a size is the least one that has room for it. -/
theorem usable_zone (hpos : 0 < size) (hle : size ≤ 4096) :
    0 ≤ zonenum size ∧ zoneSizes[(zonenum size).toNat]? = some (usable size) ∧ size ≤ usable size ∧
      ∀ c ∈ zoneSizes, size ≤ c → usable size ≤ c := by
  obtain ⟨hnonneg, c, hget, hroom, hleast⟩ := zonenum_spec hpos hle
  have husable : usable size = c := by rw [usable, if_pos hle, hget, Option.getD_some]
  rw [husable]
  exact ⟨hnonneg, hget, hroom, hleast⟩

/-- Above 4096 whole pages can be used. -/
theorem usable_pages (hlt : 4096 < size) : usable size = npages size * pgSize := if_neg (Nat.not_le.mpr hlt)

/-- A block has room for what was asked for. -/
theorem le_usable (hpos : 0 < size) (hmax : size ≤ maxSize) : size ≤ usable size := by
  by_cases hle : size ≤ 4096
  · exact (usable_zone hpos hle).2.2.1
  · rw [usable_pages (Nat.not_le.mp hle)]
    unfold maxSize at hmax
    unfold npages
    rw [pgRoundUp_eq]
    unfold pgSize at *
    omega

/-- A power of two divides the size of its zone. -/
theorem pow_dvd_usable {e : ℕ} (he : e ≤ 12) : 2 ^ e ∣ usable (2 ^ e) := by
  have hle : 2 ^ e ≤ 4096 := Nat.pow_le_pow_right (n := 2) (by decide) he
  obtain ⟨-, hget, hroom, hleast⟩ := usable_zone (Nat.two_pow_pos e) hle
  have hzone : ∀ e ≤ 12, 2 ^ e ∈ zoneSizes ∨ 2 ^ e ∣ 8 := by decide
  rcases hzone e he with hmem | hdvd
  · rw [Nat.le_antisymm (hleast _ hmem (Nat.le_refl _)) hroom]
  · have hdvd' : ∀ c ∈ zoneSizes, 8 ∣ c := by decide
    exact hdvd.trans (hdvd' _ (List.mem_of_getElem? hget))

/-- A small block is held in its zone. -/
theorem heldOf_cons_small (hle : b.2 ≤ 4096) : heldOf (b :: blocks) = (zoneOf b.2, b.1) :: heldOf blocks := by
  unfold heldOf
  rw [List.filter_cons_of_pos (by simp [hle]), List.map_cons]

/-- A block of pages is held in no zone. -/
theorem heldOf_cons_pages (hlt : 4096 < b.2) : heldOf (b :: blocks) = heldOf blocks := by
  unfold heldOf
  rw [List.filter_cons_of_neg (by simp [hlt])]

/-- A small block is no block of pages. -/
theorem pagesOf_cons_small (hle : b.2 ≤ 4096) : pagesOf (b :: blocks) = pagesOf blocks := by
  unfold pagesOf
  rw [List.filter_cons_of_neg (by simp [hle])]

/-- A block of pages, with those of the others. -/
theorem pagesOf_cons_pages (hlt : 4096 < b.2) : pagesOf (b :: blocks) = extent b :: pagesOf blocks := by
  unfold pagesOf
  rw [List.filter_cons_of_pos (by simp [hlt]), List.map_cons]

/-- A small block is among those held. -/
theorem mem_heldOf (hb : b ∈ blocks) (hle : b.2 ≤ 4096) : (zoneOf b.2, b.1) ∈ heldOf blocks :=
  List.mem_map.mpr ⟨b, List.mem_filter.mpr ⟨hb, decide_eq_true hle⟩, rfl⟩

/-- A block of pages is among those. -/
theorem mem_pagesOf (hb : b ∈ blocks) (hlt : 4096 < b.2) : extent b ∈ pagesOf blocks :=
  List.mem_map.mpr ⟨b, List.mem_filter.mpr ⟨hb, by simp [hlt]⟩, rfl⟩

/-- The order of the blocks does not matter. -/
theorem Backed.perm (h : Backed G s) (hp : s.blocks.Perm blocks) : Backed G { s with blocks := blocks } := by
  have hpages : (pagesOf s.blocks).Perm (pagesOf blocks) := (hp.filter _).map _
  constructor
  · exact h.inv.perm_held ((hp.filter _).map _)
  · exact h.zones
  · exact fun b hb => h.sizes b (hp.mem_iff.mpr hb)
  · exact fun r hr => h.run_mem (hpages.mem_iff.mpr hr)
  · exact fun r hr => h.run_dvd r (hpages.mem_iff.mpr hr)
  · exact (hpages.pairwise_iff Apart.symm).mp h.pages_apart
  · exact fun r hr => h.spare r (hpages.mem_iff.mpr hr)

/-- The size of the zone of a size. -/
theorem Backed.zoneSize_eq (h : Backed G s) (hpos : 0 < size) (hle : size ≤ 4096) :
    zoneSize s.kmem (zoneOf size) = usable size := h.zones _ _ (usable_zone hpos hle).2.1

/-- A block of a zone is an object that a caller holds. -/
theorem Backed.block_eq (h : Backed G s) (hb : b ∈ s.blocks) (hle : b.2 ≤ 4096) :
    block s.kmem (zoneOf b.2, b.1) = extent b := by
  rw [block, h.zoneSize_eq (h.sizes b hb).1 hle]
  rfl

/-- A block of a zone is in the pages of a slab. -/
theorem Backed.within (h : Backed G s) (hb : b ∈ s.blocks) (hle : b.2 ≤ 4096) :
    ∃ t ∈ G, t.run.1 ≤ b.1 ∧ b.1 + usable b.2 ≤ t.run.1 + t.run.2 := by
  have hblock : extent b ∈ (heldOf s.blocks).map (block s.kmem) :=
    List.mem_map.mpr ⟨_, mem_heldOf hb hle, h.block_eq hb hle⟩
  exact h.inv.used_within (List.mem_append_right _ hblock)

/-- A block of a zone and one of pages are apart. -/
theorem Backed.small_pages (h : Backed G s) (hb : b ∈ s.blocks) (hle : b.2 ≤ 4096) {r : ℕ × ℕ}
    (hr : r ∈ pagesOf s.blocks) : Apart (extent b) r := by
  obtain ⟨t, ht, hin⟩ := h.within hb hle
  exact ((h.spare r hr t ht).mono ⟨Nat.le_refl _, Nat.le_refl _⟩ hin).symm

/-- **The blocks are apart.** -/
theorem Backed.extents_apart (h : Backed G s) : (s.blocks.map extent).Pairwise Apart := by
  have hsmall : (s.blocks.filter (·.2 ≤ 4096)).map extent = (heldOf s.blocks).map (block s.kmem) := by
    unfold heldOf
    rw [List.map_map]
    refine List.map_congr_left fun b hb => ?_
    obtain ⟨hb, hle⟩ := List.mem_filter.mp hb
    exact (h.block_eq hb (of_decide_eq_true hle)).symm
  -- up to their order the blocks are the small ones and those of whole pages
  have hperm : (s.blocks.map extent).Perm
      ((heldOf s.blocks).map (block s.kmem) ++ pagesOf s.blocks) := by
    rw [← hsmall]
    unfold pagesOf
    rw [← List.map_append]
    refine (List.Perm.map _ ?_).symm
    have hfilter := List.filter_append_perm (fun b : ℕ × ℕ => decide (b.2 ≤ 4096)) s.blocks
    simpa only [decide_not] using hfilter
  refine pairwise_apart_of_subperm (List.pairwise_append.mpr ⟨?_, h.pages_apart, ?_⟩) hperm.subperm
  · exact (List.pairwise_append.mp h.inv.used_apart).2.1
  · intro x hx r hr
    obtain ⟨y, hy, rfl⟩ := List.mem_map.mp hx
    obtain ⟨b, hb, rfl⟩ := List.mem_map.mp hy
    obtain ⟨hb, hle⟩ := List.mem_filter.mp hb
    rw [h.block_eq hb (of_decide_eq_true hle)]
    exact h.small_pages hb (of_decide_eq_true hle) hr

/-- **A block is aligned** to a power of two that divides a page and the size of its zone. -/
theorem Backed.dvd (h : Backed G s) (hb : b ∈ s.blocks) {m : ℕ} (hpage : m ∣ pgSize)
    (hzone : b.2 ≤ 4096 → m ∣ usable b.2) : m ∣ b.1 := by
  by_cases hle : b.2 ≤ 4096
  · have hheld := mem_heldOf hb hle
    obtain ⟨t, G', i, hperm, -, heq⟩ := (h.inv.perm_held (List.perm_cons_erase hheld)).slab_of_held
    have ht : t ∈ G := hperm.mem_iff.mpr List.mem_cons_self
    obtain ⟨hz, hobj⟩ := Prod.mk.inj heq
    have hsize : t.size = usable b.2 := by
      rw [← h.inv.size_eq t ht, ← hz, h.zoneSize_eq (h.sizes b hb).1 hle]
    rw [hobj, Slab.obj, hsize]
    exact Nat.dvd_add (hpage.trans (h.inv.ok t ht).data_dvd) (Dvd.dvd.mul_left (hzone hle) i)
  · exact hpage.trans (h.run_dvd _ (mem_pagesOf hb (Nat.not_le.mp hle))).1

/-- A block is aligned to words. -/
theorem Backed.dvd_eight (h : Backed G s) (hb : b ∈ s.blocks) : 8 ∣ b.1 := by
  refine h.dvd hb (by decide) fun hle => ?_
  have hdvd : ∀ c ∈ zoneSizes, 8 ∣ c := by decide
  exact hdvd _ (List.mem_of_getElem? (usable_zone (h.sizes b hb).1 hle).2.1)

/-- The word of a byte of a block. -/
theorem Backed.wordOf_has (h : Backed G s) (hb : b ∈ s.blocks) (ha : Has (extent b) a) :
    Has (extent b) (wordOf a) := by
  obtain ⟨m, hm⟩ := h.dvd_eight hb
  unfold Has extent wordOf at *
  dsimp only at *
  omega

/-! ## The calls -/

/-- `kmem_alloc`: a new block, and what it leaves of blocks that are not larger. -/
theorem Backed.alloc (h : Backed G s) (hmax : size ≤ maxSize)
    (hs : kmemAlloc depth size { s.kmem with next := next } = some (p, k)) :
    ∃ G', Backed G' ⟨k, (p, size) :: s.blocks⟩ ∧
      ∀ b ∈ s.blocks, b.2 ≤ size → ∀ a, Has (extent b) a → k.mem a = s.kmem.mem a := by
  unfold kmemAlloc at hs
  split at hs
  · cases hs
  · rename_i hzero
    have hpos := Nat.pos_of_ne_zero hzero
    have hsizes : ∀ b ∈ (p, size) :: s.blocks, 0 < b.2 ∧ b.2 ≤ maxSize := by
      intro b hb
      rcases List.mem_cons.mp hb with rfl | hb
      · exact ⟨hpos, hmax⟩
      · exact h.sizes b hb
    have hinv : Inv [] (heldOf s.blocks) G { s.kmem with next := next } := { h.inv with }
    -- a zone up to 4096 bytes, pages of their own above
    by_cases hle : size ≤ 4096
    · have hnum : zonenum size ≠ -1 := by
        have hnonneg := (usable_zone hpos hle).1
        omega
      rw [if_neg hnum] at hs
      obtain ⟨G', hinv', hleaves⟩ := kmemZonealloc_spec hinv hs
      have hpages : pagesOf ((p, size) :: s.blocks) = pagesOf s.blocks := pagesOf_cons_small hle
      refine ⟨G', ⟨?_, ?_, hsizes, ?_, ?_, ?_, ?_⟩, fun b hb hb' a ha => ?_⟩
      · rw [heldOf_cons_small hle]
        exact hinv'
      · intro i c hc
        rw [hleaves.sizes]
        exact h.zones i c hc
      · rw [hpages]
        exact fun r hr => hleaves.runs (h.run_mem hr)
      · rw [hpages]
        exact h.run_dvd
      · rw [hpages]
        exact h.pages_apart
      · rw [hpages]
        exact fun r hr => hleaves.spares r (h.run_mem hr) (h.spare r hr)
      · refine hleaves.words _ (mem_heldOf hb (hb'.trans hle)) a ?_
        exact (h.block_eq hb (hb'.trans hle)).symm ▸ ha
    · have hlt := Nat.not_le.mp hle
      rw [if_pos (zonenum_eq_neg_one hlt)] at hs
      -- the pages are apart from every run, hence from the slabs and from the other page blocks
      obtain ⟨⟨next', rfl⟩, hbase, halign, -, -, hfresh⟩ := vmKalloc_spec hs
      have hpages : pagesOf ((p, size) :: s.blocks) = (p, npages size * pgSize) :: pagesOf s.blocks := by
        rw [pagesOf_cons_pages hlt, extent, usable_pages hlt]
      refine ⟨G, ⟨?_, h.zones, hsizes, ?_, ?_, ?_, ?_⟩, fun _ _ _ _ _ => rfl⟩
      · rw [heldOf_cons_pages hlt]
        exact hinv.addRun _ next'
      · rw [hpages]
        exact List.cons_subset_cons _ h.run_mem
      · rw [hpages]
        intro r hr
        rcases List.mem_cons.mp hr with rfl | hr
        · exact ⟨halign, hbase⟩
        · exact h.run_dvd r hr
      · rw [hpages]
        exact List.pairwise_cons.mpr ⟨fun r hr => hfresh r (h.run_mem hr), h.pages_apart⟩
      · rw [hpages]
        intro r hr t ht
        rcases List.mem_cons.mp hr with rfl | hr
        · exact hfresh _ (h.inv.run_mem t ht)
        · exact h.spare r hr t ht

/-- `kmem_free` of an object of a zone. -/
theorem Backed.free_small (h : Backed G ⟨k, b :: blocks⟩) (hle : b.2 ≤ 4096) :
    ∃ k' G', kmemFree b.1 b.2 k = some k' ∧ Backed G' ⟨k', blocks⟩ ∧ ReturnsTo b k k' ∧
      ∀ c ∈ blocks, ∀ a, Has (extent c) a → k'.mem a = k.mem a := by
  have hpos := (h.sizes b List.mem_cons_self).1
  have hnum : zonenum b.2 ≠ -1 := by
    have hnonneg := (usable_zone hpos hle).1
    omega
  have hinv := h.inv
  rw [heldOf_cons_small hle] at hinv
  have hpages : pagesOf (b :: blocks) = pagesOf blocks := pagesOf_cons_small hle
  -- the zone of the size is the zone the block came from, so the slab is found and the entry put back
  obtain ⟨k', G', hfree, hinv', hrel⟩ := kmemZonefree_spec hinv
  refine ⟨k', G', ?_, ⟨hinv', ?_, ?_, ?_, ?_, ?_, ?_⟩, ?_, fun c hc a ha => ?_⟩
  · unfold kmemFree
    rw [if_neg (Nat.ne_of_gt hpos), if_neg hnum]
    exact hfree
  · intro i c hc
    rw [hrel.sizes]
    exact h.zones i c hc
  · exact fun c hc => h.sizes c (List.mem_cons_of_mem _ hc)
  · intro r hr
    rw [hrel.runs]
    exact h.run_mem (hpages ▸ hr)
  · exact fun r hr => h.run_dvd r (hpages ▸ hr)
  · exact hpages ▸ h.pages_apart
  · exact fun r hr => hrel.spares r (h.run_mem (hpages ▸ hr)) (h.spare r (hpages ▸ hr))
  · unfold ReturnsTo
    rw [if_pos hle]
    exact ⟨kmemZonefree_putsBack hinv hfree, hinv.owned.mem_iff.mpr List.mem_cons_self, hrel.live,
      hrel.runs⟩
  · -- the word is neither in the object nor in a block that the allocator uses
    refine hrel.words a (fun x hx hhas => ?_) fun hhas => ?_
    -- another object of a zone is apart from this one, and pages are apart from every slab
    · by_cases hc' : c.2 ≤ 4096
      · have hblock : extent c ∈ (heldOf (b :: blocks)).map (block k) :=
          List.mem_map.mpr ⟨_, mem_heldOf (List.mem_cons_of_mem _ hc) hc',
            h.block_eq (List.mem_cons_of_mem _ hc) hc'⟩
        exact ((List.pairwise_append.mp h.inv.used_apart).2.2 x hx _ hblock).not_has hhas ha
      · obtain ⟨t, ht, hin⟩ := h.inv.used_within (List.mem_append_left _ hx)
        have hr := mem_pagesOf (List.mem_cons_of_mem b hc) (Nat.not_le.mp hc')
        exact ((h.spare _ hr t ht).mono ⟨Nat.le_refl _, Nat.le_refl _⟩ hin).not_has ha hhas
    · have hpair := (List.pairwise_cons.mp h.extents_apart).1 _ (List.mem_map_of_mem hc)
      rw [show block k (zoneOf b.2, b.1) = extent b from h.block_eq List.mem_cons_self hle] at hhas
      exact hpair.not_has hhas ha

/-- `kmem_free` of pages. -/
theorem Backed.free_pages (h : Backed G ⟨k, b :: blocks⟩) (hlt : 4096 < b.2) :
    ∃ k' G', kmemFree b.1 b.2 k = some k' ∧ Backed G' ⟨k', blocks⟩ ∧ ReturnsTo b k k' ∧
      ∀ c ∈ blocks, ∀ a, Has (extent c) a → k'.mem a = k.mem a := by
  obtain ⟨hpos, hmax⟩ := h.sizes b List.mem_cons_self
  have hext : extent b = (b.1, npages b.2 * pgSize) := by rw [extent, usable_pages hlt]
  have hpages : pagesOf (b :: blocks) = extent b :: pagesOf blocks := pagesOf_cons_pages hlt
  have hmem : extent b ∈ k.runs := h.run_mem (hpages ▸ List.mem_cons_self)
  have hapart := h.pages_apart
  have hspare := h.spare
  rw [hpages] at hapart hspare
  -- pages that are apart from the block are not the block
  have hlen : 0 < (extent b).2 := Nat.lt_of_lt_of_le hpos (le_usable hpos hmax)
  have hne : ∀ r, Apart (extent b) r → r ≠ extent b := by
    rintro r hr rfl
    unfold Apart at hr
    omega
  refine ⟨{ k with runs := k.runs.erase (extent b) }, G, ?_, ⟨?_, h.zones, ?_, ?_, ?_, ?_, ?_⟩, ?_,
    fun _ _ _ _ => rfl⟩
  · unfold kmemFree vmKfree
    rw [if_neg (Nat.ne_of_gt hpos), if_pos (zonenum_eq_neg_one hlt), ← hext,
      if_pos (List.contains_iff_mem.mpr hmem)]
  · have hinv := h.inv
    rw [heldOf_cons_pages hlt] at hinv
    refine { hinv with run_mem := fun t ht => ?_ }
    exact (List.mem_erase_of_ne (hne _ (hspare _ List.mem_cons_self t ht))).mpr (hinv.run_mem t ht)
  · exact fun c hc => h.sizes c (List.mem_cons_of_mem _ hc)
  · intro r hr
    refine (List.mem_erase_of_ne (hne r ((List.pairwise_cons.mp hapart).1 r hr))).mpr ?_
    exact h.run_mem (hpages ▸ List.mem_cons_of_mem _ hr)
  · exact fun r hr => h.run_dvd r (hpages ▸ List.mem_cons_of_mem _ hr)
  · exact (List.pairwise_cons.mp hapart).2
  · exact fun r hr => hspare r (List.mem_cons_of_mem _ hr)
  · unfold ReturnsTo
    rw [if_neg (Nat.not_le.mpr hlt)]
    exact ⟨hmem, rfl, rfl⟩

/-- **`kmem_free`**: the block goes back, and the other blocks keep their contents. -/
theorem Backed.free (h : Backed G s) (hb : b ∈ s.blocks) :
    ∃ k' G', kmemFree b.1 b.2 s.kmem = some k' ∧ Backed G' ⟨k', s.blocks.erase b⟩ ∧
      ReturnsTo b s.kmem k' ∧
      ∀ c ∈ s.blocks.erase b, ∀ a, Has (extent c) a → k'.mem a = s.kmem.mem a := by
  have h' : Backed G ⟨s.kmem, b :: s.blocks.erase b⟩ := h.perm (List.perm_cons_erase hb)
  by_cases hle : b.2 ≤ 4096
  · exact h'.free_small hle
  · exact h'.free_pages (Nat.not_le.mp hle)

/-- **A byte** that is stored into a block. -/
theorem Backed.store (h : Backed G s) (hb : b ∈ s.blocks) (ha : Has (extent b) a) (v : ℕ) :
    Backed G { s with kmem := { s.kmem with mem := storeByte s.kmem.mem a v } } := by
  have hword := h.wordOf_has hb ha
  refine { h with inv := ?_ }
  by_cases hle : b.2 ≤ 4096
  · exact h.inv.write (mem_heldOf hb hle) ((h.block_eq hb hle).symm ▸ hword) _
  · refine h.inv.fresh (h.spare _ (mem_pagesOf hb (Nat.not_le.mp hle))) fun c hc => ?_
    refine Function.update_of_ne ?_ _ _
    rintro rfl
    exact hc hword

/-- Bytes that are stored into a block. -/
theorem Backed.storeBytes {l : List ℕ} (h : Backed G s) (hb : b ∈ s.blocks) (hl : l.length ≤ usable b.2) :
    Backed G { s with kmem := { s.kmem with mem := storeBytes s.kmem.mem b.1 l } } := by
  refine storeBytes_induction (P := fun mem => Backed G { s with kmem := { s.kmem with mem := mem } }) h ?_
  intro mem c v hlo hhi hm
  exact hm.store (b := b) hb ⟨hlo, Nat.lt_of_lt_of_le hhi (Nat.add_le_add_left hl _)⟩ v

/-- A block is not at the null address. -/
theorem Backed.ne_zero (h : Backed G s) (hb : b ∈ s.blocks) : b.1 ≠ 0 := by
  by_cases hle : b.2 ≤ 4096
  · exact h.inv.held_ne_zero (mem_heldOf hb hle)
  · exact (h.run_dvd _ (mem_pagesOf hb (Nat.not_le.mp hle))).2

/-- A byte of a block depends on the words of the block. -/
theorem Backed.byteAt_congr {mem mem' : ℕ → ℕ} (h : Backed G s) (hb : b ∈ s.blocks) {i : ℕ} (hi : i < b.2)
    (hmem : ∀ a, Has (extent b) a → mem' a = mem a) : byteAt mem' (b.1 + i) = byteAt mem (b.1 + i) := by
  have hroom := le_usable (h.sizes b hb).1 (h.sizes b hb).2
  have hhas : Has (extent b) (b.1 + i) := by
    unfold Has extent
    dsimp only
    omega
  unfold byteAt
  rw [hmem _ (h.wordOf_has hb hhas)]

/-- **`kmem_realloc`**: the bytes of the old block are those of the new one. -/
theorem Backed.realloc (h : Backed G s) (hb : b ∈ s.blocks) (hlt : b.2 < size) (hmax : size ≤ maxSize)
    (hs : kmemAlloc depth size { s.kmem with next := next } = some (p, k)) :
    ∃ k' G', kmemRealloc depth b.1 b.2 size { s.kmem with next := next } = some (p, k') ∧
      Backed G' ⟨k', (p, size) :: s.blocks.erase b⟩ ∧
      ∀ i < b.2, byteAt k'.mem (p + i) = byteAt s.kmem.mem (b.1 + i) := by
  obtain ⟨G₁, h₁, hwords₁⟩ := h.alloc hmax hs
  have hpos := (h.sizes b hb).1
  have hroom : b.2 ≤ usable size := hlt.le.trans (le_usable (hpos.trans hlt) hmax)
  have h₂ := h₁.storeBytes (l := loadBytes k.mem b.1 b.2) List.mem_cons_self
    (by rw [length_loadBytes]; exact hroom)
  -- the new block is larger than the old one, so freeing the old one leaves it
  have hne : (p, size) ≠ b := by
    rintro rfl
    exact Nat.lt_irrefl _ hlt
  obtain ⟨k', G', hfree, hbacked, -, hwords⟩ := h₂.free (List.mem_cons_of_mem _ hb)
  have herase : ((p, size) :: s.blocks).erase b = (p, size) :: s.blocks.erase b :=
    List.erase_cons_tail (by simpa using hne)
  rw [herase] at hbacked hwords
  refine ⟨k', G', ?_, hbacked, fun i hi => ?_⟩
  · unfold kmemRealloc
    rw [hs]
    show (if b.1 ≠ 0 then _ else _) = _
    rw [if_pos (h.ne_zero hb), if_neg (by omega)]
    show (kmemFree b.1 b.2 (memcpy p b.1 b.2 k)).bind _ = _
    rw [show kmemFree b.1 b.2 (memcpy p b.1 b.2 k) = some k' from hfree]
    rfl
  · have hlast := hbacked.byteAt_congr List.mem_cons_self (hi.trans hlt)
      (hwords (p, size) List.mem_cons_self)
    exact hlast.trans ((byteAt_copy k.mem b.1 hi).trans (h.byteAt_congr hb hi (hwords₁ b hb hlt.le)))

/-! ## Runs -/

/-- Each call keeps the blocks backed. -/
theorem backed_request {r : Request} (h : ∃ G, Backed G s) (hs : request s r = some s') :
    ∃ G, Backed G s' := by
  obtain ⟨G, h⟩ := h
  cases r with
  | kmemAlloc next depth size =>
      rw [request] at hs
      split at hs
      · rename_i hmax
        obtain ⟨⟨p, k⟩, halloc, rfl⟩ := Option.map_eq_some_iff.mp hs
        obtain ⟨G', h', -⟩ := h.alloc hmax halloc
        exact ⟨G', h'⟩
      · cases hs
  | kmemRealloc next depth ptr oldSize size =>
      rw [request] at hs
      split at hs
      · rename_i hcond
        obtain ⟨hptr, hmax⟩ := hcond
        obtain ⟨⟨p, k⟩, hrealloc, rfl⟩ := Option.map_eq_some_iff.mp hs
        -- the new block is taken first; the old one is copied and released only when there is one
        obtain ⟨⟨ret, k₁⟩, halloc, hrest⟩ := Option.bind_eq_some_iff.mp hrealloc
        dsimp only at hrest
        split at hrest
        · rename_i hnull
          have hmem := hptr.resolve_left hnull
          split at hrest
          · cases hrest
          · rename_i hsize
            obtain ⟨k', G', hre, hbacked, -⟩ := h.realloc hmem (by omega) hmax halloc
            rw [hrealloc] at hre
            cases hre
            exact ⟨G', hbacked⟩
        · -- a null pointer: there is no block to be released
          rename_i hnull
          cases hrest
          obtain ⟨G', h', -⟩ := h.alloc hmax halloc
          have hnot : (ptr, oldSize) ∉ s.blocks := fun hmem => h.ne_zero hmem (not_not.mp hnull)
          rw [List.erase_of_not_mem hnot]
          exact ⟨G', h'⟩
      · cases hs
  | kmemFree ptr size =>
      rw [request] at hs
      split at hs
      · rename_i hmem
        obtain ⟨k, hfree, rfl⟩ := Option.map_eq_some_iff.mp hs
        obtain ⟨k', G', hfree', hbacked, -⟩ := h.free hmem
        rw [hfree] at hfree'
        cases hfree'
        exact ⟨G', hbacked⟩
      · cases hs
  | write ptr size a v =>
      rw [request] at hs
      split at hs
      · rename_i hcond
        obtain ⟨hmem, hlo, hhi, -⟩ := hcond
        cases hs
        have hroom := le_usable (h.sizes _ hmem).1 (h.sizes _ hmem).2
        exact ⟨G, h.store hmem ⟨hlo, Nat.lt_of_lt_of_le hhi (Nat.add_le_add_left hroom _)⟩ v⟩
      · cases hs

/-- The zones that `kmem_init` makes. -/
theorem zoneSize_kmemInit {mem : ℕ → ℕ} (hinit : kmemInit mem = some k) :
    ∀ i c, zoneSizes[i]? = some c → zoneSize k (i + 2) = c := by
  have hsizes : (kmemInit mem).map (fun k => (List.range 32).map fun i => zoneSize k (i + 2))
      = some zoneSizes := rfl
  rw [hinit, Option.map_some] at hsizes
  intro i c hc
  rw [← Option.some.inj hsizes, List.getElem?_map] at hc
  obtain ⟨j, hj, rfl⟩ := Option.map_eq_some_iff.mp hc
  rw [← (List.getElem?_eq_some_iff.mp hj).2, List.getElem_range]

/-- No caller has a block yet. -/
theorem backed_kmemInit {mem : ℕ → ℕ} (hinit : kmemInit mem = some k) : Backed [] ⟨k, []⟩ where
  inv := inv_kmemInit hinit
  zones := zoneSize_kmemInit hinit
  sizes := by simp
  run_mem := List.nil_subset _
  run_dvd := by simp [pagesOf]
  pages_apart := .nil
  spare := by simp

/-- The blocks of every state that is reached are backed. -/
theorem backed_of_reachable {mem : ℕ → ℕ} (hinit : kmemInit mem = some k)
    (hreach : clients.Reachable ⟨k, []⟩ s) : ∃ G, Backed G s := by
  refine hreach.invariant (I := fun s => ∃ G, Backed G s) ⟨[], backed_kmemInit hinit⟩ ?_
  intro s r s' h _ hs
  exact backed_request h hs

/-- **The contract.** In every run of `kmem_alloc`, `kmem_realloc` and `kmem_free` from `kmem_init` on, in
which callers release blocks with the sizes that they were allocated with: each block has room for its
size, and the blocks are apart; one whose size is a power of two up to 4096 is aligned to it; `kmem_free`
returns a block to the zone or the pages it came from; and `kmem_realloc` to a larger size returns what
`kmem_alloc` does, with the bytes of the old block. -/
theorem kmem_contract {mem : ℕ → ℕ} (hinit : kmemInit mem = some k)
    (hreach : clients.Reachable ⟨k, []⟩ s) : Contract s := by
  obtain ⟨G, h⟩ := backed_of_reachable hinit hreach
  constructor
  · exact fun b hb => le_usable (h.sizes b hb).1 (h.sizes b hb).2
  · exact h.extents_apart
  · intro b hb e he hpow
    refine h.dvd hb ?_ fun _ => ?_
    · exact pow_dvd_pow 2 he
    · rw [hpow]
      exact pow_dvd_usable he
  · intro b hb
    obtain ⟨k', -, hfree, -, hreturns, -⟩ := h.free hb
    exact ⟨k', hfree, hreturns⟩
  · intro b hb next depth size p k hlt hmax halloc
    obtain ⟨k', -, hrealloc, -, hbytes⟩ := h.realloc hb hlt hmax halloc
    exact ⟨k', hrealloc, hbytes⟩

/-- A block of 20 bytes, with a byte in it, and one of two pages; the first grows to 70 bytes, and the other
is released. -/
def growRun : List Request :=
  [.kmemAlloc [0x1000] 1 20, .write 0x1000 20 0x1003 7, .kmemAlloc [0x10000] 0 5000,
    .kmemRealloc [0x2000] 1 0x1000 20 70, .kmemFree 0x10000 5000]

/-- The block that grew keeps its byte. -/
theorem kmem_contract_grow :
    ∃ k s, kmemInit (fun _ => 0) = some k ∧ clients.exec ⟨k, []⟩ growRun = some s ∧
      s.blocks = [(0x2000, 70)] ∧ byteAt s.kmem.mem 0x2003 = 7 ∧ Contract s := by
  have hrun : (((kmemInit fun _ => 0).bind fun k => clients.exec ⟨k, []⟩ growRun).map fun s =>
      (s.blocks, byteAt s.kmem.mem 0x2003)) = some ([(0x2000, 70)], 7) := by
    decide +kernel
  obtain ⟨s, hexec, hs⟩ := Option.map_eq_some_iff.mp hrun
  obtain ⟨k, hinit, hexec⟩ := Option.bind_eq_some_iff.mp hexec
  obtain ⟨hblocks, hbyte⟩ := Prod.mk.inj hs
  exact ⟨k, s, hinit, hexec, hblocks, hbyte, kmem_contract hinit (Machine.reachable_of_exec hexec)⟩

end Scalux.Kmem
