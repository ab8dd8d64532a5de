import Scalux.Kern.VmemSource
import Scalux.Kern.VmemTags
import Scalux.Lib.Partial
import Scalux.Vm.KernelHeapPages

/-! # The two arenas of the kernel heap agree

Between two calls every block of the kernel heap is an allocation of `kmap.vmem` and an imported span
of `vm_kernel_wired` that is allocated as a whole, and its pages are mapped.  The blocks are those that
callers of `vm_kalloc` hold and those that `seg_refill` has made into tags.

Allocation recurses through the source and through `seg_refill`.  What is pending at an inner call is
little: the calls around it hold tags they have taken (`held`), and once `kmap.vmem` has allocated,
there is a block that `vm_kernel_wired` does not have yet (`extra`).  So one invariant with these two as
parameters serves every level, and the proof is by induction on the fuel.

* **`vmemXalloc_inv`**: an allocation keeps the invariant, whatever it nests.
* **`kernel_heap`**: the invariant in every run of `vm_kalloc` and `vm_kfree`. -/

namespace Scalux.KernelHeap

open Vmem (Arena Tag Flags Seg view tags)

variable {h h' : Heap} {held : List Tag} {extra live : List (ℕ × ℕ)} {addr size : ℕ} {v : Arena Unit}

/-- The segments of a block in `vm_kernel_wired`: an imported span, allocated as a whole. -/
def pairOf (b : ℕ × ℕ) : List Seg :=
  [⟨.kVMemSegSpanImported, b.1, b.2⟩, ⟨.kVMemSegAllocated, b.1, b.2⟩]

/-- All blocks: those that callers hold, and the pages of tags. -/
def blocks (live : List (ℕ × ℕ)) (h : Heap) : List (ℕ × ℕ) :=
  live ++ h.segBlocks.map fun b => (b, pgSize)

/-- A tag is a static one or lies in a page of tags. -/
def Known (h : Heap) (t : Tag) : Prop := t ∈ staticSegs ∨ ∃ b ∈ h.segBlocks, Within (b, pgSize) t

/-- All tags in use or unused, and those the pending calls hold. -/
def allTags (held : List Tag) (h : Heap) : List Tag :=
  tags (h.arena .kmap) ++ (h.wired.segqueue ++ held)

/-- The state of the kernel heap: `held` are the tags that pending calls have taken, `extra` the
blocks that only `kmap.vmem` knows yet. -/
structure Inv (held : List Tag) (extra live : List (ℕ × ℕ)) (h : Heap) : Prop where
  kmap : Vmem.Inv (· ≤ ·) (⟨h.arena .kmap, extra ++ blocks live h⟩ : Vmem.State Unit)
  quantized : Vmem.Quantized kheapBase kheapSize pgSize (view h.kmap)
  wired : Vmem.Linked none (h.arena .wired)
  pairs : ∃ B : List (ℕ × ℕ), B.Perm (blocks live h) ∧ view h.wired = B.flatMap pairOf
  tags_nodup : (allTags held h).Nodup
  tags_known : ∀ t ∈ allTags held h, Known h t
  small : ∀ b ∈ extra ++ blocks live h, b.2 < 2 ^ 31
  mapped : Mapped (blocks live h) h.ptes
  pages : PagesOk h

/-! ## Inverting the calls -/

/-- A result that is there. -/
theorem orStop_ok {α : Type} {s : Stop} {x : Option α} {a : α} (hs : orStop s x = .ok a) :
    x = some a := by
  cases x with
  | none => cases hs
  | some b => exact congrArg some (Except.ok.inj hs)

/-- `seg_alloc` twice. -/
theorem segAlloc_two {t u : Tag} {h₁ h₂ : Heap} (h₁eq : segAlloc h = .ok (t, h₁))
    (h₂eq : segAlloc h₁ = .ok (u, h₂)) :
    ∃ rest, h.freeSegs = t :: u :: rest ∧ h₂ = { h with freeSegs := rest } := by
  unfold segAlloc at h₁eq h₂eq
  split at h₁eq
  · cases h₁eq
  · rename_i rest₁ hpool
    cases h₁eq
    split at h₂eq
    · cases h₂eq
    · rename_i rest hpool₁
      cases h₂eq
      have hpool₁ : rest₁ = u :: rest := hpool₁
      exact ⟨rest, by rw [hpool, hpool₁], rfl⟩

/-- `seg_refill` does nothing, or a block becomes tags. -/
theorem refillUnless_ok {bootstrap : Bool} {kalloc : Heap → Except Stop (Except ℤ ℕ × Heap)}
    (hs : refillUnless bootstrap kalloc h = .ok h') :
    h' = h ∨ ∃ block h₁, kalloc h = .ok (.ok block, h₁) ∧ h' = { h₁ with
      segBlocks := block :: h₁.segBlocks
      freeSegs := (segBlockTags block).reverse ++ h₁.freeSegs } := by
  unfold refillUnless segRefill at hs
  split at hs
  · exact .inl (Except.ok.inj hs).symm
  · split at hs
    · exact .inl (Except.ok.inj hs).symm
    · obtain ⟨⟨r, h₁⟩, hcall, hs⟩ := bind_eq_ok.mp hs
      cases r with
      | error e => cases hs
      | ok block => exact .inr ⟨block, h₁, hcall, (Except.ok.inj hs).symm⟩

/-- What `vmem_xalloc` does with its two tags: it splits the free segment that it finds, or the one that
it imports. -/
def Allocates (fuel : ℕ) (a : ArenaId) (size : ℕ) (flags : Flags) (bootstrap : Bool)
    (newlseg newrseg : Tag) (h : Heap) (res : Except ℤ ℕ × Heap) : Prop :=
  match Vmem.search (h.arena a) size 0 flags (Vmem.searchIndices size) with
  | some (freeseg, addr) => ∃ v, Vmem.splitSeg (h.arena a) freeseg newlseg newrseg addr size = some v ∧
      res = (.ok addr, h.setArena a v)
  | none => match a with
    | .kmap => res = (.error (-Vmem.eResourceExhausted), h)
    | .wired => ∃ addr h₂ freeseg v v',
        internalAllocwired (vmemXalloc fuel .kmap size 0 0 0 0 flags bootstrap) size h = .ok (addr, h₂) ∧
        Vmem.vmemAddInternal (h₂.arena .wired) .kVMemSegSpanImported addr size = some (freeseg, v) ∧
        Vmem.splitSeg v freeseg newlseg newrseg (v.seg freeseg).base size = some v' ∧
        res = (.ok (v.seg freeseg).base, h₂.setArena .wired v')

/-- What `vmem_xalloc` does before it looks for a free segment. -/
theorem vmemXalloc_start {fuel : ℕ} {a : ArenaId} {flags : Flags} {bootstrap : Bool}
    {res : Except ℤ ℕ × Heap} (hs : vmemXalloc (fuel + 1) a size 0 0 0 0 flags bootstrap h = .ok res) :
    ∃ h₁ newlseg newrseg rest,
      refillUnless bootstrap (vmemXalloc fuel .wired pgSize 0 0 0 0 ⟨false⟩ true) h = .ok h₁ ∧
      size ≠ 0 ∧ h₁.freeSegs = newlseg :: newrseg :: rest ∧
      Allocates fuel a size flags bootstrap newlseg newrseg { h₁ with freeSegs := rest } res := by
  rw [vmemXalloc, if_pos ⟨rfl, rfl, .inl rfl, rfl⟩] at hs
  obtain ⟨h₁, hrefill, hs⟩ := bind_eq_ok.mp hs
  split at hs
  · cases hs
  · rename_i hsize
    -- the two tags are taken from the pool as the refill left it
    obtain ⟨⟨newlseg, h₂⟩, hl, hs⟩ := bind_eq_ok.mp hs
    obtain ⟨⟨newrseg, h₃⟩, hr, hs⟩ := bind_eq_ok.mp hs
    obtain ⟨rest, hpool, rfl⟩ := segAlloc_two hl hr
    refine ⟨h₁, newlseg, newrseg, rest, hrefill, hsize, hpool, ?_⟩
    dsimp only at hs
    split at hs
    · rename_i freeseg addr hfound
      unfold Allocates
      rw [hfound]
      obtain ⟨v, hv, hs⟩ := bind_eq_ok.mp hs
      exact ⟨v, orStop_ok hv, (Except.ok.inj hs).symm⟩
    · rename_i hfound
      unfold Allocates
      rw [hfound]
      cases a with
      -- `kmap` has no source; `wired` asks `kmap` for the range and adds it as a span
      | kmap => exact (Except.ok.inj hs).symm
      | wired =>
          obtain ⟨⟨addr, h₂⟩, halloc, hs⟩ := bind_eq_ok.mp hs
          obtain ⟨⟨freeseg, v⟩, hadd, hs⟩ := bind_eq_ok.mp hs
          obtain ⟨v', hsplit, hs⟩ := bind_eq_ok.mp hs
          exact ⟨addr, h₂, freeseg, v, v', halloc, orStop_ok hadd, orStop_ok hsplit,
            (Except.ok.inj hs).symm⟩

/-! ## What the invariant says -/

/-- The blocks are apart. -/
theorem Inv.apart (hi : Inv held extra live h) :
    (extra ++ blocks live h).Pairwise fun a b => a.1 + a.2 ≤ b.1 ∨ b.1 + b.2 ≤ a.1 :=
  (hi.kmap.liveSound isGap_le).disjoint

/-- A block lies in the heap and is a multiple of the page size at a multiple of it. -/
theorem Inv.block (hi : Inv held extra live h) {b : ℕ × ℕ} (hb : b ∈ extra ++ blocks live h) :
    kheapBase ≤ b.1 ∧ b.1 + b.2 ≤ kheapBase + kheapSize ∧ pgSize ∣ b.1 ∧ pgSize ∣ b.2 ∧ 0 < b.2 := by
  have hmem : ⟨.kVMemSegAllocated, b.1, b.2⟩ ∈ view h.kmap :=
    Vmem.mem_allocs.mp (hi.kmap.live.mem_iff.mp hb)
  obtain ⟨t, ht, hspan, hlo, hhi⟩ := (hi.kmap.liveSound isGap_le).in_span b hb
  obtain ⟨hbase, hsize⟩ := hi.quantized.span t ht hspan
  rw [hbase] at hlo hhi
  rw [hsize] at hhi
  exact ⟨hlo, hhi, hi.quantized.base_dvd _ hmem, hi.quantized.size_dvd _ hmem,
    hi.kmap.tiled.size_pos _ hmem⟩

/-- The unused tags are on no queue. -/
theorem Inv.pool (hi : Inv held extra live h) :
    h.freeSegs.Nodup ∧ (∀ t ∈ h.freeSegs, t ∉ h.kmap.segqueue) ∧
      ∀ t ∈ h.freeSegs, t ∉ h.wired.segqueue := by
  refine ⟨hi.wired.pool_nodup, hi.kmap.linked.pool_disjoint, hi.wired.pool_disjoint⟩

/-- The list of all tags, seen from the other arena. -/
theorem allTags_perm (held : List Tag) (h : Heap) :
    (allTags held h).Perm (tags (h.arena .wired) ++ (h.kmap.segqueue ++ held)) := by
  show ((h.kmap.segqueue ++ h.freeSegs) ++ (h.wired.segqueue ++ held)).Perm
    ((h.wired.segqueue ++ h.freeSegs) ++ (h.kmap.segqueue ++ held))
  rw [List.perm_iff_count]
  intro t
  simp only [List.count_append]
  omega

/-- Taking two tags makes them held. -/
theorem allTags_take {l r : Tag} {rest : List Tag} (hpool : h.freeSegs = l :: r :: rest) :
    (allTags (l :: r :: held) { h with freeSegs := rest }).Perm (allTags held h) := by
  show ((h.kmap.segqueue ++ rest) ++ (h.wired.segqueue ++ l :: r :: held)).Perm
    ((h.kmap.segqueue ++ h.freeSegs) ++ (h.wired.segqueue ++ held))
  rw [hpool, List.perm_iff_count]
  intro t
  simp only [List.count_append, List.count_cons]
  omega

/-! ## One part at a time -/

/-- Two tags are taken. -/
theorem Inv.take {l r : Tag} {rest : List Tag} (hi : Inv held extra live h)
    (hpool : h.freeSegs = l :: r :: rest) :
    Inv (l :: r :: held) extra live { h with freeSegs := rest } := by
  obtain ⟨hnd, hkmap, hwired⟩ := hi.pool
  have hsub : ∀ t ∈ rest, t ∈ h.freeSegs := fun t ht =>
    hpool ▸ List.mem_cons_of_mem _ (List.mem_cons_of_mem _ ht)
  have hrest : rest.Nodup := (List.nodup_cons.mp (List.nodup_cons.mp (hpool ▸ hnd)).2).2
  have hperm : (allTags (l :: r :: held) { h with freeSegs := rest }).Perm (allTags held h) :=
    allTags_take hpool
  constructor
  case kmap => exact Vmem.inv_withPool (v := h.arena .kmap) hi.kmap ⟨hrest, fun t ht => hkmap t (hsub t ht)⟩
  case quantized => exact hi.quantized
  case wired =>
    exact Vmem.linked_withPool (v := h.arena .wired) hi.wired
      ⟨hrest, fun t ht => hwired t (hsub t ht)⟩
  case pairs => exact hi.pairs
  case tags_nodup => exact hperm.nodup_iff.mpr hi.tags_nodup
  case tags_known => exact fun t ht => hi.tags_known t (hperm.mem_iff.mp ht)
  case small => exact hi.small
  case mapped => exact hi.mapped
  case pages => exact ⟨hi.pages.nodup, hi.pages.unused⟩

/-- `kmap.vmem` changes: its new state is sound with another list of blocks it alone knows, and the
tags are still all different. -/
theorem Inv.setKmap {held' : List Tag} {extra' : List (ℕ × ℕ)} (hi : Inv held extra live h)
    (hk : Vmem.Inv (· ≤ ·) (⟨v, extra' ++ blocks live h⟩ : Vmem.State Unit))
    (hq : Vmem.Quantized kheapBase kheapSize pgSize (view v))
    (ht : (tags v ++ (h.wired.segqueue ++ held')).Perm (allTags held h))
    (hsmall : ∀ b ∈ extra', b.2 < 2 ^ 31) : Inv held' extra' live (h.setArena .kmap v) := by
  have hnd : (tags v ++ (h.wired.segqueue ++ held')).Nodup := ht.nodup_iff.mpr hi.tags_nodup
  constructor
  case kmap => exact hk
  case quantized => exact hq
  -- the wired arena keeps its segments; only its pool of tags is another
  case wired =>
    refine Vmem.linked_withPool (v := h.arena .wired) hi.wired
      ⟨hk.linked.pool_nodup, fun t htv hw => ?_⟩
    exact List.disjoint_of_nodup_append hnd (List.mem_append_right _ htv)
      (List.mem_append_left _ hw)
  case pairs => exact hi.pairs
  case tags_nodup => exact hnd
  case tags_known => exact fun t htt => hi.tags_known t (ht.mem_iff.mp htt)
  case small =>
    intro b hb
    rcases List.mem_append.mp hb with hb | hb
    · exact hsmall b hb
    · exact hi.small b (List.mem_append_right _ hb)
  case mapped => exact hi.mapped
  case pages => exact ⟨hi.pages.nodup, hi.pages.unused⟩

/-- `kmap.vmem` allocates a block. -/
theorem Inv.kmapAlloc {l r t : Tag} {rest : List Tag} (hi : Inv held [] live h)
    (hpool : h.freeSegs = l :: r :: rest) (hpos : size ≠ 0) (hdvd : pgSize ∣ size)
    (hlt : size < 2 ^ 31)
    (hfound : Vmem.search ({ h with freeSegs := rest }.arena .kmap) size 0 ⟨false⟩
      (Vmem.searchIndices size) = some (t, addr))
    (hsplit : Vmem.splitSeg ({ h with freeSegs := rest }.arena .kmap) t l r addr size = some v) :
    Inv held [(addr, size)] live ({ h with freeSegs := rest }.setArena .kmap v) := by
  -- the two halves of the call are the call on the arena alone
  have hx : Vmem.vmemXalloc none (h.arena .kmap) size 0 0 0 0 ⟨false⟩ = some (.ok addr, v) := by
    rw [Vmem.vmemXalloc, if_pos ⟨rfl, rfl, .inl rfl, rfl, hpos⟩]
    have hl : Vmem.segAlloc (h.arena .kmap)
        = some (l, { h with freeSegs := r :: rest }.arena .kmap) := by
      show Vmem.segAlloc (Vmem.withPool h.kmap h.freeSegs) = _
      rw [hpool]
      rfl
    have hr : Vmem.segAlloc ({ h with freeSegs := r :: rest }.arena .kmap)
        = some (r, { h with freeSegs := rest }.arena .kmap) := rfl
    simp only [hl, hr, hfound, hsplit, Option.bind_eq_bind, Option.bind_some]
    rfl
  obtain ⟨hq, hk, -, -, -⟩ := Vmem.quantized_xalloc hi.kmap hi.quantized (by decide) (by decide) hdvd
    (Nat.dvd_zero pgSize) (by omega) hx
  have htq : t ∈ h.kmap.segqueue := by
    obtain ⟨i, -, hmem, -⟩ := Vmem.search_some hfound
    exact ((hi.kmap.linked.free_iff i t).mp hmem).2.1
  have htags : (tags v).Perm (l :: r :: tags ({ h with freeSegs := rest }.arena .kmap)) :=
    Vmem.splitSeg_tags (v := { h with freeSegs := rest }.arena .kmap) htq hsplit
  refine (hi.take hpool).setKmap hk hq ?_ ?_
  · -- the tags taken are on the queue or unused again
    have hheld : allTags (l :: r :: held) { h with freeSegs := rest }
        = tags ({ h with freeSegs := rest }.arena .kmap) ++ (h.wired.segqueue ++ l :: r :: held) := rfl
    rw [hheld, List.perm_iff_count]
    intro u
    have := List.perm_iff_count.mp htags u
    simp only [List.count_append, List.count_cons] at this ⊢
    omega
  · intro b hb
    rw [List.mem_singleton.mp hb]
    exact hlt

/-- A list of pairs that is cut before a span marker is cut between pairs. -/
theorem pairs_split {B : List (ℕ × ℕ)} {X Y : List Seg} (hB : B.flatMap pairOf = X ++ Y)
    (hY : ∀ s ∈ Y.head?, s.isSpan = true) :
    ∃ B₁ B₂, B = B₁ ++ B₂ ∧ X = B₁.flatMap pairOf ∧ Y = B₂.flatMap pairOf := by
  induction B generalizing X with
  | nil =>
      obtain ⟨rfl, rfl⟩ := List.append_eq_nil_iff.mp hB.symm
      exact ⟨[], [], rfl, rfl, rfl⟩
  | cons b B ih =>
      cases X with
      | nil => exact ⟨[], b :: B, rfl, rfl, hB.symm⟩
      | cons s X =>
          rw [List.flatMap_cons, pairOf, List.cons_append, List.cons_append, List.cons_append,
            List.cons.injEq] at hB
          obtain ⟨rfl, hB⟩ := hB
          cases X with
          | nil =>
              -- the second segment of a pair is not a marker
              have hhead : Y.head? = some ⟨.kVMemSegAllocated, b.1, b.2⟩ := by
                rw [← List.nil_append Y, ← hB]
                rfl
              exact absurd (hY _ hhead) Bool.false_ne_true
          | cons s X =>
              rw [List.cons_append, List.cons.injEq] at hB
              obtain ⟨rfl, hB⟩ := hB
              obtain ⟨B₁, B₂, rfl, rfl, hY₂⟩ := ih hB
              exact ⟨b :: B₁, B₂, rfl, rfl, hY₂⟩

/-- A list of pairs begins with a span marker. -/
theorem pairs_head (B : List (ℕ × ℕ)) : ∀ s ∈ (B.flatMap pairOf).head?, s.isSpan = true := by
  cases B with
  | nil => simp
  | cons b B =>
      intro s hs
      rw [← Option.some.inj hs]
      rfl

/-- `internal_allocwired` maps the pages of the block that `kmap.vmem` has allocated, and
`vm_kernel_wired` makes a span of it and allocates that as a whole. -/
theorem Inv.wiredImport {l r t : Tag} {h₁ : Heap} {v' : Arena Unit}
    (hi : Inv (l :: r :: held) [(addr, size)] live h)
    (hpages : (pageOffsets (size - 1)).foldlM (wirePage addr) h = .ok h₁)
    (hadd : Vmem.vmemAddInternal (h₁.arena .wired) .kVMemSegSpanImported addr size = some (t, v))
    (hsplit : Vmem.splitSeg v t l r (v.seg t).base size = some v') :
    (v.seg t).base = addr ∧ Inv held [] ((addr, size) :: live) (h₁.setArena .wired v') := by
  obtain ⟨-, -, hbdvd, hsdvd, hpos⟩ := hi.block List.mem_cons_self
  obtain ⟨ptes, pages, rfl, hok, hmap, honce⟩ := wirePages_spec hi.pages hpages
  have hmapped : Mapped ((addr, size) :: blocks live h) ptes :=
    mapped_wirePages (b := (addr, size)) hi.mapped hbdvd hsdvd hpos hmap honce
  obtain ⟨B, hB, hview⟩ := hi.pairs
  obtain ⟨hlink, -, ⟨n, hpool, hqueue⟩, X, Y, hXY, -, hY, ha⟩ :=
    Vmem.vmemAddInternal_spec (v := h.arena .wired) hi.wired
      (by show ∀ s ∈ (view h.wired).head?, _; rw [hview]; exact pairs_head B) rfl hadd
  have hbase : (v.seg t).base = addr := by rw [ha.seg_eq]
  refine ⟨hbase, ?_⟩
  rw [hbase] at hsplit
  -- the tags of the arena, with the two that are held
  have htags : (tags v).Perm (tags (h.arena .wired)) := by
    rw [List.perm_iff_count]
    intro u
    have hq := List.perm_iff_count.mp hqueue u
    have hp := congrArg (List.count u) hpool
    simp only [tags, List.count_append, List.count_cons] at hq hp ⊢
    omega
  have hall : (tags v ++ (h.kmap.segqueue ++ l :: r :: held)).Perm (allTags (l :: r :: held) h) :=
    (htags.append_right _).trans (allTags_perm _ h).symm
  have hnd := hall.nodup_iff.mpr hi.tags_nodup
  have hheld : ∀ u ∈ l :: r :: held, u ∉ v.segqueue ∧ u ∉ v.freeSegs := fun u hu =>
    ⟨fun hmem => List.disjoint_of_nodup_append hnd (List.mem_append_left _ hmem)
        (List.mem_append_right _ hu),
      fun hmem => List.disjoint_of_nodup_append hnd (List.mem_append_right _ hmem)
        (List.mem_append_right _ hu)⟩
  have hlr : l ≠ r := by
    have hcons := List.nodup_append.mp (List.nodup_append.mp hnd).2.1
    exact fun heq => (List.nodup_cons.mp hcons.2.1).1 (heq ▸ List.mem_cons_self)
  obtain ⟨hlink', -, hview'⟩ := Vmem.splitSeg_spec hlink ha hlr (hheld l List.mem_cons_self)
    (hheld r (List.mem_cons_of_mem _ List.mem_cons_self)) hsplit
  have htq : t ∈ v.segqueue := by
    obtain ⟨q₁, q₂, hq, -, -⟩ := ha.queue
    exact hq ▸ List.mem_append_right _ List.mem_cons_self
  have htags' := Vmem.splitSeg_tags htq hsplit
  have hall' : (allTags held ({ h with ptes := ptes, pages := pages }.setArena .wired v')).Perm
      (allTags (l :: r :: held) h) := by
    refine (allTags_perm _ _).trans (List.Perm.trans ?_ hall)
    show (tags v' ++ (h.kmap.segqueue ++ held)).Perm _
    rw [List.perm_iff_count]
    intro u
    have := List.perm_iff_count.mp htags' u
    simp only [List.count_append, List.count_cons] at this ⊢
    omega
  have hnd' := hall'.nodup_iff.mpr hi.tags_nodup
  constructor
  case kmap =>
    refine Vmem.inv_withPool (v := h.arena .kmap) hi.kmap ⟨hlink'.pool_nodup, fun u hu hmem => ?_⟩
    have hnodup : (h.kmap.segqueue ++ v'.freeSegs).Nodup := (List.nodup_append.mp hnd').1
    exact List.disjoint_of_nodup_append hnodup hmem hu
  case quantized => exact hi.quantized
  case wired => exact hlink'
  case pairs =>
    have hXY : B.flatMap pairOf = X ++ Y := hview.symm.trans hXY
    obtain ⟨B₁, B₂, rfl, rfl, rfl⟩ := pairs_split hXY fun s hs => (hY s hs).1
    refine ⟨B₁ ++ (addr, size) :: B₂, List.perm_middle.trans (hB.cons _), ?_⟩
    show view v' = _
    rw [hview', Vmem.splitParts_whole, List.flatMap_append, List.flatMap_cons, pairOf]
    simp only [List.append_assoc, List.cons_append, List.nil_append]
  case tags_nodup => exact hnd'
  case tags_known => exact fun u hu => hi.tags_known u (hall'.mem_iff.mp hu)
  case small => exact hi.small
  case mapped => exact hmapped
  case pages => exact ⟨hok.nodup, hok.unused⟩

/-- The tags of a block lie in it and are different. -/
theorem segBlockTags_spec (block : ℕ) :
    (segBlockTags block).Nodup ∧ ∀ t ∈ segBlockTags block, Within (block, pgSize) t := by
  constructor
  · refine List.Nodup.map ?_ List.nodup_range
    intro i j hij
    have hij : (block + 24 + 64 * i : ℕ) = block + 24 + 64 * j := hij
    omega
  · intro t ht
    obtain ⟨i, hi, rfl⟩ := List.mem_map.mp ht
    have hi : i < 63 := List.mem_range.mp hi
    refine ⟨Nat.le_trans (Nat.le_add_right _ _) (Nat.le_add_right _ _), ?_⟩
    show (block + 24 + 64 * i : ℕ) < block + 4096
    omega

/-- The tags of a new block are none of those there are: these are static or lie in other blocks. -/
theorem Inv.fresh {block : ℕ} (hi : Inv held [] ((block, pgSize) :: live) h) :
    ∀ t ∈ segBlockTags block, t ∉ allTags held h := by
  intro (t : ℕ) ht hmem
  obtain ⟨hlo, hhi⟩ := (segBlockTags_spec block).2 t ht
  obtain ⟨hbase, -⟩ := hi.block (b := (block, pgSize)) List.mem_cons_self
  rcases hi.tags_known t hmem with hstatic | ⟨b, hb, hblo, hbhi⟩
  · have hlt : t < 128 := List.mem_range.mp hstatic
    unfold kheapBase at hbase
    dsimp only at hlo hbase
    omega
  · have hapart := (List.pairwise_cons.mp hi.apart).1 (b, pgSize)
      (List.mem_append_right live (List.mem_map_of_mem hb))
    dsimp only at hlo hhi hblo hbhi hapart
    omega

/-- A block becomes tags. -/
theorem Inv.refill {block : ℕ} (hi : Inv held [] ((block, pgSize) :: live) h) :
    Inv held [] live { h with
      segBlocks := block :: h.segBlocks
      freeSegs := (segBlockTags block).reverse ++ h.freeSegs } := by
  obtain ⟨hndtags, hwithin⟩ := segBlockTags_spec block
  obtain ⟨hndpool, hkpool, hwpool⟩ := hi.pool
  have hfresh := hi.fresh
  have hpool : ((segBlockTags block).reverse ++ h.freeSegs).Nodup := by
    refine List.nodup_append'.mpr ⟨List.nodup_reverse.mpr hndtags, hndpool, fun t ht hmem => ?_⟩
    exact hfresh t (List.mem_reverse.mp ht)
      (List.mem_append_left _ (List.mem_append_right _ hmem))
  -- the page of tags is a block of the heap itself from now on
  have hperm : (blocks ((block, pgSize) :: live) h).Perm (blocks live { h with
      segBlocks := block :: h.segBlocks
      freeSegs := (segBlockTags block).reverse ++ h.freeSegs }) := List.perm_middle.symm
  -- the tags of the page join the free ones
  have hall : (allTags held { h with
      segBlocks := block :: h.segBlocks
      freeSegs := (segBlockTags block).reverse ++ h.freeSegs }).Perm
        (segBlockTags block ++ allTags held h) := by
    show ((h.kmap.segqueue ++ ((segBlockTags block).reverse ++ h.freeSegs))
      ++ (h.wired.segqueue ++ held)).Perm (segBlockTags block
        ++ ((h.kmap.segqueue ++ h.freeSegs) ++ (h.wired.segqueue ++ held)))
    rw [List.perm_iff_count]
    intro t
    simp only [List.count_append, List.count_reverse]
    omega
  constructor
  case kmap =>
    have hk : Vmem.Inv (· ≤ ·) (⟨Vmem.withPool (h.arena .kmap) _, _⟩ : Vmem.State Unit) :=
      Vmem.inv_withPool hi.kmap ⟨hpool, fun t ht hmem => ?_⟩
    · exact ⟨hk.linked, hk.tiled, hk.own, hperm.symm.trans hk.live⟩
    · rcases List.mem_append.mp ht with ht | ht
      · exact hfresh t (List.mem_reverse.mp ht)
          (List.mem_append_left _ (List.mem_append_left _ hmem))
      · exact hkpool t ht hmem
  case quantized => exact hi.quantized
  case wired =>
    refine Vmem.linked_withPool (v := h.arena .wired) hi.wired ⟨hpool, fun t ht hmem => ?_⟩
    rcases List.mem_append.mp ht with ht | ht
    · exact hfresh t (List.mem_reverse.mp ht)
        (List.mem_append_right _ (List.mem_append_left _ hmem))
    · exact hwpool t ht hmem
  case pairs =>
    obtain ⟨B, hB, hview⟩ := hi.pairs
    exact ⟨B, hB.trans hperm, hview⟩
  case tags_nodup =>
    refine hall.nodup_iff.mpr (List.nodup_append'.mpr ⟨hndtags, hi.tags_nodup, fun t ht hmem => ?_⟩)
    exact hfresh t ht hmem
  case tags_known =>
    intro t ht
    rcases List.mem_append.mp (hall.mem_iff.mp ht) with ht | ht
    · exact .inr ⟨block, List.mem_cons_self, hwithin t ht⟩
    · rcases hi.tags_known t ht with hstatic | ⟨b, hb, hin⟩
      · exact .inl hstatic
      · exact .inr ⟨b, List.mem_cons_of_mem _ hb, hin⟩
  case small => exact fun b hb => hi.small b (hperm.mem_iff.mpr hb)
  case mapped => exact hi.mapped.perm hperm
  case pages => exact ⟨hi.pages.nodup, hi.pages.unused⟩

/-! ## Allocation -/

/-- `vm_kernel_wired` has no free segment to serve a request from. -/
theorem Inv.wired_search (hi : Inv held extra live h) {flags : Flags} (is : List ℕ) :
    (∀ i, h.wired.freelist i = []) ∧ Vmem.search (h.arena .wired) size 0 flags is = none := by
  -- the wired arena consists of pairs of a span and its allocation: nothing in it is free
  have hempty : ∀ i, h.wired.freelist i = [] := by
    intro i
    refine List.eq_nil_iff_forall_not_mem.mpr fun t ht => ?_
    obtain ⟨-, htq, hfree, -⟩ := (hi.wired.free_iff i t).mp ht
    obtain ⟨B, -, hview⟩ := hi.pairs
    have hmem : h.wired.seg t ∈ B.flatMap pairOf := by
      rw [← hview]
      exact List.mem_map_of_mem htq
    obtain ⟨b, -, hb⟩ := List.mem_flatMap.mp hmem
    have hfree : (h.wired.seg t).type = .kVMemSegFree := hfree
    rcases List.mem_cons.mp hb with heq | hb
    · rw [heq] at hfree
      cases hfree
    · rw [List.mem_singleton.mp hb] at hfree
      cases hfree
  refine ⟨hempty, ?_⟩
  induction is with
  | nil => rfl
  | cons i is ih =>
      have hi : (h.arena .wired).freelist i = [] := hempty i
      rw [Vmem.search, hi, Vmem.searchList]
      exact ih

/-- **Allocation keeps the invariant**, whatever it nests: `kmap.vmem` allocates a block that only it
knows, `vm_kernel_wired` one that is complete.  By induction on the fuel: the inner calls are those of
`seg_refill` and of `internal_allocwired`. -/
theorem vmemXalloc_inv (fuel : ℕ) :
    (∀ held live h size bootstrap addr h', Inv held [] live h → pgSize ∣ size → size < 2 ^ 31 →
      vmemXalloc fuel .kmap size 0 0 0 0 ⟨false⟩ bootstrap h = .ok (.ok addr, h') →
      Inv held [(addr, size)] live h') ∧
    (∀ held live h size bootstrap res h', Inv held [] live h → pgSize ∣ size → size < 2 ^ 31 →
      vmemXalloc fuel .wired size 0 0 0 0 ⟨false⟩ bootstrap h = .ok (res, h') →
      ∃ addr, res = .ok addr ∧ Inv held [] ((addr, size) :: live) h') := by
  induction fuel with
  | zero =>
      refine ⟨?_, ?_⟩
      · intro _ _ _ _ _ _ _ _ _ _ hs
        rw [vmemXalloc] at hs
        cases hs
      · intro _ _ _ _ _ _ _ _ _ _ hs
        rw [vmemXalloc] at hs
        cases hs
  | succ fuel ih =>
      obtain ⟨ihkmap, ihwired⟩ := ih
      -- a refill keeps the invariant: its block becomes tags
      have hrefill : ∀ held live h bootstrap h₁, Inv held [] live h →
          refillUnless bootstrap (vmemXalloc fuel .wired pgSize 0 0 0 0 ⟨false⟩ true) h = .ok h₁ →
          Inv held [] live h₁ := by
        intro held live h bootstrap h₁ hi hs
        rcases refillUnless_ok hs with rfl | ⟨block, h₂, hcall, rfl⟩
        · exact hi
        · obtain ⟨addr, haddr, hi₂⟩ :=
            ihwired held live h pgSize true _ h₂ hi (Nat.dvd_refl _) (by decide) hcall
          cases haddr
          exact hi₂.refill
      refine ⟨?_, ?_⟩
      · intro held live h size bootstrap addr h' hi hdvd hlt hs
        obtain ⟨h₁, l, r, rest, hrun, hpos, hpool, hrest⟩ := vmemXalloc_start hs
        have hi₁ := hrefill held live h bootstrap h₁ hi hrun
        unfold Allocates at hrest
        split at hrest
        · rename_i freeseg addr' hfound
          obtain ⟨v, hsplit, hres⟩ := hrest
          cases hres
          exact hi₁.kmapAlloc hpool hpos hdvd hlt hfound hsplit
        · cases hrest
      · intro held live h size bootstrap res h' hi hdvd hlt hs
        obtain ⟨h₁, l, r, rest, hrun, hpos, hpool, hrest⟩ := vmemXalloc_start hs
        have hi₁ := (hrefill held live h bootstrap h₁ hi hrun).take hpool
        unfold Allocates at hrest
        rw [(hi₁.wired_search _).2] at hrest
        obtain ⟨addr, h₂, freeseg, v, v', halloc, hadd, hsplit, hres⟩ := hrest
        obtain ⟨⟨r', h₃⟩, hcall, halloc⟩ := bind_eq_ok.mp halloc
        cases r' with
        | error e => cases halloc
        | ok out =>
            dsimp only at halloc
            split at halloc
            · obtain ⟨h₄, hpages, halloc⟩ := bind_eq_ok.mp halloc
              cases halloc
              have hi₃ := ihkmap _ live _ size bootstrap _ h₃ hi₁ hdvd hlt hcall
              obtain ⟨hbase, hi₄⟩ := hi₃.wiredImport hpages hadd hsplit
              cases hres
              rw [hbase]
              exact ⟨_, rfl, hi₄⟩
            · cases halloc

end Scalux.KernelHeap
