import Scalux.Vm.KernelHeap

/-! # The pages of the kernel heap

The page table as far as it maps addresses of the kernel heap.  `internal_allocwired` maps a new page
at every page of a block, `internal_freewired` unmaps them again; the page table maps exactly the pages
of a list of blocks, and no page twice (`Mapped`).

* **`mapped_wirePages`**, **`mapped_unwirePages`**: the two loops add a block and remove it. -/

namespace Scalux.KernelHeap

variable {h h' : Heap} {blocks : List (ℕ × ℕ)} {ptes : ℕ → Option ℕ} {os : List ℕ}
  {out size va : ℕ}

/-- An address of the kernel heap. -/
def InHeap (va : ℕ) : Prop := kheapBase ≤ va ∧ va < kheapBase + kheapSize

/-- The addresses of a block. -/
def Within (b : ℕ × ℕ) (va : ℕ) : Prop := b.1 ≤ va ∧ va < b.1 + b.2

/-- No page is mapped at two addresses of the heap. -/
def MappedOnce (ptes : ℕ → Option ℕ) : Prop :=
  ∀ va va' page, InHeap va → InHeap va' → ptes va = some page → ptes va' = some page → va = va'

/-- Within the heap exactly the pages of the blocks are mapped, to different pages. -/
structure Mapped (blocks : List (ℕ × ℕ)) (ptes : ℕ → Option ℕ) : Prop where
  iff : ∀ va, InHeap va → ((ptes va).isSome = true ↔ pgSize ∣ va ∧ ∃ b ∈ blocks, Within b va)
  once : MappedOnce ptes

/-- The pages that `vm_pagealloc` returns next are different and not in use. -/
structure PagesOk (h : Heap) : Prop where
  nodup : h.pages.Nodup
  unused : ∀ page ∈ h.pages, ∀ va, InHeap va → h.ptes va ≠ some page

/-! ## The loops -/

/-- The offsets of the pages of a block whose size is a multiple of the page size. -/
theorem mem_pageOffsets {bound o : ℕ} (hdvd : pgSize ∣ size) (hlo : size ≤ bound + 1)
    (hhi : bound ≤ size) (hpos : 0 < size) :
    o ∈ pageOffsets bound ↔ pgSize ∣ o ∧ o < size := by
  obtain ⟨n, rfl⟩ := hdvd
  have hn : (bound + (pgSize - 1)) / pgSize = n := by
    unfold pgSize at *
    omega
  rw [pageOffsets, hn, List.mem_map]
  constructor
  · rintro ⟨i, hi, rfl⟩
    have hi : i < n := List.mem_range.mp hi
    refine ⟨Nat.dvd_mul_left pgSize i, ?_⟩
    rw [Nat.mul_comm pgSize n]
    exact Nat.mul_lt_mul_of_pos_right hi (by decide)
  · rintro ⟨⟨i, rfl⟩, hlt⟩
    refine ⟨i, List.mem_range.mpr ?_, Nat.mul_comm i pgSize⟩
    exact Nat.lt_of_mul_lt_mul_left hlt

/-- The offsets are different. -/
theorem nodup_pageOffsets (bound : ℕ) : (pageOffsets bound).Nodup := by
  refine List.Nodup.map ?_ List.nodup_range
  intro i j hij
  exact Nat.mul_right_cancel (by decide : 0 < pgSize) hij

/-- One page of a block is mapped: a page that was not in use. -/
theorem wirePage_spec {i : ℕ} (hok : PagesOk h) (hs : wirePage out h i = .ok h') :
    ∃ ptes pages, h' = { h with ptes := ptes, pages := pages } ∧ PagesOk h' ∧
      (∀ va, (ptes va).isSome = true ↔ (h.ptes va).isSome = true ∨ va = out + i) ∧
      (MappedOnce h.ptes → MappedOnce ptes) := by
  unfold wirePage vmPagealloc at hs
  cases hpages : h.pages with
  | nil =>
      rw [hpages] at hs
      cases hs
  | cons page rest =>
      rw [hpages] at hs
      cases hs
      have hnd := List.nodup_cons.mp (hpages ▸ hok.nodup)
      -- a page that is on the free list is mapped nowhere in the heap
      have hunused : ∀ va, InHeap va → h.ptes va ≠ some page :=
        hok.unused page (hpages ▸ List.mem_cons_self)
      have hlookup : ∀ va p, Function.update h.ptes (out + i) (some page) va = some p →
          (va = out + i ∧ p = page) ∨ h.ptes va = some p := by
        intro va p hp
        by_cases hva : va = out + i
        · rw [hva, Function.update_self] at hp
          exact .inl ⟨hva, (Option.some.inj hp).symm⟩
        · rw [Function.update_of_ne hva] at hp
          exact .inr hp
      refine ⟨_, rest, rfl, ⟨hnd.2, ?_⟩, ?_, ?_⟩
      · intro p hp va hva hmap
        rcases hlookup va p hmap with ⟨-, rfl⟩ | hmap
        · exact hnd.1 hp
        · exact hok.unused p (hpages ▸ List.mem_cons_of_mem _ hp) va hva hmap
      · intro va
        by_cases hva : va = out + i
        · simp [hva]
        · rw [Function.update_of_ne hva]
          simp [hva]
      · intro honce va va' p hva hva' hp hp'
        rcases hlookup va p hp with ⟨hva₁, hp₁⟩ | hp₁
        · rcases hlookup va' p hp' with ⟨hva₂, -⟩ | hp₂
          · rw [hva₁, hva₂]
          · exact absurd (hp₁ ▸ hp₂) (hunused va' hva')
        · rcases hlookup va' p hp' with ⟨-, hp₂⟩ | hp₂
          · exact absurd (hp₂ ▸ hp₁) (hunused va hva)
          · exact honce va va' p hva hva' hp₁ hp₂

/-- The pages at a list of offsets are mapped. -/
theorem wirePages_spec (hok : PagesOk h) (hs : os.foldlM (wirePage out) h = .ok h') :
    ∃ ptes pages, h' = { h with ptes := ptes, pages := pages } ∧ PagesOk h' ∧
      (∀ va, (ptes va).isSome = true ↔ (h.ptes va).isSome = true ∨ ∃ o ∈ os, va = out + o) ∧
      (MappedOnce h.ptes → MappedOnce ptes) := by
  induction os generalizing h with
  | nil =>
      cases hs
      exact ⟨h'.ptes, h'.pages, rfl, hok, fun va => by simp, id⟩
  | cons i os ih =>
      rw [List.foldlM_cons] at hs
      -- a page that fails ends the loop, so every one before it is mapped
      cases hone : wirePage out h i with
      | error e =>
          rw [hone] at hs
          cases hs
      | ok h₁ =>
          rw [hone] at hs
          obtain ⟨ptes₁, pages₁, rfl, hok₁, hmap₁, honce₁⟩ := wirePage_spec hok hone
          obtain ⟨ptes₂, pages₂, rfl, hok₂, hmap₂, honce₂⟩ := ih hok₁ hs
          refine ⟨ptes₂, pages₂, rfl, hok₂, fun va => ?_, fun honce => honce₂ (honce₁ honce)⟩
          rw [hmap₂ va]
          show (ptes₁ va).isSome = true ∨ _ ↔ _
          rw [hmap₁ va, or_assoc, List.exists_mem_cons_iff]

/-- The pages at a list of offsets are unmapped, if all of them are mapped. -/
theorem unwirePages_spec {addr : ℕ} (hnd : os.Nodup)
    (hmap : ∀ o ∈ os, (h.ptes (addr + o)).isSome = true) :
    ∃ ptes, os.foldlM (fun h i => pmapUnenterKern h (addr + i)) h
        = .ok { h with ptes := ptes } ∧
      ∀ va, ptes va = if va ∈ os.map (addr + ·) then none else h.ptes va := by
  induction os generalizing h with
  | nil => exact ⟨h.ptes, rfl, fun va => rfl⟩
  | cons i os ih =>
      obtain ⟨hi, hnd⟩ := List.nodup_cons.mp hnd
      obtain ⟨page, hpage⟩ := Option.isSome_iff_exists.mp (hmap i List.mem_cons_self)
      -- the page is mapped, as the offsets are distinct and none was unmapped before
      have hone : pmapUnenterKern h (addr + i)
          = .ok { h with ptes := Function.update h.ptes (addr + i) none } := by
        rw [pmapUnenterKern, hpage]
      obtain ⟨ptes, hrun, hptes⟩ := ih (h := { h with ptes := Function.update h.ptes (addr + i) none })
        hnd (by
          intro o ho
          have hne : addr + o ≠ addr + i := by
            intro heq
            exact hi (Nat.add_left_cancel heq ▸ ho)
          show (Function.update h.ptes (addr + i) none (addr + o)).isSome = true
          rw [Function.update_of_ne hne]
          exact hmap o (List.mem_cons_of_mem _ ho))
      refine ⟨ptes, ?_, fun va => ?_⟩
      · rw [List.foldlM_cons, hone]
        exact hrun
      · rw [hptes va]
        by_cases hva : va = addr + i
        · simp [hva]
        · simp [hva]

/-! ## Blocks -/

/-- The pages of a block are those at the offsets of the loops, with either bound. -/
theorem exists_pageOffsets_iff {b : ℕ × ℕ} {va : ℕ} (bound : ℕ) (hbase : pgSize ∣ b.1)
    (hsize : pgSize ∣ b.2) (hpos : 0 < b.2) (hlo : b.2 ≤ bound + 1) (hhi : bound ≤ b.2) :
    (∃ o ∈ pageOffsets bound, b.1 + o = va) ↔ pgSize ∣ va ∧ Within b va := by
  constructor
  · rintro ⟨o, ho, rfl⟩
    obtain ⟨hdvd, hlt⟩ := (mem_pageOffsets hsize hlo hhi hpos).mp ho
    exact ⟨Nat.dvd_add hbase hdvd, Nat.le_add_right _ _, by omega⟩
  · rintro ⟨hdvd, hle, hlt⟩
    exact ⟨va - b.1, (mem_pageOffsets hsize hlo hhi hpos).mpr ⟨Nat.dvd_sub hdvd hbase, by omega⟩,
      by omega⟩

/-- Mapping the pages of a block that lies in the heap adds the block. -/
theorem mapped_wirePages {b : ℕ × ℕ} {ptes' : ℕ → Option ℕ} (hm : Mapped blocks ptes)
    (hbase : pgSize ∣ b.1) (hsize : pgSize ∣ b.2) (hpos : 0 < b.2)
    (hmap : ∀ va, (ptes' va).isSome = true ↔
      (ptes va).isSome = true ∨ ∃ o ∈ pageOffsets (b.2 - 1), va = b.1 + o)
    (honce : MappedOnce ptes → MappedOnce ptes') : Mapped (b :: blocks) ptes' := by
  refine ⟨fun va hva => ?_, honce hm.once⟩
  have hoff : (∃ o ∈ pageOffsets (b.2 - 1), va = b.1 + o) ↔ pgSize ∣ va ∧ Within b va := by
    rw [← exists_pageOffsets_iff (b.2 - 1) hbase hsize hpos (by omega) (Nat.sub_le _ _)]
    simp only [eq_comm]
  rw [hmap va, hm.iff va hva, hoff, List.exists_mem_cons_iff, and_or_left]
  exact or_comm

/-- Unmapping the pages of a block that overlaps no other removes the block. -/
theorem mapped_unwirePages {b : ℕ × ℕ} {ptes' : ℕ → Option ℕ} (hm : Mapped (b :: blocks) ptes)
    (hbase : pgSize ∣ b.1) (hsize : pgSize ∣ b.2) (hpos : 0 < b.2)
    (hapart : ∀ c ∈ blocks, b.1 + b.2 ≤ c.1 ∨ c.1 + c.2 ≤ b.1)
    (hptes : ∀ va, ptes' va = if va ∈ (pageOffsets b.2).map (b.1 + ·) then none else ptes va) :
    Mapped blocks ptes' := by
  have hsub : ∀ va page, ptes' va = some page → ptes va = some page := by
    intro va page hp
    rw [hptes va] at hp
    split at hp
    · cases hp
    · exact hp
  refine ⟨fun va hva => ?_, fun va va' page hva hva' hp hp' =>
    hm.once va va' page hva hva' (hsub va page hp) (hsub va' page hp')⟩
  -- the addresses taken out are the pages of the block
  have hoff : va ∈ (pageOffsets b.2).map (b.1 + ·) ↔ pgSize ∣ va ∧ Within b va := by
    rw [List.mem_map]
    exact exists_pageOffsets_iff b.2 hbase hsize hpos (Nat.le_succ _) le_rfl
  rw [hptes va]
  split
  · rename_i hmem
    obtain ⟨-, hle, hlt⟩ := hoff.mp hmem
    refine ⟨by simp, ?_⟩
    rintro ⟨-, c, hc, hcle, hclt⟩
    have := hapart c hc
    omega
  · rename_i hmem
    rw [hoff] at hmem
    rw [hm.iff va hva, List.exists_mem_cons_iff]
    constructor
    · rintro ⟨hdvd, hb | hc⟩
      · exact absurd ⟨hdvd, hb⟩ hmem
      · exact ⟨hdvd, hc⟩
    · rintro ⟨hdvd, hc⟩
      exact ⟨hdvd, .inr hc⟩

/-- Blocks in another order. -/
theorem Mapped.perm {blocks' : List (ℕ × ℕ)} (hm : Mapped blocks ptes)
    (hp : blocks.Perm blocks') : Mapped blocks' ptes := by
  refine ⟨fun va hva => ?_, hm.once⟩
  rw [hm.iff va hva]
  constructor
  · rintro ⟨hdvd, b, hb, hin⟩
    exact ⟨hdvd, b, hp.mem_iff.mp hb, hin⟩
  · rintro ⟨hdvd, b, hb, hin⟩
    exact ⟨hdvd, b, hp.mem_iff.mpr hb, hin⟩

end Scalux.KernelHeap
