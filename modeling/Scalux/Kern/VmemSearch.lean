import Scalux.Kern.VmemContainers
import Scalux.Kern.VmemExact

/-! # The search of `vmem_xalloc`

`vmem_xalloc` looks at the free lists from the size class of the request on, and takes the first
segment that passes its test.  The test compares two sums of 64-bit words, and near the top of the
address space it goes wrong both ways: a request that wraps passes where it does not fit, and a segment
that ends at `2 ^ 64` has a wrapped end of zero and is passed over.

* **`search_eq_none_iff`**, **`search_first`**: what the search finds.
* **`xalloc_served`**, **`xalloc_refused`**: what `vmem_xalloc` makes of it.
* **`vmem_exact_iff`**: when a request at a given address is checked without wrap-around.
* **`vmem_search_iff`**: when the search is complete, and takes a fitting segment of the lowest list. -/

namespace Scalux.Vmem

variable {E : Type} {v v' : Arena E} {V : List Seg} {f g : Seg} {t : Tag} {size min addr : ℕ}
  {flags : Flags}

/-! ## What the search finds -/

/-- The search of one list finds the first tag that fits. -/
theorem searchList_first {seg : Tag → Seg} {l : List Tag}
    (h : searchList seg size min flags l = some (t, addr)) :
    ∃ l₁ l₂, l = l₁ ++ t :: l₂ ∧ ∀ u ∈ l₁, fitAddr (seg u) size min flags = none := by
  induction l with
  | nil => cases h
  | cons a l ih =>
      rw [searchList] at h
      cases hfit : fitAddr (seg a) size min flags with
      | some b =>
          rw [hfit] at h
          cases h
          exact ⟨[], l, rfl, by simp⟩
      | none =>
          rw [hfit] at h
          obtain ⟨l₁, l₂, rfl, hl₁⟩ := ih h
          refine ⟨a :: l₁, l₂, rfl, ?_⟩
          intro u hu
          rcases List.mem_cons.mp hu with rfl | hu
          · exact hfit
          · exact hl₁ u hu

theorem searchList_eq_none {seg : Tag → Seg} {l : List Tag}
    (h : searchList seg size min flags l = none) : ∀ u ∈ l, fitAddr (seg u) size min flags = none := by
  intro u hu
  by_contra hfit
  exact searchList_isSome hu hfit h

/-- The search finds the first tag that fits on the first list that has one. -/
theorem search_first {is : List ℕ} (h : search v size min flags is = some (t, addr)) :
    ∃ pre i post l₁ l₂, is = pre ++ i :: post ∧ v.freelist i = l₁ ++ t :: l₂ ∧
      (∀ j ∈ pre, ∀ u ∈ v.freelist j, fitAddr (v.seg u) size min flags = none) ∧
      ∀ u ∈ l₁, fitAddr (v.seg u) size min flags = none := by
  induction is with
  | nil => cases h
  | cons i is ih =>
      rw [search] at h
      -- found on this list, or no segment of it fits and the search goes on
      cases hlist : searchList v.seg size min flags (v.freelist i) with
      | some found =>
          rw [hlist] at h
          cases h
          obtain ⟨l₁, l₂, heq, hl₁⟩ := searchList_first hlist
          exact ⟨[], i, is, l₁, l₂, rfl, heq, by simp, hl₁⟩
      | none =>
          rw [hlist] at h
          obtain ⟨pre, j, post, l₁, l₂, rfl, heq, hpre, hl₁⟩ := ih h
          refine ⟨i :: pre, j, post, l₁, l₂, rfl, heq, ?_, hl₁⟩
          intro k hk
          rcases List.mem_cons.mp hk with rfl | hk
          · exact searchList_eq_none hlist
          · exact hpre k hk

/-- The search does not look at the unused tags. -/
theorem search_withPool (pool : List Tag) (is : List ℕ) :
    search { v with freeSegs := pool } size min flags is = search v size min flags is := by
  induction is with
  | nil => rfl
  | cons i is ih => rw [search, search, ih]

section Linked

variable (hl : Linked none v)
include hl

/-- The tags on the lists that are searched are the free segments of a class that may be enough. -/
theorem mem_searched_iff (hlt : ∀ g ∈ view v, g.type = .kVMemSegFree → 0 < g.size ∧ g.size < 2 ^ 64) :
    (∃ i ∈ searchIndices size, t ∈ v.freelist i) ↔
      t ∈ v.segqueue ∧ (v.seg t).type = .kVMemSegFree ∧ freelist size ≤ freelist (v.seg t).size := by
  constructor
  · rintro ⟨i, hi, ht⟩
    obtain ⟨-, hq, hfree, hclass⟩ := (hl.free_iff i t).mp ht
    exact ⟨hq, hfree, hclass ▸ (List.mem_range'_1.mp hi).1⟩
  · rintro ⟨hq, hfree, hle⟩
    obtain ⟨hpos, hsize⟩ := hlt _ (List.mem_map_of_mem hq) hfree
    have hlists : freelist (v.seg t).size < kNFreeLists :=
      (Nat.log2_lt (Nat.pos_iff_ne_zero.mp hpos)).mpr hsize
    exact ⟨freelist (v.seg t).size, List.mem_range'_1.mpr ⟨hle, by omega⟩,
      (hl.free_iff _ t).mpr ⟨by simp, hq, hfree, rfl⟩⟩

/-- **The segment the search finds** is on the lowest list on which one passes the test, and none before
it on that list does. -/
theorem search_lowest (hlt : ∀ g ∈ view v, g.type = .kVMemSegFree → 0 < g.size ∧ g.size < 2 ^ 64)
    (h : search v size min flags (searchIndices size) = some (t, addr)) :
    (t ∈ v.segqueue ∧ (v.seg t).type = .kVMemSegFree ∧ freelist size ≤ freelist (v.seg t).size) ∧
      (∃ l₁ l₂, v.freelist (freelist (v.seg t).size) = l₁ ++ t :: l₂ ∧
        ∀ u ∈ l₁, fitAddr (v.seg u) size min flags = none) ∧
      ∀ u ∈ v.segqueue, (v.seg u).type = .kVMemSegFree → freelist size ≤ freelist (v.seg u).size →
        freelist (v.seg u).size < freelist (v.seg t).size →
        fitAddr (v.seg u) size min flags = none := by
  obtain ⟨pre, i, post, l₁, l₂, his, hlist, hpre, hl₁⟩ := search_first h
  have hmem : t ∈ v.freelist i := hlist ▸ List.mem_append_right _ List.mem_cons_self
  obtain ⟨-, -, -, hclass⟩ := (hl.free_iff i t).mp hmem
  have hi : i ∈ searchIndices size := his ▸ List.mem_append_right _ List.mem_cons_self
  refine ⟨(mem_searched_iff hl hlt).mp ⟨i, hi, hmem⟩, ⟨l₁, l₂, hclass ▸ hlist, hl₁⟩, ?_⟩
  intro u hu hfree hle hbelow
  obtain ⟨j, hj, huj⟩ := (mem_searched_iff hl hlt).mpr ⟨hu, hfree, hle⟩
  have hjclass : freelist (v.seg u).size = j := ((hl.free_iff j u).mp huj).2.2.2
  -- the indices ascend, so a lower one was searched before
  have hsorted : (pre ++ i :: post).Pairwise (· < ·) := his ▸ List.pairwise_lt_range'
  refine hpre j ?_ u huj
  rw [his] at hj
  refine (List.mem_append.mp hj).resolve_right fun hlater => ?_
  rcases List.mem_cons.mp hlater with rfl | hlater
  · omega
  · have := List.rel_of_pairwise_cons (List.pairwise_append.mp hsorted).2.1 hlater
    omega

/-- **The search fails where no free segment of a searched class passes the test.** -/
theorem search_eq_none_iff (hlt : ∀ g ∈ view v, g.type = .kVMemSegFree → 0 < g.size ∧ g.size < 2 ^ 64) :
    search v size min flags (searchIndices size) = none ↔
      ∀ g ∈ view v, g.type = .kVMemSegFree → freelist size ≤ freelist g.size →
        fitAddr g size min flags = none := by
  constructor
  · intro hnone g hg hfree hle
    obtain ⟨t, ht, rfl⟩ := List.mem_map.mp hg
    obtain ⟨i, hi, hmem⟩ := (mem_searched_iff hl hlt).mpr ⟨ht, hfree, hle⟩
    by_contra hfit
    exact search_isSome hi hmem hfit hnone
  · intro hall
    by_contra hsome
    obtain ⟨⟨t, addr⟩, hfound⟩ := Option.ne_none_iff_exists'.mp hsome
    obtain ⟨i, hi, hmem, hfit⟩ := search_some hfound
    obtain ⟨hq, hfree, hle⟩ := (mem_searched_iff hl hlt).mp ⟨i, hi, hmem⟩
    rw [hall _ (List.mem_map_of_mem hq) hfree hle] at hfit
    cases hfit

end Linked

/-! ## What `vmem_xalloc` makes of it -/

theorem exists_two_tags (hpool : 2 ≤ v.freeSegs.length) :
    ∃ left right, v.freeSegs = left :: right :: v.freeSegs.drop 2 := by
  match hp : v.freeSegs, hpool with
  | left :: right :: rest, _ => exact ⟨left, right, rfl⟩

section Calls

variable (src : Option (Source E)) (hpool : 2 ≤ v.freeSegs.length) (hsize : size ≠ 0)
  (hmin : min = 0 ∨ flags.exact = true)
include hpool hsize hmin

/-- **`vmem_xalloc` where the search finds a segment.** -/
theorem xalloc_served (hl : Linked none v)
    (hfound : search v size min flags (searchIndices size) = some (t, addr)) :
    ∃ v', vmemXalloc src v size 0 0 min 0 flags = some (.ok addr, v') := by
  obtain ⟨left, right, hp⟩ := exists_two_tags hpool
  obtain ⟨i, -, hmem, -⟩ := search_some hfound
  obtain ⟨-, -, hfree, -⟩ := (hl.free_iff i t).mp hmem
  unfold vmemXalloc segAlloc splitSeg
  rw [if_pos ⟨rfl, rfl, hmin, rfl, hsize⟩, hp]
  dsimp only [Option.bind_eq_bind, Option.bind_some]
  rw [search_withPool, hfound]
  dsimp only [Option.bind_eq_bind, Option.bind_some]
  rw [if_pos hfree]
  exact ⟨_, rfl⟩

/-- **`vmem_xalloc` where the search finds nothing.** It asks the source; the two tags taken in
advance are not put back if that fails. -/
theorem xalloc_imports (hnone : search v size min flags (searchIndices size) = none) :
    ∃ left right, vmemXalloc src v size 0 0 min 0 flags
      = (tryImport src { v with freeSegs := v.freeSegs.drop 2 } size flags).bind fun r =>
          match r.1 with
          | .error e => some (.error e, r.2)
          | .ok t => (splitSeg r.2 t left right (r.2.seg t).base size).map fun v' =>
              (.ok (r.2.seg t).base, v') := by
  obtain ⟨left, right, hp⟩ := exists_two_tags hpool
  refine ⟨left, right, ?_⟩
  unfold vmemXalloc segAlloc
  rw [if_pos ⟨rfl, rfl, hmin, rfl, hsize⟩, hp]
  dsimp only [Option.bind_eq_bind, Option.bind_some]
  rw [search_withPool, hnone]
  dsimp only [List.drop_succ_cons, List.drop_zero]
  congr 1
  funext r
  obtain ⟨r, v'⟩ := r
  cases r with
  | error e => rfl
  | ok t => exact Option.map_eq_bind.symm

/-- Without a source it then fails and leaves the segments as they were. -/
theorem xalloc_refused (hnone : search v size min flags (searchIndices size) = none) :
    vmemXalloc none v size 0 0 min 0 flags
      = some (.error (-eResourceExhausted), { v with freeSegs := v.freeSegs.drop 2 }) := by
  obtain ⟨left, right, hx⟩ := xalloc_imports none hpool hsize hmin hnone
  rw [hx]
  rfl

end Calls

/-- `vmem_xalloc` returns only if its assertions hold. -/
theorem xalloc_asserts {src : Option (Source E)} {align phase max : ℕ} {r : Except ℤ ℕ × Arena E}
    (h : vmemXalloc src v size align phase min max flags = some r) :
    2 ≤ v.freeSegs.length ∧ size ≠ 0 ∧ (min = 0 ∨ flags.exact = true) := by
  obtain ⟨res, v'⟩ := r
  obtain ⟨hargs, left, right, rest, hpool, -⟩ := vmemXalloc_eq_some h
  refine ⟨?_, hargs⟩
  rw [hpool]
  simp

/-- **Without a source `vmem_xalloc` fails where no free segment of a searched class passes the
test.** -/
theorem xalloc_error_iff {r : Except ℤ ℕ} (hl : Linked none v)
    (hlt : ∀ g ∈ view v, g.type = .kVMemSegFree → 0 < g.size ∧ g.size < 2 ^ 64)
    (h : vmemXalloc none v size 0 0 min 0 flags = some (r, v')) :
    r = .error (-eResourceExhausted) ↔ ∀ g ∈ view v, g.type = .kVMemSegFree →
      freelist size ≤ freelist g.size → fitAddr g size min flags = none := by
  obtain ⟨hpool, hsize, hmin⟩ := xalloc_asserts h
  rw [← search_eq_none_iff hl hlt]
  cases hfound : search v size min flags (searchIndices size) with
  | none =>
      rw [xalloc_refused hpool hsize hmin hfound] at h
      cases h
      simp
  | some found =>
      obtain ⟨v₁, hx⟩ := xalloc_served none hpool hsize hmin hl hfound
      rw [hx] at h
      cases h
      simp

/-! ## Requests at a given address -/

/-- The source, if there is one, answers: it returns, an error code is negative, and it leaves two
unused tags for the new span. -/
def Answers (src : Option (Source E)) (v : Arena E) (size : ℕ) (flags : Flags) : Prop :=
  ∀ f ∈ src, ∃ r e pool, f.allocfn v.env (v.freeSegs.drop 2) size flags = some (r, e, pool) ∧
    match r with
    | .error code => code < 0
    | .ok _ => 2 ≤ pool.length

/-- The source lends a range for the request. -/
def Lends (src : Option (Source E)) (v : Arena E) (size : ℕ) (flags : Flags) : Prop :=
  ∃ f ∈ src, ∃ addr e pool, f.allocfn v.env (v.freeSegs.drop 2) size flags = some (.ok addr, e, pool)

/-- `vmem_xalloc` with `kVMemExact` returns zero only if the range asked for does not exceed the address
space and lies in one free segment; otherwise it returns a negative value and leaves the segment queue
as it was. -/
def ExactChecked (src : Option (Source E)) (v : Arena E) (size min : ℕ) : Prop :=
  ∃ res v', vmemXalloc src v size 0 0 min 0 ⟨true⟩ = some (res, v') ∧
    match res with
    | .ok _ => min + size ≤ 2 ^ 64 ∧ IsFreeRange (view v) min size
    | .error code => code < 0 ∧ v'.segqueue = v.segqueue ∧ view v' = view v

/-- The test lets a free segment of a searched class pass. -/
def Accepted (V : List Seg) (size min : ℕ) : Prop :=
  ∃ f ∈ V, f.type = .kVMemSegFree ∧ freelist size ≤ freelist f.size ∧ f.base ≤ min ∧
    add64 min size ≤ add64 f.base f.size

/-- A free segment that begins at or below `min` reaches the end of the address space. -/
def ReachesTop (V : List Seg) (min : ℕ) : Prop :=
  ∃ f ∈ V, f.type = .kVMemSegFree ∧ f.base ≤ min ∧ f.base + f.size = 2 ^ 64

theorem spanInsert_seg (newspan : Tag) (afterspan : Option Tag) :
    (spanInsert v newspan afterspan).seg = v.seg := by
  cases afterspan <;> rfl

/-- With two unused tags `vmem_add_internal` returns a free segment. -/
theorem vmemAddInternal_isSome (spantype : SegType) (base size : ℕ) (hpool : 2 ≤ v.freeSegs.length) :
    ∃ t v', vmemAddInternal v spantype base size = some (t, v') ∧ (v'.seg t).type = .kVMemSegFree := by
  obtain ⟨left, right, hp⟩ := exists_two_tags hpool
  unfold vmemAddInternal segAlloc
  rw [hp]
  refine ⟨right, _, rfl, ?_⟩
  simp [freelistInsert, spanInsert_seg, setSeg]

/-- A request the search does not serve is answered by the source. -/
theorem xalloc_answered {src : Option (Source E)} (hpool : 2 ≤ v.freeSegs.length) (hsize : size ≠ 0)
    (hmin : min = 0 ∨ flags.exact = true) (hans : Answers src v size flags)
    (hnone : search v size min flags (searchIndices size) = none) :
    (Lends src v size flags ∧ ∃ addr v', vmemXalloc src v size 0 0 min 0 flags = some (.ok addr, v')) ∨
    (¬ Lends src v size flags ∧ ∃ code v', vmemXalloc src v size 0 0 min 0 flags
        = some (.error code, v') ∧ code < 0 ∧ v'.segqueue = v.segqueue ∧ view v' = view v) := by
  cases src with
  | none =>
      refine .inr ⟨?_, -eResourceExhausted, _, xalloc_refused hpool hsize hmin hnone, by decide, rfl, rfl⟩
      -- an arena without a source cannot import
      rintro ⟨f, ⟨⟩, -⟩
  | some f =>
      obtain ⟨left, right, hx⟩ := xalloc_imports (some f) hpool hsize hmin hnone
      obtain ⟨r, e, pool, hcall, hr⟩ := hans f rfl
      cases r with
      | error code =>
          refine .inr ⟨?_, code, { v with env := e, freeSegs := pool }, ?_, hr, rfl, rfl⟩
          · rintro ⟨g, ⟨⟩, addr, e', pool', hlend⟩
            rw [hcall] at hlend
            cases hlend
          · rw [hx, tryImport]
            dsimp only
            rw [hcall]
            rfl
      | ok addr =>
          -- the imported span comes with one free segment, that is the one which is split
          obtain ⟨t, v₁, hadd, hfree⟩ := vmemAddInternal_isSome (v := { v with env := e, freeSegs := pool })
            .kVMemSegSpanImported addr size hr
          refine .inl ⟨⟨f, rfl, addr, e, pool, hcall⟩, (v₁.seg t).base, ?_⟩
          rw [hx, tryImport]
          dsimp only
          rw [hcall]
          dsimp only [Option.bind_eq_bind, Option.bind_some]
          rw [hadd]
          dsimp only [Option.bind_eq_bind, Option.bind_some]
          unfold splitSeg
          simp only [Option.pure_def, Option.bind_some, if_pos hfree]
          exact ⟨_, rfl⟩

/-- A request at a given address is served at this address, by a segment that begins at or below it. -/
theorem fitAddr_exact_iff : fitAddr f size min ⟨true⟩ = none ↔
    (f.base ≤ min → add64 f.base f.size < add64 min size) := by
  unfold fitAddr
  split
  · rename_i hle
    simp [hle]
  · rename_i hgt
    simp [hgt]

/-- The segments of a tiling are ranges of 64-bit addresses. -/
theorem Tiled.words (ht : Tiled (· ≤ ·) V) (hf : f ∈ V) (hfree : f.type = .kVMemSegFree) :
    0 < f.size ∧ f.size < 2 ^ 64 ∧ f.base + f.size ≤ 2 ^ 64 := by
  obtain ⟨s, hs, hspan, hlo, hhi⟩ := ht.in_span isGap_le hf (isSpan_of_free hfree)
  have hpos : 0 < f.size := ht.size_pos f hf
  obtain ⟨hsize, hend⟩ : s.size < 2 ^ 64 ∧ s.base + s.size ≤ 2 ^ 64 :=
    Scale.Tiles.span_le_top ht s hs hspan
  omega

/-- The size class of a request is at most that of a larger segment. -/
theorem freelist_mono (hpos : 0 < size) (hle : size ≤ f.size) : freelist size ≤ freelist f.size :=
  (Nat.le_log2 (by omega)).mpr ((Nat.log2_self_le (Nat.pos_iff_ne_zero.mp hpos)).trans hle)

/-- The search serves a request at a given address where the test lets a segment pass. -/
theorem search_exact_iff (hl : Linked none v) (ht : Tiled (· ≤ ·) (view v)) :
    search v size min ⟨true⟩ (searchIndices size) = none ↔ ¬ Accepted (view v) size min := by
  rw [search_eq_none_iff hl fun g hg hfree => ⟨(ht.words hg hfree).1, (ht.words hg hfree).2.1⟩]
  constructor
  · rintro hall ⟨f, hf, hfree, hclass, hlo, hend⟩
    have := fitAddr_exact_iff.mp (hall f hf hfree hclass) hlo
    omega
  · intro hnot f hf hfree hclass
    refine fitAddr_exact_iff.mpr fun hlo => ?_
    by_contra hend
    exact hnot ⟨f, hf, hfree, hclass, hlo, not_lt.mp hend⟩

/-- A request that does not wrap and passes the test of a segment ends inside it, and the segment does
not reach the end of the address space: its wrapped end would be zero. -/
theorem end_of_fits (hpos : 0 < size) (hlt : min + size < 2 ^ 64) (htop : f.base + f.size ≤ 2 ^ 64)
    (hend : add64 min size ≤ add64 f.base f.size) :
    min + size ≤ f.base + f.size ∧ f.base + f.size < 2 ^ 64 := by
  unfold add64 at hend
  rw [Nat.mod_eq_of_lt hlt] at hend
  have hbelow : f.base + f.size < 2 ^ 64 := by
    refine lt_of_le_of_ne htop fun heq => ?_
    rw [heq, Nat.mod_self] at hend
    omega
  rw [Nat.mod_eq_of_lt hbelow] at hend
  exact ⟨hend, hbelow⟩

section Range

variable (ht : Tiled (· ≤ ·) V) (hpos : 0 < size)
include ht hpos

/-- Where the test lets a segment pass, the range asked for is free if it ends below the end of the
address space, or ends there as a free segment does. -/
theorem range_of_accepted (hacc : Accepted V size min) :
    (min + size ≤ 2 ^ 64 ∧ IsFreeRange V min size) ↔
      min + size < 2 ^ 64 ∨ (min + size = 2 ^ 64 ∧ ReachesTop V min) := by
  constructor
  · rintro ⟨hle, f, hf, hfree, hlo, hhi⟩
    rcases Nat.lt_or_ge (min + size) (2 ^ 64) with hlt | hge
    · exact .inl hlt
    · have := (ht.words hf hfree).2.2
      exact .inr ⟨by omega, f, hf, hfree, hlo, by omega⟩
  · rintro (hlt | ⟨heq, f, hf, hfree, hlo, hend⟩)
    · obtain ⟨f, hf, hfree, -, hlo, hend⟩ := hacc
      exact ⟨hlt.le, f, hf, hfree, hlo, (end_of_fits hpos hlt (ht.words hf hfree).2.2 hend).1⟩
    · exact ⟨heq.le, f, hf, hfree, hlo, by omega⟩

/-- A request that ends below the end of the address space and is served does not lie in a segment that
reaches the end. -/
theorem not_reachesTop_of_accepted (hlt : min + size < 2 ^ 64) (hacc : Accepted V size min) :
    ¬ ReachesTop V min := by
  rintro ⟨g, hg, hgfree, hglo, hgend⟩
  obtain ⟨f, hf, hfree, -, hlo, hend⟩ := hacc
  obtain ⟨hhi, hbelow⟩ := end_of_fits hpos hlt (ht.words hf hfree).2.2 hend
  have hne : f ≠ g := by
    rintro rfl
    omega
  have := ht.disjoint isGap_le hf hg hne (isSpan_of_free hfree) (isSpan_of_free hgfree)
  omega

/-- Where the test lets no segment pass, the range is free only in a segment that is overlooked. -/
theorem range_of_not_accepted (hacc : ¬ Accepted V size min) :
    (min + size ≤ 2 ^ 64 ∧ IsFreeRange V min size) ↔ min + size < 2 ^ 64 ∧ ReachesTop V min := by
  constructor
  · rintro ⟨hle, f, hf, hfree, hlo, hhi⟩
    have hword := (ht.words hf hfree).2.2
    have hclass : freelist size ≤ freelist f.size := freelist_mono hpos (by omega)
    have hwrap : add64 f.base f.size < add64 min size := by
      by_contra hend
      exact hacc ⟨f, hf, hfree, hclass, hlo, not_lt.mp hend⟩
    unfold add64 at hwrap
    have hlt : min + size < 2 ^ 64 := by
      refine lt_of_le_of_ne hle fun heq => ?_
      rw [heq, Nat.mod_self] at hwrap
      exact Nat.not_lt_zero _ hwrap
    rw [Nat.mod_eq_of_lt hlt] at hwrap
    refine ⟨hlt, f, hf, hfree, hlo, ?_⟩
    by_contra hne
    rw [Nat.mod_eq_of_lt (by omega)] at hwrap
    omega
  · rintro ⟨hlt, f, hf, hfree, hlo, hend⟩
    exact ⟨hlt.le, f, hf, hfree, hlo, by omega⟩

end Range

/-- What `vmem_xalloc` returns decides whether the request is checked. -/
theorem exactChecked_of_ok {src : Option (Source E)}
    (h : vmemXalloc src v size 0 0 min 0 ⟨true⟩ = some (.ok addr, v')) :
    ExactChecked src v size min ↔ min + size ≤ 2 ^ 64 ∧ IsFreeRange (view v) min size := by
  constructor
  · rintro ⟨res, v₁, hx, hres⟩
    rw [h] at hx
    cases hx
    exact hres
  · exact fun hgood => ⟨_, _, h, hgood⟩

/-- **Requests at a given address and wrap-around.** In every state of an arena, with any source or none,
that is reached without a request served beyond the end of a free segment: a request at a given address
is checked as it should be exactly if

* where the test lets a free segment pass, the request ends below `2 ^ 64`, or at `2 ^ 64` as a free
  segment around it does;
* where it lets none pass, the source lends nothing, or the range is part of a free segment that ends at
  `2 ^ 64`. -/
theorem vmem_exact_iff {src : Option (Source E)} {s₀ s : State E} {pool : List Tag}
    (h₀ : SourceInitial src s₀)
    (h : (sourceMachine src).Reach (fun s a => Proper src s a ∧ fits s a = true) s₀ s)
    (hpool : PoolOk s.arena pool) (htwo : 2 ≤ pool.length) (hpos : 0 < size)
    (hans : Answers src (withPool s.arena pool) size ⟨true⟩) :
    ExactChecked src (withPool s.arena pool) size min ↔
      (Accepted (view s.arena) size min →
        min + size < 2 ^ 64 ∨ (min + size = 2 ^ 64 ∧ ReachesTop (view s.arena) min)) ∧
      (¬ Accepted (view s.arena) size min → Lends src (withPool s.arena pool) size ⟨true⟩ →
        min + size < 2 ^ 64 ∧ ReachesTop (view s.arena) min) := by
  have hinv := sourceInv_reach h₀ h
  have hl : Linked none (withPool s.arena pool) := linked_withPool hinv.linked hpool
  have ht : Tiled (· ≤ ·) (view (withPool s.arena pool)) := hinv.tiled
  have hne : size ≠ 0 := Nat.pos_iff_ne_zero.mp hpos
  -- a segment that passes the comparison is taken without asking the source
  cases hfound : search (withPool s.arena pool) size min ⟨true⟩ (searchIndices size) with
  | some found =>
      obtain ⟨t, addr⟩ := found
      have hacc : Accepted (view s.arena) size min := by
        by_contra hnot
        rw [(search_exact_iff hl ht).mpr hnot] at hfound
        cases hfound
      obtain ⟨v', hx⟩ := xalloc_served src htwo hne (.inr rfl) hl hfound
      rw [exactChecked_of_ok hx]
      simp only [hacc, not_true_eq_false, false_imp_iff, and_true, true_imp_iff]
      exact range_of_accepted ht hpos hacc
  | none =>
      have hacc : ¬ Accepted (view s.arena) size min := (search_exact_iff hl ht).mp hfound
      -- none passes: what the source lends is served from its base, whatever `min` was
      rcases xalloc_answered htwo hne (.inr rfl) hans hfound with
        ⟨hlend, addr, v', hx⟩ | ⟨hlend, code, v', hx, hres⟩
      · rw [exactChecked_of_ok hx]
        simp only [hacc, not_false_eq_true, false_imp_iff, true_and, true_imp_iff, hlend]
        exact range_of_not_accepted ht hpos hacc
      · simp only [hacc, false_imp_iff, true_and, hlend, imp_true_iff, iff_true]
        exact ⟨_, _, hx, hres⟩

/-- A run without a source, tested as it goes. -/
theorem reach_of_spansOk {s₀ s : State E} {l : List Action}
    (h : (sourceMachine none).meets (fun s a => spansOk s a && fits s a) s₀ l = true)
    (hs : (sourceMachine none).exec s₀ l = some s) :
    (sourceMachine none).Reach (fun s a => Proper none s a ∧ fits s a = true) s₀ s := by
  refine Machine.reach_of_exec ?_ h hs
  intro s a hc
  obtain ⟨hok, hfits⟩ := Bool.and_eq_true_iff.mp hc
  exact ⟨proper_of_spansOk hok, hfits⟩

/-- A request in the middle of a span. -/
theorem vmem_exact_iff_inside :
    ∃ s, (sourceMachine none).exec emptyState [.vmemAdd [0, 1] 0x1000 0x4000] = some s ∧
      ExactChecked none (withPool s.arena [2, 3]) 0x1000 0x2000 := by
  have hrun : ((sourceMachine none).exec emptyState [.vmemAdd [0, 1] 0x1000 0x4000]).map
      (fun s => decide (PoolOk s.arena [2, 3])) = some true := by decide
  obtain ⟨s, hs, hpool⟩ := Option.map_eq_some_iff.mp hrun
  have hreach : (sourceMachine (none : Option (Source Unit))).Reach
      (fun s a => Proper none s a ∧ fits s a = true) emptyState s :=
    reach_of_spansOk (by decide) hs
  refine ⟨s, hs, (vmem_exact_iff sourceInitial_emptyState hreach (of_decide_eq_true hpool) (by decide)
    (by decide) fun f hf => by cases hf).mpr ⟨fun _ => .inl (by decide), ?_⟩⟩
  rintro - ⟨f, hf, -⟩
  cases hf

/-- **A range outside the arena.** In an arena with the one span `[0x1000, 0x5000)` the last page of the
address space is asked for; its end wraps to zero, and the request is served. -/
theorem vmem_xalloc_exact_wraps :
    ¬ ∀ (s₀ s : State Unit) (pool : List Tag) (size min : ℕ), SourceInitial none s₀ →
      (sourceMachine none).Reach (fun s a => Proper none s a ∧ fits s a = true) s₀ s →
      PoolOk s.arena pool → 2 ≤ pool.length → 0 < size → min + size ≤ 2 ^ 64 →
      ExactChecked none (withPool s.arena pool) size min := by
  intro h
  -- one span, then an exact request for the last page below `2^64`
  have hrun : ((sourceMachine none).exec emptyState [.vmemAdd [0, 1] 0x1000 0x4000]).map
      (fun s => (decide (PoolOk s.arena [2, 3]), view s.arena,
        (vmemXalloc none (withPool s.arena [2, 3]) 0x1000 0 0 (2 ^ 64 - 0x1000) 0 ⟨true⟩).map
          fun r => r.1.toOption))
      = some (true, [⟨.kVMemSegSpan, 0x1000, 0x4000⟩, ⟨.kVMemSegFree, 0x1000, 0x4000⟩],
          some (some (2 ^ 64 - 0x1000))) := by decide
  obtain ⟨s, hs, hres⟩ := Option.map_eq_some_iff.mp hrun
  obtain ⟨hpool, hres⟩ := Prod.mk.inj hres
  obtain ⟨hview, hcall⟩ := Prod.mk.inj hres
  obtain ⟨⟨r, v'⟩, hx, hr⟩ := Option.map_eq_some_iff.mp hcall
  have hreach : (sourceMachine (none : Option (Source Unit))).Reach
      (fun s a => Proper none s a ∧ fits s a = true) emptyState s :=
    reach_of_spansOk (by decide) hs
  obtain ⟨res, v₁, hx₁, hres⟩ := h _ s [2, 3] 0x1000 (2 ^ 64 - 0x1000) sourceInitial_emptyState hreach
    (of_decide_eq_true hpool) (by decide) (by decide) (by decide)
  rw [hx] at hx₁
  cases hx₁
  cases r with
  | error code => cases hr
  | ok addr =>
      have hfree : IsFreeRange (view s.arena) (2 ^ 64 - 0x1000) 0x1000 := hres.2
      unfold IsFreeRange at hfree
      rw [hview] at hfree
      revert hfree
      decide

/-! ## The search is complete -/

/-- A free segment can hold a request: it is large enough, and for a request at a given address it
contains it. -/
def CanHold (flags : Flags) (size min : ℕ) (f : Seg) : Prop :=
  if flags.exact then f.base ≤ min ∧ min + size ≤ f.base + f.size else size ≤ f.size

/-- `vmem_xalloc` returns, and serves the request exactly if a free segment can hold it: at the address
asked for, or at the base of a segment that can hold it, of the lowest free list that has one. -/
def SearchComplete (v : Arena E) (size min : ℕ) (flags : Flags) : Prop :=
  ∃ res v', vmemXalloc none v size 0 0 min 0 flags = some (res, v') ∧
    ((∃ addr, res = .ok addr) ↔ ∃ f ∈ view v, f.type = .kVMemSegFree ∧ CanHold flags size min f) ∧
    ∀ addr, res = .ok addr →
      if flags.exact then addr = min
      else ∃ f ∈ view v, f.type = .kVMemSegFree ∧ f.base = addr ∧ size ≤ f.size ∧
        ∀ g ∈ view v, g.type = .kVMemSegFree → size ≤ g.size → freelist f.size ≤ freelist g.size

/-- A segment that is too small passes the test: the request ends beyond the address space. -/
def Misfit (size : ℕ) (f : Seg) : Prop :=
  f.size < size ∧ f.base + f.size < 2 ^ 64 ∧ 2 ^ 64 ≤ f.base + size

/-- A segment that is large enough does not pass the test: it ends at the end of the address space, and
the request does not. -/
def Overlooked (size : ℕ) (f : Seg) : Prop :=
  f.base + size < 2 ^ 64 ∧ f.base + f.size = 2 ^ 64

/-- The condition for a request at a given address. -/
def ExactClear (V : List Seg) (size min : ℕ) : Prop :=
  if min + size < 2 ^ 64 then ¬ ReachesTop V min else Accepted V size min → ReachesTop V min

/-- The condition for a request anywhere: on the list of its class, a segment that is too small and
passes the test comes after one that fits; and a segment that is overlooked is no better than one that
fits and is not. -/
structure AnyClear (v : Arena E) (size : ℕ) : Prop where
  misfit : ∀ l₁ t l₂, v.freelist (freelist size) = l₁ ++ t :: l₂ → Misfit size (v.seg t) →
    ∃ u ∈ l₁, size ≤ (v.seg u).size ∧ ¬ Overlooked size (v.seg u)
  overlooked : ∀ f ∈ view v, f.type = .kVMemSegFree → Overlooked size f →
    ∃ g ∈ view v, g.type = .kVMemSegFree ∧ size ≤ g.size ∧ ¬ Overlooked size g ∧
      freelist g.size ≤ freelist f.size

/-- A request anywhere is served at the base of a segment whose wrapped end is not below its own. -/
theorem fitAddr_any : fitAddr f size 0 ⟨false⟩
    = if add64 f.base f.size < add64 f.base size then none else some f.base := by
  unfold fitAddr
  split
  · rename_i hle
    rw [Nat.le_zero.mp hle]
  · rfl

/-- The test for a request anywhere. -/
theorem fitAddr_any_ne_none (hend : f.base + f.size ≤ 2 ^ 64) (hfpos : 0 < f.size)
    (hpos : 0 < size) (hlt : size < 2 ^ 64) :
    fitAddr f size 0 ⟨false⟩ ≠ none ↔ Misfit size f ∨ (size ≤ f.size ∧ ¬ Overlooked size f) := by
  rw [fitAddr_any]
  unfold Misfit Overlooked add64
  split <;> rename_i hcmp <;> simp only [ne_eq, not_true_eq_false, reduceCtorEq, not_false_eq_true,
    false_iff, true_iff] <;> omega

/-- What `vmem_xalloc` returns where the search serves the request. -/
theorem searchComplete_of_ok (h : vmemXalloc none v size 0 0 min 0 flags = some (.ok addr, v')) :
    SearchComplete v size min flags ↔
      (∃ f ∈ view v, f.type = .kVMemSegFree ∧ CanHold flags size min f) ∧
      if flags.exact then addr = min
      else ∃ f ∈ view v, f.type = .kVMemSegFree ∧ f.base = addr ∧ size ≤ f.size ∧
        ∀ g ∈ view v, g.type = .kVMemSegFree → size ≤ g.size → freelist f.size ≤ freelist g.size := by
  constructor
  · rintro ⟨res, v₁, hx, hiff, haddr⟩
    rw [h] at hx
    cases hx
    exact ⟨hiff.mp ⟨addr, rfl⟩, haddr addr rfl⟩
  · rintro ⟨hhold, haddr⟩
    refine ⟨_, _, h, iff_of_true ⟨addr, rfl⟩ hhold, fun a ha => ?_⟩
    cases ha
    exact haddr

/-- What `vmem_xalloc` returns where the search does not. -/
theorem searchComplete_of_error {code : ℤ}
    (h : vmemXalloc none v size 0 0 min 0 flags = some (.error code, v')) :
    SearchComplete v size min flags ↔
      ¬ ∃ f ∈ view v, f.type = .kVMemSegFree ∧ CanHold flags size min f := by
  constructor
  · rintro ⟨res, v₁, hx, hiff, -⟩
    rw [h] at hx
    cases hx
    exact fun hhold => by cases (hiff.mpr hhold).choose_spec
  · intro hnot
    refine ⟨_, _, h, iff_of_false ?_ hnot, fun a ha => by cases ha⟩
    rintro ⟨addr, haddr⟩
    cases haddr

/-- The base of a segment the search finds for a request anywhere. -/
theorem search_any {is : List ℕ} (h : search v size 0 ⟨false⟩ is = some (t, addr)) :
    addr = (v.seg t).base := by
  obtain ⟨-, -, -, hfit⟩ := search_some h
  rw [fitAddr_any] at hfit
  split at hfit
  · cases hfit
  · exact (Option.some.inj hfit).symm

section Complete

variable (hl : Linked none v) (ht : Tiled (· ≤ ·) (view v)) (htwo : 2 ≤ v.freeSegs.length)
  (hpos : 0 < size)
include hl ht htwo hpos

/-- A request at a given address. -/
theorem searchComplete_exact (hle : min + size ≤ 2 ^ 64) :
    SearchComplete v size min ⟨true⟩ ↔ ExactClear (view v) size min := by
  have hne : size ≠ 0 := Nat.pos_iff_ne_zero.mp hpos
  have hhold : (∃ f ∈ view v, f.type = .kVMemSegFree ∧ CanHold ⟨true⟩ size min f) ↔
      min + size ≤ 2 ^ 64 ∧ IsFreeRange (view v) min size := by
    simp only [CanHold, if_true, hle, true_and, IsFreeRange]
  -- the end of the request is a number of the machine, or the sum wraps to zero
  have htop : min + size = 2 ^ 64 ∨ min + size < 2 ^ 64 := by omega
  cases hfound : search v size min ⟨true⟩ (searchIndices size) with
  | some found =>
      obtain ⟨t, addr⟩ := found
      have hacc : Accepted (view v) size min := by
        by_contra hnot
        rw [(search_exact_iff hl ht).mpr hnot] at hfound
        cases hfound
      obtain ⟨v', hx⟩ := xalloc_served none htwo hne (.inr rfl) hl hfound
      have haddr : addr = min := by
        obtain ⟨-, -, -, hfit⟩ := search_some hfound
        refine (fitAddr_eq hfit).resolve_right fun hcon => ?_
        cases hcon.2
      rw [searchComplete_of_ok hx, hhold, range_of_accepted ht hpos hacc, if_pos rfl,
        ExactClear]
      split
      · rename_i hlt
        exact iff_of_true ⟨.inl hlt, haddr⟩ (not_reachesTop_of_accepted ht hpos hlt hacc)
      · rename_i hge
        -- at the top the sum is zero, and only a segment that ends there holds the request
        have heq : min + size = 2 ^ 64 := by omega
        exact ⟨fun h _ => (h.1.resolve_left hge).2, fun h => ⟨.inr ⟨heq, h hacc⟩, haddr⟩⟩
  | none =>
      have hacc : ¬ Accepted (view v) size min := (search_exact_iff hl ht).mp hfound
      rw [searchComplete_of_error (xalloc_refused htwo hne (.inr rfl) hfound), hhold,
        range_of_not_accepted ht hpos hacc, ExactClear]
      split
      · rename_i hlt
        exact ⟨fun h htop => h ⟨hlt, htop⟩, fun h htop => h htop.2⟩
      · rename_i hge
        exact iff_of_true (fun h => hge h.1) fun h => (hacc h).elim

end Complete

section Anywhere

variable (hl : Linked none v) (ht : Tiled (· ≤ ·) (view v)) (hpos : 0 < size) (hlt : size < 2 ^ 64)
include hl ht hpos hlt

omit hl in
/-- A free segment that is large enough and not overlooked passes the test. -/
theorem passes_of_fits (hf : f ∈ view v) (hfree : f.type = .kVMemSegFree) (hsize : size ≤ f.size)
    (hover : ¬ Overlooked size f) : fitAddr f size 0 ⟨false⟩ ≠ none := by
  obtain ⟨hfpos, -, hend⟩ := ht.words hf hfree
  exact (fitAddr_any_ne_none hend hfpos hpos hlt).mpr (.inr ⟨hsize, hover⟩)

omit hl in
/-- So does a misfit. -/
theorem passes_of_misfit (hf : f ∈ view v) (hfree : f.type = .kVMemSegFree) (hmis : Misfit size f) :
    fitAddr f size 0 ⟨false⟩ ≠ none := by
  obtain ⟨hfpos, -, hend⟩ := ht.words hf hfree
  exact (fitAddr_any_ne_none hend hfpos hpos hlt).mpr (.inl hmis)

/-- Where the search serves a request anywhere, the segment it finds is the one that should be found
exactly if the condition holds. -/
theorem lowest_iff_of_found (hfound : search v size 0 ⟨false⟩ (searchIndices size) = some (t, addr)) :
    (size ≤ (v.seg t).size ∧ ∀ g ∈ view v, g.type = .kVMemSegFree → size ≤ g.size →
      freelist (v.seg t).size ≤ freelist g.size) ↔ AnyClear v size := by
  obtain ⟨⟨htq, hfree, hclass⟩, ⟨l₁, l₂, hlist, hl₁⟩, hlow⟩ := search_lowest hl
    (fun g hg hfree => ⟨(ht.words hg hfree).1, (ht.words hg hfree).2.1⟩) hfound
  have htV : v.seg t ∈ view v := List.mem_map_of_mem htq
  obtain ⟨hfpos, -, hend⟩ := ht.words htV hfree
  have hpass : Misfit size (v.seg t) ∨ (size ≤ (v.seg t).size ∧ ¬ Overlooked size (v.seg t)) := by
    obtain ⟨-, -, -, hfit⟩ := search_some hfound
    refine (fitAddr_any_ne_none hend hfpos hpos hlt).mp ?_
    rw [hfit]
    simp
  constructor
  · rintro ⟨hsize, hmin⟩
    have hover : ¬ Overlooked size (v.seg t) := (hpass.resolve_left fun hmis => by
      have := hmis.1
      omega).2
    constructor
    case misfit =>
      intro k₁ u k₂ hsplit hmis
      have hu : u ∈ v.freelist (freelist size) := hsplit ▸ List.mem_append_right _ List.mem_cons_self
      obtain ⟨-, huq, hufree, huclass⟩ := (hl.free_iff _ u).mp hu
      have hupass := passes_of_misfit ht hpos hlt (List.mem_map_of_mem huq) hufree hmis
      have hne : u ≠ t := by
        rintro rfl
        have := hmis.1
        omega
      -- the misfit is on the list the search ended on, after the segment found
      have hsame : freelist size = freelist (v.seg t).size := by
        refine le_antisymm hclass (not_lt.mp fun hbelow => hupass ?_)
        exact hlow u huq hufree huclass.ge (huclass ▸ hbelow)
      refine ⟨t, ?_, hsize, hover⟩
      rw [hsame, hlist] at hsplit
      rcases List.append_eq_append_iff.mp hsplit with ⟨as, rfl, has⟩ | ⟨bs, rfl, hbs⟩
      · cases as with
        | nil => exact (hne (List.cons.inj has).1.symm).elim
        | cons a as =>
            rw [← (List.cons.inj has).1]
            simp
      · cases bs with
        | nil => exact (hne (List.cons.inj hbs).1).elim
        | cons b bs =>
            refine (hupass (hl₁ u ?_)).elim
            rw [← (List.cons.inj hbs).1]
            simp
    case overlooked =>
      intro f hf hffree hfover
      have hsize' : size ≤ f.size := by
        unfold Overlooked at hfover
        omega
      exact ⟨v.seg t, htV, hfree, hsize, hover, hmin f hf hffree hsize'⟩
  · intro hclear
    have hsize : size ≤ (v.seg t).size := by
      refine (hpass.resolve_left fun hmis => ?_).1
      have hle : freelist (v.seg t).size ≤ freelist size := by
        unfold freelist
        exact (Nat.le_log2 (by omega)).mpr
          ((Nat.log2_self_le (by omega)).trans hmis.1.le)
      rw [le_antisymm hle hclass] at hlist
      obtain ⟨u, hu, husize, hover⟩ := hclear.misfit l₁ t l₂ hlist hmis
      have humem : u ∈ v.freelist (freelist size) := hlist ▸ List.mem_append_left _ hu
      obtain ⟨-, huq, hufree, -⟩ := (hl.free_iff _ u).mp humem
      exact passes_of_fits ht hpos hlt (List.mem_map_of_mem huq) hufree husize hover (hl₁ u hu)
    refine ⟨hsize, fun g hg hgfree hgsize => not_lt.mp fun hbelow => ?_⟩
    have hlower : ∀ e ∈ view v, e.type = .kVMemSegFree → size ≤ e.size →
        freelist e.size < freelist (v.seg t).size → fitAddr e size 0 ⟨false⟩ = none := by
      intro e he hefree hesize hbelow
      obtain ⟨u, hu, rfl⟩ := List.mem_map.mp he
      exact hlow u hu hefree (freelist_mono hpos hesize) hbelow
    by_cases hgover : Overlooked size g
    · obtain ⟨e, he, hefree, hesize, heover, hle⟩ := hclear.overlooked g hg hgfree hgover
      exact passes_of_fits ht hpos hlt he hefree hesize heover
        (hlower e he hefree hesize (lt_of_le_of_lt hle hbelow))
    · exact passes_of_fits ht hpos hlt hg hgfree hgsize hgover (hlower g hg hgfree hgsize hbelow)

/-- Where it does not, no segment can hold the request exactly if the condition holds. -/
theorem no_fit_iff_of_not_found (hnone : search v size 0 ⟨false⟩ (searchIndices size) = none) :
    (¬ ∃ f ∈ view v, f.type = .kVMemSegFree ∧ size ≤ f.size) ↔ AnyClear v size := by
  have hall := (search_eq_none_iff hl
    (fun g hg hfree => ⟨(ht.words hg hfree).1, (ht.words hg hfree).2.1⟩)).mp hnone
  -- a segment of the size that the search passed by is one it overlooks
  have hover : ∀ f ∈ view v, f.type = .kVMemSegFree → size ≤ f.size → Overlooked size f := by
    intro f hf hfree hsize
    by_contra hnot
    exact passes_of_fits ht hpos hlt hf hfree hsize hnot
      (hall f hf hfree (freelist_mono hpos hsize))
  constructor
  · intro hnot
    constructor
    case misfit =>
      intro k₁ u k₂ hsplit hmis
      have hu : u ∈ v.freelist (freelist size) := hsplit ▸ List.mem_append_right _ List.mem_cons_self
      obtain ⟨-, huq, hufree, huclass⟩ := (hl.free_iff _ u).mp hu
      have huV : v.seg u ∈ view v := List.mem_map_of_mem huq
      exact (passes_of_misfit ht hpos hlt huV hufree hmis (hall _ huV hufree huclass.ge)).elim
    case overlooked =>
      intro f hf hfree hfover
      refine (hnot ⟨f, hf, hfree, ?_⟩).elim
      unfold Overlooked at hfover
      omega
  · rintro hclear ⟨f, hf, hfree, hsize⟩
    obtain ⟨g, hg, hgfree, hgsize, hgover, -⟩ :=
      hclear.overlooked f hf hfree (hover f hf hfree hsize)
    exact hgover (hover g hg hgfree hgsize)

/-- A request anywhere. -/
theorem searchComplete_any (htwo : 2 ≤ v.freeSegs.length) :
    SearchComplete v size 0 ⟨false⟩ ↔ AnyClear v size := by
  have hne : size ≠ 0 := Nat.pos_iff_ne_zero.mp hpos
  -- when something is found it must be the lowest, when nothing is, nothing may fit
  cases hfound : search v size 0 ⟨false⟩ (searchIndices size) with
  | some found =>
      obtain ⟨t, addr⟩ := found
      obtain ⟨i, -, hmem, -⟩ := search_some hfound
      obtain ⟨-, htq, hfree, -⟩ := (hl.free_iff i t).mp hmem
      have htV : v.seg t ∈ view v := List.mem_map_of_mem htq
      obtain ⟨v', hx⟩ := xalloc_served none htwo hne (.inl rfl) hl hfound
      rw [searchComplete_of_ok hx, search_any hfound, if_neg (by simp),
        ← lowest_iff_of_found hl ht hpos hlt hfound]
      constructor
      · rintro ⟨-, f, hf, hffree, hbase, hlow⟩
        obtain rfl : f = v.seg t :=
          ht.eq_of_base isGap_le hf htV (isSpan_of_free hffree) (isSpan_of_free hfree) hbase
        exact hlow
      · intro hlow
        exact ⟨⟨v.seg t, htV, hfree, hlow.1⟩, v.seg t, htV, hfree, rfl, hlow⟩
  | none =>
      rw [searchComplete_of_error (xalloc_refused htwo hne (.inl rfl) hfound)]
      exact no_fit_iff_of_not_found hl ht hpos hlt hfound

end Anywhere

/-- **The search and wrap-around.** In every state of an arena without a source that is reached without
a request served beyond the end of a free segment, and for every request, at a given address where it
does not wrap or anywhere: the search is complete, and takes a segment of the lowest list, exactly if
the segments at the end of the address space are not in its way. -/
theorem vmem_search_iff {s₀ s : State E} {pool : List Tag} (h₀ : Initial s₀)
    (h : (machine E).Reach (fun s a => fits s a = true) s₀ s) (hpool : PoolOk s.arena pool)
    (htwo : 2 ≤ pool.length) (hpos : 0 < size) (hlt : size < 2 ^ 64) :
    (∀ min, min + size ≤ 2 ^ 64 →
      (SearchComplete (withPool s.arena pool) size min ⟨true⟩ ↔ ExactClear (view s.arena) size min)) ∧
    (SearchComplete (withPool s.arena pool) size 0 ⟨false⟩ ↔ AnyClear s.arena size) := by
  have hinv := inv_reach h₀ h
  have hl : Linked none (withPool s.arena pool) := linked_withPool hinv.linked hpool
  have ht : Tiled (· ≤ ·) (view (withPool s.arena pool)) := hinv.tiled
  have hany : AnyClear (withPool s.arena pool) size ↔ AnyClear s.arena size :=
    ⟨fun h => ⟨h.misfit, h.overlooked⟩, fun h => ⟨h.misfit, h.overlooked⟩⟩
  exact ⟨fun min hle => searchComplete_exact hl ht htwo hpos hle,
    (searchComplete_any hl ht hpos hlt htwo).trans hany⟩

/-- A span in the middle of the address space, and two requests for half a page and a page of it. -/
theorem vmem_search_iff_inside :
    ∃ s, (machine Unit).exec emptyState [.vmemAdd [0, 1] 0x1000 0x4000] = some s ∧
      SearchComplete (withPool s.arena [2, 3]) 0x800 0 ⟨false⟩ ∧
      SearchComplete (withPool s.arena [2, 3]) 0x1000 0x2000 ⟨true⟩ := by
  have hrun : ((machine Unit).exec emptyState [.vmemAdd [0, 1] 0x1000 0x4000]).map
      (fun s => (decide (PoolOk s.arena [2, 3]), view s.arena, s.arena.freelist (freelist 0x800)))
      = some (true, [⟨.kVMemSegSpan, 0x1000, 0x4000⟩, ⟨.kVMemSegFree, 0x1000, 0x4000⟩], []) := by
    decide
  obtain ⟨s, hs, hres⟩ := Option.map_eq_some_iff.mp hrun
  obtain ⟨hpool, hres⟩ := Prod.mk.inj hres
  obtain ⟨hview, hlist⟩ := Prod.mk.inj hres
  have hreach : (machine Unit).Reach (fun s a => fits s a = true) emptyState s :=
    Machine.reach_of_exec (c := fits) (fun _ _ hc => hc) (by decide) hs
  have hbelow : ∀ f ∈ view s.arena, f.base + f.size < 2 ^ 64 := by
    rw [hview]
    decide
  refine ⟨s, hs, ?_, ?_⟩
  · refine (vmem_search_iff initial_emptyState hreach (of_decide_eq_true hpool) (by decide)
      (by decide) (by decide)).2.mpr ⟨?_, ?_⟩
    · intro l₁ t l₂ hsplit
      rw [hlist] at hsplit
      simp at hsplit
    · intro f hf _ hover
      exact ((hbelow f hf).ne hover.2).elim
  · refine ((vmem_search_iff initial_emptyState hreach (of_decide_eq_true hpool) (by decide)
      (by decide) (by decide)).1 0x2000 (by decide)).mpr ?_
    rw [ExactClear, if_pos (by decide)]
    rintro ⟨f, hf, -, -, hend⟩
    exact (hbelow f hf).ne hend

/-- **A free span that is not found.** In an arena with the last two pages of the address space, a
request for one page fails: the end of the only free segment wraps to zero. -/
theorem vmem_search_overlooks :
    ¬ ∀ (s₀ s : State Unit) (pool : List Tag) (size : ℕ), Initial s₀ →
      (machine Unit).Reach (fun s a => fits s a = true) s₀ s → PoolOk s.arena pool →
      2 ≤ pool.length → 0 < size → size < 2 ^ 64 →
      SearchComplete (withPool s.arena pool) size 0 ⟨false⟩ := by
  intro h
  -- a span that ends at 2^64: the end of its free segment wraps to 0
  have hrun : ((machine Unit).exec emptyState [.vmemAdd [0, 1] (2 ^ 64 - 0x2000) 0x2000]).map
      (fun s => (decide (PoolOk s.arena [2, 3]), view s.arena,
        (vmemXalloc none (withPool s.arena [2, 3]) 0x1000 0 0 0 0 ⟨false⟩).map
          fun r => r.1.toOption))
      = some (true, [⟨.kVMemSegSpan, 2 ^ 64 - 0x2000, 0x2000⟩, ⟨.kVMemSegFree, 2 ^ 64 - 0x2000, 0x2000⟩],
          some none) := by decide
  obtain ⟨s, hs, hres⟩ := Option.map_eq_some_iff.mp hrun
  obtain ⟨hpool, hres⟩ := Prod.mk.inj hres
  obtain ⟨hview, hcall⟩ := Prod.mk.inj hres
  obtain ⟨⟨r, v'⟩, hx, hr⟩ := Option.map_eq_some_iff.mp hcall
  have hreach : (machine Unit).Reach (fun s a => fits s a = true) emptyState s :=
    Machine.reach_of_exec (c := fits) (fun _ _ hc => hc) (by decide) hs
  obtain ⟨res, v₁, hx₁, hiff, -⟩ := h _ s [2, 3] 0x1000 initial_emptyState hreach
    (of_decide_eq_true hpool) (by decide) (by decide) (by decide)
  rw [hx] at hx₁
  cases hx₁
  have hfree : ∃ f ∈ view s.arena, f.type = .kVMemSegFree ∧ CanHold ⟨false⟩ 0x1000 0 f := by
    rw [hview]
    exact ⟨_, List.mem_cons_of_mem _ List.mem_cons_self, rfl, by simp [CanHold]⟩
  obtain ⟨addr, rfl⟩ := hiff.mpr hfree
  cases hr

end Scalux.Vmem
