import Mathlib.Data.List.Chain
import Scalux.Kern.VmemQuantum

/-! # Requests at a given address

An arena from which nothing has been freed has no gaps, and no two of its free segments are neighbours.
A range of its span that meets no allocated segment is then part of one free segment, and a request for
exactly this range is served.

* **`isFreeRange_of_disjoint`**: such a range is free.
* **`xalloc_exact_ok`**: `vmem_xalloc` with `kVMemExact` does not fail. -/

namespace Scalux.Vmem

variable {E : Type} {v v' : Arena E} {V : List Seg} {live : List (ℕ × ℕ)} {lo n size min : ℕ}

/-! ## Free ranges -/

/-- Where segments follow one another without gaps and no two free ones do, a range off the allocated
ones is in a free one. -/
theorem exists_free_of_covers {hi : ℕ} {l : List Seg} (hcov : Covers lo hi l)
    (hapart : l.IsChain fun a b => ¬ (a.isFree = true ∧ b.isFree = true)) (hlo : lo ≤ min)
    (hhi : min + size ≤ hi) (hpos : 0 < size)
    (hoff : ∀ s ∈ l, s.type = .kVMemSegAllocated → s.base + s.size ≤ min ∨ min + size ≤ s.base) :
    ∃ f ∈ l, f.type = .kVMemSegFree ∧ f.base ≤ min ∧ min + size ≤ f.base + f.size := by
  induction l generalizing lo with
  | nil =>
      rw [Covers] at hcov
      omega
  | cons s l ih =>
      obtain ⟨htype, hbase, hsize, hrest⟩ := hcov
      rcases Nat.lt_or_ge min (lo + s.size) with hlt | hge
      swap
      · obtain ⟨f, hf, hfree⟩ := ih hrest (List.isChain_of_isChain_cons hapart) hge
          fun t ht => hoff t (List.mem_cons_of_mem _ ht)
        exact ⟨f, List.mem_cons_of_mem _ hf, hfree⟩
      have hfree : s.type = .kVMemSegFree := by
        refine htype.resolve_right fun halloc => ?_
        have := hoff s List.mem_cons_self halloc
        omega
      refine ⟨s, List.mem_cons_self, hfree, by omega, ?_⟩
      by_contra hbeyond
      -- the next segment would be allocated and in the range
      cases l with
      | nil =>
          rw [Covers] at hrest
          omega
      | cons t l =>
          obtain ⟨htype', hbase', hsize', -⟩ := hrest
          have halloc : t.type = .kVMemSegAllocated := by
            refine htype'.resolve_left fun hfree' => ?_
            have hpair := (List.isChain_cons_cons.mp hapart).1
            exact hpair ⟨decide_eq_true hfree, decide_eq_true hfree'⟩
          have := hoff t (List.mem_cons_of_mem _ List.mem_cons_self) halloc
          omega

/-- What covers a span are no span markers. -/
theorem Covers.not_span {hi : ℕ} {l : List Seg} (h : Covers lo hi l) : ∀ s ∈ l, s.isSpan = false := by
  induction l generalizing lo with
  | nil => simp
  | cons s l ih =>
      obtain ⟨htype, -, -, hrest⟩ := h
      intro t ht
      rcases List.mem_cons.mp ht with rfl | ht
      · exact htype.elim isSpan_of_free isSpan_of_allocated
      · exact ih hrest t ht

/-- **A range off the allocated segments is free.** -/
theorem isFreeRange_of_disjoint (h : Tiled (· = ·) V) (ha : Apart false V) (hpos : 0 < size)
    (hspan : ∃ t ∈ V, t.isSpan = true ∧ t.base ≤ min ∧ min + size ≤ t.base + t.size)
    (hoff : ∀ x ∈ allocs V, x.1 + x.2 ≤ min ∨ min + size ≤ x.1) : IsFreeRange V min size := by
  obtain ⟨⟨G, rfl, hpair, hgroups⟩, hchain⟩ := h.grouped ha
  obtain ⟨t, ht, hts, hlo, hhi⟩ := hspan
  obtain ⟨g, hg, htg⟩ := List.mem_flatMap.mp ht
  obtain ⟨hgspan, hcov⟩ := hgroups g hg
  have hmem : ∀ s ∈ g.2, s ∈ G.flatMap fun g => g.1 :: g.2 := fun s hs =>
    List.mem_flatMap.mpr ⟨g, hg, List.mem_cons_of_mem _ hs⟩
  -- a span marker is the first of its group
  have htg : t = g.1 := by
    refine (List.mem_cons.mp htg).resolve_right fun hin => ?_
    rw [hcov.not_span t hin] at hts
    cases hts
  subst htg
  have hpart : g.2.IsChain fun a b => ¬ (a.isFree = true ∧ b.isFree = true) := by
    obtain ⟨G₁, G₂, rfl⟩ := List.append_of_mem hg
    rw [List.flatMap_append, List.flatMap_cons, List.cons_append] at hchain
    exact (List.isChain_of_isChain_cons hchain.right_of_append).left_of_append
  obtain ⟨f, hf, hfree⟩ := exists_free_of_covers hcov hpart hlo hhi hpos fun s hs halloc => by
    have hin : (s.base, s.size) ∈ allocs (G.flatMap fun g => g.1 :: g.2) := by
      rw [mem_allocs, ← halloc]
      exact hmem s hs
    exact hoff _ hin
  exact ⟨f, hmem f hf, hfree⟩

/-- `vmem_init` sets up a span. -/
theorem span_init {seg : Tag → Seg} {pool : List Tag} {env : E} (hpool : pool.Nodup) (hn : n ≠ 0)
    (h : vmemInit none seg pool env lo n = some v) : ∃ t ∈ view v, t.isSpan = true := by
  obtain ⟨-, ⟨-, hadds⟩ | ⟨hno, -⟩⟩ := vmemInit_spec hpool h
  · exact ⟨⟨.kVMemSegSpan, lo, n⟩, hadds.of_nil ▸ List.mem_cons_self, rfl⟩
  · exact absurd ⟨hn, rfl⟩ hno

/-- An allocation replaces a free segment, and no span marker. -/
theorem Allocates.mem_of_span {V' : List Seg} {flags : Flags} {addr : ℕ} {t : Seg}
    (h : Allocates size min flags addr V V') (ht : t ∈ V) (hspan : t.isSpan = true) : t ∈ V' := by
  obtain ⟨L, f, R, rfl, hfree, -, -, rfl⟩ := h.split
  rw [List.append_assoc, List.mem_append, List.mem_append]
  rcases List.mem_append.mp ht with ht | ht
  · exact .inl ht
  · rcases List.mem_cons.mp ht with rfl | ht
    · rw [isSpan_of_free hfree] at hspan
      cases hspan
    · exact .inr (.inr ht)

/-! ## The search -/

/-- The search of a list finds something if there is something that fits. -/
theorem searchList_isSome {seg : Tag → Seg} {flags : Flags} {l : List Tag} {t : Tag} (ht : t ∈ l)
    (hfit : fitAddr (seg t) size min flags ≠ none) : searchList seg size min flags l ≠ none := by
  induction l with
  | nil => cases ht
  | cons u l ih =>
      rw [searchList]
      cases hu : fitAddr (seg u) size min flags with
      | some addr => simp
      | none =>
          rcases List.mem_cons.mp ht with rfl | ht
          · exact (hfit hu).elim
          · exact ih ht

theorem search_isSome {flags : Flags} {is : List ℕ} {i : ℕ} {t : Tag} (hi : i ∈ is)
    (ht : t ∈ v.freelist i) (hfit : fitAddr (v.seg t) size min flags ≠ none) :
    search v size min flags is ≠ none := by
  induction is with
  | nil => cases hi
  | cons j is ih =>
      rw [search]
      cases hj : searchList v.seg size min flags (v.freelist j) with
      | some found => simp
      | none =>
          rcases List.mem_cons.mp hi with rfl | hi
          · exact (searchList_isSome ht hfit hj).elim
          · exact ih hi

/-- **A request for exactly a free range is served.** -/
theorem xalloc_exact_ok {res : Except ℤ ℕ} (hl : Linked none v) (hfree : IsFreeRange (view v) min size)
    (hend : ∀ t ∈ view v, t.base + t.size < 2 ^ 64)
    (hx : vmemXalloc none v size 0 0 min 0 ⟨true⟩ = some (res, v')) : ∃ addr, res = .ok addr := by
  obtain ⟨f, hf, htype, hlo, hhi⟩ := hfree
  obtain ⟨t, ht, rfl⟩ := List.mem_map.mp hf
  have hlt := hend _ hf
  have hfit : fitAddr (v.seg t) size min ⟨true⟩ ≠ none := by
    unfold fitAddr add64
    rw [if_pos hlo, if_neg]
    · simp
    · rw [Nat.mod_eq_of_lt hlt, Nat.mod_eq_of_lt (by omega)]
      omega
  obtain ⟨⟨hpos, -⟩, left, right, rest, -, hcases⟩ := vmemXalloc_eq_some hx
  -- the list of the segment is searched: it is at or above that of the size
  have hmem : freelist (v.seg t).size ∈ searchIndices size := by
    have hne : (v.seg t).size ≠ 0 := by omega
    have hle : freelist size ≤ freelist (v.seg t).size :=
      (Nat.le_log2 hne).mpr ((Nat.log2_self_le hpos).trans (by omega))
    have hlists : freelist (v.seg t).size < kNFreeLists := (Nat.log2_lt hne).mpr (by
      unfold kNFreeLists
      omega)
    exact List.mem_range'_1.mpr ⟨hle, by omega⟩
  have hfound := search_isSome (v := { v with freeSegs := rest }) hmem
    ((hl.free_iff _ t).mpr ⟨by simp, ht, htype, rfl⟩) hfit
  rcases hcases with ⟨-, addr, -, -, rfl⟩ | ⟨hnone, -⟩
  · exact ⟨addr, rfl⟩
  · exact absurd hnone hfound

end Scalux.Vmem
