import Scalux.Kern.KmemSteps

/-! # `kmem_zonefree`

The slab of a small object is found by arithmetic on its address, the bufctl of a large one by a walk
through the bufctls of the zone.

* **`kmemZonefree_spec`**: the release of an object that a caller holds returns, and the slabs are as they
  have to be.
* **`kmemZonefree_putsBack`**: the object, or its bufctl, is first on the free list of a slab of its zone. -/

namespace Scalux.Kmem

variable {pend held : List (ZoneId × ℕ)} {G : List Slab} {k k' : Allocator} {s t : Slab}
  {mem mem' : ℕ → ℕ} {i j n p q x : ℕ} {z : ZoneId} {l l₁ l₂ : List ℕ}

/-! ## Walks -/

/-- A walk ends at the first element that meets the test. -/
theorem slistFind_eq {test : ℕ → Bool} (h : Chain mem p (l₁ ++ x :: l₂))
    (hl₁ : ∀ y ∈ l₁, test y = false) (hx : test x = true) (hn : l₁.length < n) :
    slistFind mem test n p = some x := by
  induction l₁ generalizing p n with
  | nil =>
      obtain ⟨rfl, hnull, -⟩ := h
      obtain ⟨n, rfl⟩ := Nat.exists_eq_succ_of_ne_zero (Nat.ne_zero_of_lt hn)
      rw [slistFind, if_neg hnull, if_pos hx]
  | cons y l₁ ih =>
      obtain ⟨rfl, hnull, h⟩ := h
      obtain ⟨n, rfl⟩ := Nat.exists_eq_succ_of_ne_zero (Nat.ne_zero_of_lt hn)
      have hy : ¬ test p = true := by
        rw [hl₁ p List.mem_cons_self]
        exact Bool.false_ne_true
      rw [slistFind, if_neg hnull, if_neg hy]
      exact ih h (fun y hy => hl₁ y (List.mem_cons_of_mem _ hy)) (Nat.lt_of_succ_lt_succ hn)

/-- In a list of different elements, `x` is not before `x`. -/
theorem not_mem_before (hnd : (l₁ ++ q :: x :: l₂).Nodup) : x ∉ l₁ ++ [q] := by
  have happ : l₁ ++ q :: x :: l₂ = (l₁ ++ [q]) ++ x :: l₂ := by simp
  rw [happ] at hnd
  exact fun hmem => List.disjoint_of_nodup_append hnd hmem List.mem_cons_self

/-- A chain begins with its first element. -/
theorem head_mem (h : Chain mem p (l₁ ++ q :: l₂)) : p ∈ l₁ ++ [q] := by
  cases l₁ with
  | nil => exact h.1 ▸ List.mem_cons_self
  | cons y l₁ => exact h.1 ▸ List.mem_cons_self

/-- In a chain of different elements, the one before `x` is the only one linked to it. -/
theorem links_before (h : Chain mem p (l₁ ++ q :: x :: l₂)) (hnd : (l₁ ++ q :: x :: l₂).Nodup) :
    (∀ y ∈ l₁, mem y ≠ x) ∧ mem q = x := by
  induction l₁ generalizing p with
  | nil =>
      obtain ⟨rfl, -, hlink, -⟩ := h
      exact ⟨by simp, hlink⟩
  | cons y l₁ ih =>
      obtain ⟨rfl, -, h⟩ := h
      have hnd' : (l₁ ++ q :: x :: l₂).Nodup := (List.nodup_cons.mp hnd).2
      obtain ⟨hl₁, hq⟩ := ih h hnd'
      refine ⟨fun y hy => ?_, hq⟩
      rcases List.mem_cons.mp hy with rfl | hy
      · exact fun heq => not_mem_before hnd' (heq ▸ head_mem h)
      · exact hl₁ y hy

/-- `SLIST_REMOVE` of an element of a chain. -/
theorem slistRemove_spec (h : Chain mem p l) (hnd : l.Nodup) (hlen : l.length ≤ 2 ^ 64) (hx : x ∈ l) :
    ∃ first mem' l', slistRemove mem p x = some (first, mem') ∧ Chain mem' first l' ∧
      (x :: l').Perm l ∧ (mem' = mem ∨ ∃ q ∈ l, q ≠ x ∧ ∀ a, a ≠ q → mem' a = mem a) := by
  obtain ⟨l₁, l₂, rfl⟩ := List.append_of_mem hx
  rcases List.eq_nil_or_concat l₁ with rfl | ⟨l₁, q, rfl⟩
  -- the entry is the head: no link is stored, the list begins at the next one
  · obtain ⟨rfl, -, htail⟩ := h
    refine ⟨mem p, mem, l₂, if_pos rfl, htail, List.Perm.refl _, .inl rfl⟩
  · rw [List.concat_eq_append, List.append_assoc, List.singleton_append] at *
    -- the link of the predecessor `q` is redirected
    obtain ⟨hbefore, hq⟩ := links_before h hnd
    have hne : q ≠ x := by
      rintro rfl
      exact (List.nodup_cons.mp (List.nodup_append.mp hnd).2.1).1 List.mem_cons_self
    have hp : p ≠ x := by
      rintro rfl
      exact not_mem_before hnd (head_mem h)
    have hfind : slistFind mem (fun y => mem y = x) (2 ^ 64) p = some q := by
      refine slistFind_eq h (fun y hy => decide_eq_false (hbefore y hy)) (decide_eq_true hq) ?_
      simp only [List.length_append, List.length_cons] at hlen
      omega
    refine ⟨p, Function.update mem q (mem x), l₁ ++ q :: l₂, ?_, h.remove hnd, ?_, .inr ⟨q, ?_, hne, ?_⟩⟩
    · unfold slistRemove
      rw [if_neg hp, hfind]
      show some (p, Function.update mem q (mem (mem q))) = _
      rw [hq]
    · rw [List.perm_iff_count]
      intro a
      simp only [List.count_append, List.count_cons]
      omega
    · exact List.mem_append_right _ List.mem_cons_self
    · exact fun a ha => Function.update_of_ne ha _ _

/-! ## The bufctls of a zone -/

/-- The bufctls in use are different. -/
theorem Inv.bufctls_nodup (h : Inv pend held G k) {zone : Zone} (hzone : k.zones z = some zone)
    (hlarge : kSmallSlabMax < zone.size) : (bufctls G z).Nodup := by
  have hsub : ((bufctls G z).map fun a => (a, sizeofBufctl)).Sublist (G.flatMap Slab.used) := by
    unfold bufctls
    rw [List.map_flatMap]
    refine (List.Sublist.flatMap_right _ fun s hs => ?_).trans (List.filter_sublist.flatMap _)
    obtain ⟨hs, hz⟩ := List.mem_filter.mp hs
    have hsize : zone.size = s.size :=
      h.size_of_zone hs ((congrArg k.zones (of_decide_eq_true hz)).trans hzone)
    unfold Slab.used
    rw [if_neg (Nat.not_le.mpr (hsize ▸ hlarge)), List.map_map]
    exact (List.filter_sublist.map _).cons _
  have hapart := ((List.pairwise_append.mp h.used_apart).1.sublist hsub)
  refine (List.pairwise_map.mp hapart).imp fun hab => ?_
  rintro rfl
  exact ne_of_apart hab (show 0 < sizeofBufctl by decide) rfl

/-- A bufctl is below the end of the address space. -/
theorem Inv.bufctl_lt (h : Inv pend held G k) {zone : Zone} (hzone : k.zones z = some zone)
    (hlarge : kSmallSlabMax < zone.size) {a : ℕ} (ha : a ∈ bufctls G z) : a < 2 ^ 64 := by
  obtain ⟨b, hb, -, hlt⟩ := h.bufctl_has hzone hlarge (List.Subset.refl G) ha
  obtain ⟨s, hs, -, hle⟩ := h.used_within (List.mem_append_left _ hb)
  have hdata : s.run.1 + s.run.2 ≤ 2 ^ 64 := (h.ok s hs).data_le
  omega

/-- The link of a bufctl in use belongs to no slab. -/
theorem Inv.reads_ne_taken (h : Inv pend held G k) (hs : s ∈ G) (hlarge : kSmallSlabMax < s.size)
    (hj : j ∈ s.taken) (ht : t ∈ G) {a : ℕ} (ha : t.Reads a) : a ≠ s.ctl j := by
  obtain ⟨hcap, hnot⟩ := s.mem_taken.mp hj
  obtain ⟨G₁, G₂, rfl⟩ := List.append_of_mem hs
  have h := h.perm List.perm_middle
  rcases List.mem_cons.mp (List.perm_middle.mem_iff.mp ht) with rfl | ht
  · rcases ha with ⟨o, ho, rfl⟩ | ⟨i, hi, rfl⟩ | ⟨-, i, hi, o, ho, hpos, rfl⟩
    · rw [if_neg (Nat.not_le.mpr hlarge)] at ho
      exact (h.hdr_ne_ctl hlarge hcap ho (show 0 < sizeofBufctl by decide)).symm
    · refine h.link_ne_link ((h.ok t List.mem_cons_self).free_lt i hi) hcap ?_
      rintro rfl
      exact hnot hi
    · by_cases hij : i = j
      · subst hij
        omega
      · exact h.ctl_ne_ctl hlarge hi hcap hij ho (show 0 < sizeofBufctl by decide)
  · obtain ⟨b, hb, hhas⟩ := (h.ok t (List.mem_cons_of_mem _ ht)).reads_has ha
    exact h.others_apart (Slab.ctl_has hlarge hcap (show 0 < sizeofBufctl by decide))
      ⟨b, List.mem_append_left _ (List.mem_flatMap.mpr ⟨t, ht, hb⟩), hhas⟩

/-- The bufctls of two zones are different. -/
theorem Inv.bufctls_ne (h : Inv pend held G k) {z' : ZoneId} {zone zone' : Zone} (hne : z ≠ z')
    (hzone : k.zones z = some zone) (hlarge : kSmallSlabMax < zone.size)
    (hzone' : k.zones z' = some zone') (hlarge' : kSmallSlabMax < zone'.size) {a : ℕ}
    (ha : a ∈ bufctls G z) (hq : q ∈ bufctls G z') : a ≠ q := by
  obtain ⟨s, hs, hq⟩ := List.mem_flatMap.mp hq
  obtain ⟨hs, hz'⟩ := List.mem_filter.mp hs
  obtain ⟨j, hj, rfl⟩ := List.mem_map.mp hq
  obtain ⟨G₁, G₂, rfl⟩ := List.append_of_mem hs
  have h := h.perm List.perm_middle
  have hz' : s.zone = z' := of_decide_eq_true hz'
  subst hz'
  have hsize : zone'.size = s.size := h.zone_size hzone'
  -- the other bufctl is one of the other slabs
  have ha : a ∈ bufctls (G₁ ++ G₂) z := by
    have hp : (G₁ ++ s :: G₂).Perm (s :: (G₁ ++ G₂)) := List.perm_middle
    have hmem := ((hp.filter fun t => decide (t.zone = z)).flatMap_right
      fun t => t.taken.map t.ctl).mem_iff.mp ha
    rwa [List.filter_cons_of_neg (by simpa using fun heq => hne heq.symm)] at hmem
  obtain ⟨b, hb, hhas⟩ := h.bufctl_has hzone hlarge (List.subset_cons_self s _) ha
  exact h.others_apart (Slab.ctl_has (hsize ▸ hlarge') (s.mem_taken.mp hj).1
    (show 0 < sizeofBufctl by decide)) ⟨b, List.mem_append_left _ hb, hhas⟩

/-- An object is in the pages of its slab. -/
theorem Slab.Ok.run_has (h : s.Ok mem) (hi : i < s.cap) : Has s.run (s.obj i) := by
  obtain ⟨hlo, hhi⟩ := h.within_run (List.mem_append_right _
    (List.mem_map.mpr ⟨i, List.mem_range.mpr hi, rfl⟩))
  exact ⟨hlo, Nat.lt_of_lt_of_le (Nat.lt_add_of_pos_right h.size_pos) hhi⟩

/-- The bufctl of an object is the only one in use that has its address. -/
theorem Inv.base_unique (h : Inv pend held (s :: G) k) {zone : Zone}
    (hzone : k.zones s.zone = some zone) (hlarge : kSmallSlabMax < zone.size) (hi : i < s.cap)
    (hq : q ∈ bufctls (s :: G) s.zone) (hbase : k.mem (ctlBase q) = s.obj i) : q = s.ctl i := by
  have hok := h.ok s List.mem_cons_self
  have hslarge : kSmallSlabMax < s.size := h.zone_size hzone ▸ hlarge
  -- a bufctl of the same slab has another index, one of another slab another run
  rw [bufctls_cons_self] at hq
  rcases List.mem_append.mp hq with hq | hq
  · obtain ⟨j, hj, rfl⟩ := List.mem_map.mp hq
    rw [((hok.large hslarge).2 j (s.mem_taken.mp hj).1).2] at hbase
    by_cases hij : j = i
    · rw [hij]
    · have hpos := hok.size_pos
      exact absurd hbase ((Slab.obj_apart hij).ne ⟨Nat.le_refl _, Nat.lt_add_of_pos_right hpos⟩
        ⟨Nat.le_refl _, Nat.lt_add_of_pos_right hpos⟩)
  · obtain ⟨t, ht, hq⟩ := List.mem_flatMap.mp hq
    obtain ⟨ht, hz⟩ := List.mem_filter.mp ht
    obtain ⟨j, hj, rfl⟩ := List.mem_map.mp hq
    have htok := h.ok t (List.mem_cons_of_mem _ ht)
    have hsize : zone.size = t.size :=
      h.size_of_zone (List.mem_cons_of_mem s ht) ((congrArg k.zones (of_decide_eq_true hz)).trans hzone)
    have hjcap := (t.mem_taken.mp hj).1
    rw [((htok.large (hsize ▸ hlarge)).2 j hjcap).2] at hbase
    have hapart := (List.pairwise_cons.mp h.apart).1 t.run (List.mem_map_of_mem ht)
    exact absurd hbase.symm (hapart.ne (hok.run_has hi) (htok.run_has hjcap))

/-! ## The objects of a slab -/

/-- The address of the first object of a slab. -/
def slabBase (k : Allocator) (zone : Zone) (slab : ℕ) : ℕ :=
  if zone.size ≤ kSmallSlabMax then slab + sizeofSlab - pgSize else k.mem (slabData slab)

/-- The end of the room for the objects of a slab: the header of a small slab, and the end of the pages
of a large one. -/
def slabLimit (k : Allocator) (zone : Zone) (slab : ℕ) : ℕ :=
  if zone.size ≤ kSmallSlabMax then slab else slabBase k zone slab + slabsize zone.size

/-- The first object of a slab and the end of its objects. -/
theorem Inv.base_limit (h : Inv pend held (s :: G) k) (hzone : k.zones s.zone = some zone) :
    slabBase k zone s.hdr = s.data ∧ s.data + s.cap * s.size ≤ slabLimit k zone s.hdr := by
  have hok := h.ok s List.mem_cons_self
  have hcap := slabcapacity_mul_le s.size
  unfold slabLimit slabBase Slab.cap
  rw [h.zone_size hzone]
  by_cases hsmall : s.size ≤ kSmallSlabMax
  · have hhdr := (hok.small hsmall).1
    have hsize : slabsize s.size = pgSize := if_pos hsmall
    have hpg : sizeofSlab ≤ pgSize := by decide
    rw [if_pos hsmall, if_pos hsmall]
    rw [if_pos hsmall] at hcap
    unfold smallSlabHdr at hhdr
    omega
  · have hdata := (hok.large (Nat.not_le.mp hsmall)).1
    rw [if_neg hsmall, if_neg hsmall, hdata]
    rw [if_neg hsmall] at hcap
    omega

/-! ## The call -/

/-- The memory after an entry has become the first free one. -/
theorem putFirst_spec {slab newfree : ℕ} (hne : newfree ≠ nfree slab)
    (hne' : newfree ≠ firstfree slab) (hn : k.mem (nfree slab) + 1 < 2 ^ 32) :
    ∃ mem', putFirst slab newfree k = { k with mem := mem' } ∧
      mem' (nfree slab) = k.mem (nfree slab) + 1 ∧ mem' (firstfree slab) = newfree ∧
      mem' newfree = k.mem (firstfree slab) ∧
      ∀ a, a ≠ nfree slab → a ≠ firstfree slab → a ≠ newfree → mem' a = k.mem a := by
  have hfields : nfree slab ≠ firstfree slab := by
    unfold nfree firstfree
    omega
  refine ⟨_, rfl, ?_, Function.update_self _ _ _, ?_, ?_⟩
  · refine (Function.update_of_ne hfields _ _).trans ((Function.update_of_ne hne.symm _ _).trans ?_)
    exact (Function.update_self _ _ _).trans (Nat.mod_eq_of_lt hn)
  · refine (Function.update_of_ne hne' _ _).trans ((Function.update_self _ _ _).trans ?_)
    exact Function.update_of_ne hfields.symm _ _
  · intro a ha hb hc
    exact (Function.update_of_ne hb _ _).trans
      ((Function.update_of_ne hc _ _).trans (Function.update_of_ne ha _ _))

/-- An object in use is one of a slab. -/
theorem Inv.slab_of_held {y : ZoneId × ℕ} (h : Inv pend (y :: held) G k) :
    ∃ s G' i, G.Perm (s :: G') ∧ i ∈ s.taken ∧ y = (s.zone, s.obj i) := by
  have hmem : y ∈ objects G := h.live.mem_iff.mp (h.owned.mem_iff.mpr List.mem_cons_self)
  obtain ⟨s, hs, hy⟩ := List.mem_flatMap.mp hmem
  obtain ⟨i, hi, rfl⟩ := List.mem_map.mp hy
  obtain ⟨G₁, G₂, rfl⟩ := List.append_of_mem hs
  exact ⟨s, G₁ ++ G₂, i, List.perm_middle, hi, rfl⟩

/-- The header of a small slab from the address of an object. -/
theorem Slab.Ok.hdr_eq (h : s.Ok mem) (hsmall : s.size ≤ kSmallSlabMax) (hi : i < s.cap) :
    smallSlabHdr (pgRoundDown (s.obj i)) = s.hdr := by
  have hhas := h.run_has hi
  have hsize : slabsize s.size = pgSize := if_pos hsmall
  rw [(h.small hsmall).1]
  obtain ⟨m, hm⟩ := h.data_dvd
  have hdown : pgRoundDown (s.obj i) = s.data := by
    unfold Has run at hhas
    rw [hsize] at hhas
    unfold pgRoundDown
    have hdiv : s.obj i / pgSize = m := by
      refine Nat.div_eq_of_lt_le ?_ ?_
      · rw [Nat.mul_comm, ← hm]
        exact hhas.1
      · rw [Nat.succ_mul, Nat.mul_comm, ← hm]
        exact hhas.2
    rw [hdiv, Nat.mul_comm, hm]
  rw [hdown]

/-- The count of a slab with an object in use does not overflow. -/
theorem Slab.Ok.nfree_lt (h : s.Ok mem) (hi : i ∈ s.taken) : mem (nfree s.hdr) + 1 < 2 ^ 32 := by
  obtain ⟨hcap, hnot⟩ := s.mem_taken.mp hi
  have hlen : (i :: s.free).length ≤ s.cap := by
    refine length_le_of_nodup (List.nodup_cons.mpr ⟨hnot, h.free_nodup⟩) fun j hj => ?_
    rcases List.mem_cons.mp hj with rfl | hj
    · exact hcap
    · exact h.free_lt j hj
  rw [h.nfree_eq]
  exact Nat.lt_of_le_of_lt hlen s.cap_lt

/-- What the release of an object leaves: all but the object and the blocks that the allocator uses. -/
structure Releases (x : ZoneId × ℕ) (G G' : List Slab) (k k' : Allocator) : Prop where
  sizes : zoneSize k' = zoneSize k
  words : ∀ a, (∀ b ∈ G.flatMap Slab.used, ¬ Has b a) → ¬ Has (block k x) a → k'.mem a = k.mem a
  runs : k'.runs = k.runs
  live : k'.live = k.live.erase x
  spares : Spares k G G'

/-- The release of an object of a small slab. -/
theorem Inv.free_small (h : Inv pend ((s.zone, s.obj i) :: held) (s :: G) k) (hi : i ∈ s.taken)
    {zone : Zone} (hzone : k.zones s.zone = some zone) (hsmall : zone.size ≤ kSmallSlabMax) :
    ∃ k', kmemZonefree s.zone (s.obj i) k = some k' ∧
      Inv pend held (s.withFree (i :: s.free) :: G) k' ∧
      Releases (s.zone, s.obj i) (s :: G) (s.withFree (i :: s.free) :: G) k k' := by
  have hok := h.ok s List.mem_cons_self
  have hssmall : s.size ≤ kSmallSlabMax := h.zone_size hzone ▸ hsmall
  obtain ⟨hcap, hnot⟩ := s.mem_taken.mp hi
  have hobj := (hok.small hssmall).2 i
  have hlen : k.mem (nfree s.hdr) + 1 < 2 ^ 32 := hok.nfree_lt hi
  -- the object, which becomes the entry, is not the header: the stores of the two do not meet
  have hne := h.hdr_ne_link hcap (show 16 < sizeofSlab by decide)
  have hne' := h.hdr_ne_link hcap (show 24 < sizeofSlab by decide)
  obtain ⟨mem', hput, hn, hfirst, hlink, hmem⟩ := putFirst_spec hne hne' hlen
  rw [hobj] at hput
  refine ⟨{ k with mem := mem', live := k.live.erase (s.zone, s.obj i) }, ?_, ?_, rfl, ?_, rfl, rfl,
    spares_withFree s _ G⟩
  · unfold kmemZonefree
    rw [hzone]
    show (if zone.size ≤ kSmallSlabMax then _ else _) = _
    rw [if_pos hsmall, hok.hdr_eq hssmall hcap, hput]
    rfl
  · refine h.put hi hzone rfl (List.Perm.refl _) (fun t ht => h.ok t ht) (fun _ _ _ _ _ _ _ => rfl) ?_
      ?_ (hn.trans (by rw [hok.nfree_eq])) hfirst hlink hmem ?_
    · exact fun hlarge => absurd hsmall (Nat.not_le.mpr hlarge)
    · rw [hobj]
      exact Nat.ne_of_gt (Nat.lt_of_lt_of_le hok.data_pos (Nat.le_add_right _ _))
    · have hzones : Function.update k.zones s.zone (some zone) = k.zones := by
        rw [← hzone, Function.update_eq_self]
      rw [hzones]
  -- a used word outside the object is none of the three that are stored
  · intro a hused hobj'
    have hhdr := Slab.hdr_used hused
    refine hmem a (hhdr 16 (by decide)) (hhdr 24 (by decide)) fun heq => hobj' ?_
    rw [heq, hobj, block, h.size_eq s List.mem_cons_self]
    exact ⟨Nat.le_refl _, Nat.lt_add_of_pos_right hok.size_pos⟩

/-- The walk along the bufctls in use finds that of the object. -/
theorem Inv.bufctl_found (h : Inv pend ((s.zone, s.obj i) :: held) (s :: G) k) (hi : i ∈ s.taken)
    {zone : Zone} (hzone : k.zones s.zone = some zone) (hlarge : kSmallSlabMax < zone.size) :
    ∃ l, Chain k.mem zone.bufctllist l ∧ l.Perm (bufctls (s :: G) s.zone) ∧ l.Nodup ∧ l.length ≤ 2 ^ 64 ∧
      s.ctl i ∈ l ∧
      slistFind k.mem (fun p => k.mem (ctlBase p) = s.obj i) (2 ^ 64) zone.bufctllist = some (s.ctl i) := by
  have hslarge : kSmallSlabMax < s.size := h.zone_size hzone ▸ hlarge
  have hcap := (s.mem_taken.mp hi).1
  obtain ⟨l, hchain, hperm⟩ := h.lists s.zone zone hzone hlarge
  have hnd : l.Nodup := hperm.nodup_iff.mpr (h.bufctls_nodup hzone hlarge)
  have hlen : l.length ≤ 2 ^ 64 := length_le_of_nodup hnd fun a ha =>
    h.bufctl_lt hzone hlarge (hperm.mem_iff.mp ha)
  have hx : s.ctl i ∈ l := by
    refine hperm.mem_iff.mpr ?_
    rw [bufctls_cons_self]
    exact List.mem_append_left _ (List.mem_map_of_mem hi)
  have hbase : k.mem (ctlBase (s.ctl i)) = s.obj i :=
    (((h.ok s List.mem_cons_self).large hslarge).2 i hcap).2
  refine ⟨l, hchain, hperm, hnd, hlen, hx, ?_⟩
  obtain ⟨l₁, l₂, rfl⟩ := List.append_of_mem hx
  -- no bufctl before it has this base address, by `base_unique`
  refine slistFind_eq hchain (fun y hy => decide_eq_false fun heq => ?_) (decide_eq_true hbase) ?_
  · have hmem := hperm.mem_iff.mp (List.mem_append_left _ hy)
    obtain rfl := h.base_unique hzone hlarge hcap hmem heq
    exact List.disjoint_of_nodup_append hnd hy List.mem_cons_self
  · simp only [List.length_append, List.length_cons] at hlen
    omega

/-- The release of an object of a large slab. -/
theorem Inv.free_large (h : Inv pend ((s.zone, s.obj i) :: held) (s :: G) k) (hi : i ∈ s.taken)
    {zone : Zone} (hzone : k.zones s.zone = some zone) (hlarge : kSmallSlabMax < zone.size) :
    ∃ k', kmemZonefree s.zone (s.obj i) k = some k' ∧
      Inv pend held (s.withFree (i :: s.free) :: G) k' ∧
      Releases (s.zone, s.obj i) (s :: G) (s.withFree (i :: s.free) :: G) k k' := by
  have hslarge : kSmallSlabMax < s.size := h.zone_size hzone ▸ hlarge
  obtain ⟨hcap, hnot⟩ := s.mem_taken.mp hi
  obtain ⟨l, hchain, hperm, hnd, hlen, hx, hfind⟩ := h.bufctl_found hi hzone hlarge
  obtain ⟨first, mem, l', hremove, hchain', hperm', hchange⟩ := slistRemove_spec hchain hnd hlen hx
  -- the link that changes is that of another bufctl in use
  have hlinks : ∀ a, a ∉ l → mem a = k.mem a := by
    intro a ha
    rcases hchange with rfl | ⟨q, hq, -, hmem⟩
    · rfl
    · refine hmem a ?_
      rintro rfl
      exact ha hq
  have hoks : ∀ t ∈ s :: G, t.Ok mem := by
    intro t ht
    refine (h.ok t ht).congr fun a ha => hlinks a fun hmem => ?_
    obtain ⟨u, hu, hmem⟩ := List.mem_flatMap.mp (hperm.mem_iff.mp hmem)
    obtain ⟨hu, hz⟩ := List.mem_filter.mp hu
    obtain ⟨j, hj, rfl⟩ := List.mem_map.mp hmem
    have hsize : s.size = u.size := by
      rw [← h.size_eq s List.mem_cons_self, ← h.size_eq u hu, of_decide_eq_true hz]
    exact h.reads_ne_taken hu (hsize ▸ hslarge) hj ht ha rfl
  have hctls : ∀ z zone, z ≠ s.zone → k.zones z = some zone → kSmallSlabMax < zone.size →
      ∀ a ∈ bufctls G z, mem a = k.mem a := by
    intro z zone₁ hz hzone₁ hlarge₁ a ha
    refine hlinks a fun hmem => ?_
    have ha : a ∈ bufctls (s :: G) z := by
      unfold bufctls
      rwa [List.filter_cons_of_neg (by simpa using fun heq => hz heq.symm)]
    exact h.bufctls_ne hz hzone₁ hlarge₁ hzone hlarge ha (hperm.mem_iff.mp hmem) rfl
  have hok := hoks s List.mem_cons_self
  let k₁ := setZone { k with mem := mem } s.zone { zone with bufctllist := first }
  have hslab : k₁.mem (ctlSlab (s.ctl i)) = s.hdr := ((hok.large hslarge).2 i hcap).1
  have hne := h.hdr_ne_link hcap (show 16 < sizeofSlab by decide)
  have hne' := h.hdr_ne_link hcap (show 24 < sizeofSlab by decide)
  have hcount : k₁.mem (nfree s.hdr) + 1 < 2 ^ 32 := hok.nfree_lt hi
  obtain ⟨mem', hput, hn, hfirst, hlink, hmem⟩ := putFirst_spec hne hne' hcount
  refine ⟨{ k₁ with mem := mem', live := k.live.erase (s.zone, s.obj i) }, ?_, ?_, ?_, ?_, rfl, rfl,
    spares_withFree s _ G⟩
  · unfold kmemZonefree
    rw [hzone]
    show (if zone.size ≤ kSmallSlabMax then _ else _) = _
    rw [if_neg (Nat.not_le.mpr hlarge), hfind]
    show (slistRemove k.mem zone.bufctllist (s.ctl i)).bind _ = _
    rw [hremove]
    show (let k := putFirst (k₁.mem (ctlSlab (s.ctl i))) (s.ctl i) k₁
      some ({ k with live := k.live.erase (s.zone, s.obj i) } : Allocator)) = _
    rw [hslab, hput]
    rfl
  · have hsize : ({ zone with bufctllist := first } : Zone).size = zone.size := rfl
    exact h.put hi hzone hsize (List.Perm.refl _) hoks hctls
      (fun _ => ⟨l', hchain', hperm'.trans hperm⟩) (hchain.ne_zero hx)
      (hn.trans (congrArg (· + 1) hok.nfree_eq)) hfirst hlink hmem rfl
  · funext z
    show ((Function.update k.zones s.zone (some _)) z).elim 0 Zone.size = (k.zones z).elim 0 Zone.size
    by_cases hz : z = s.zone
    · rw [hz, Function.update_self, hzone]
      rfl
    · rw [Function.update_of_ne hz]
  · intro a hused _
    have hhdr := Slab.hdr_used hused
    have hctl : ∀ c ∈ l, a ≠ c := by
      rintro c hc rfl
      obtain ⟨b, hb, hhas⟩ := h.bufctl_has hzone hlarge (List.Subset.refl _) (hperm.mem_iff.mp hc)
      exact hused b hb hhas
    refine (hmem a (hhdr 16 (by decide)) (hhdr 24 (by decide)) (hctl _ hx)).trans ?_
    exact hlinks a fun ha => hctl a ha rfl

/-- The release of an object of a slab. -/
theorem Inv.free (h : Inv pend ((s.zone, s.obj i) :: held) (s :: G) k) (hi : i ∈ s.taken) :
    ∃ k', kmemZonefree s.zone (s.obj i) k = some k' ∧
      Inv pend held (s.withFree (i :: s.free) :: G) k' ∧
      Releases (s.zone, s.obj i) (s :: G) (s.withFree (i :: s.free) :: G) k k' := by
  obtain ⟨zone, hzone⟩ := h.zone_exists List.mem_cons_self
  by_cases hsmall : zone.size ≤ kSmallSlabMax
  · exact h.free_small hi hzone hsmall
  · exact h.free_large hi hzone (Nat.not_le.mp hsmall)

/-- The order of the slabs does not matter. -/
theorem Releases.perm {x : ZoneId × ℕ} {G₁ G' : List Slab} (hperm : G.Perm G₁)
    (h : Releases x G₁ G' k k') : Releases x G G' k k' where
  sizes := h.sizes
  words a hused := h.words a fun b hb => hused b ((hperm.flatMap_right _).mem_iff.mpr hb)
  runs := h.runs
  live := h.live
  spares r hr hspare := h.spares r hr fun t ht => hspare t (hperm.mem_iff.mpr ht)

/-- **`kmem_zonefree` of an object that a caller holds returns.** -/
theorem kmemZonefree_spec (h : Inv pend ((z, p) :: held) G k) :
    ∃ k' G', kmemZonefree z p k = some k' ∧ Inv pend held G' k' ∧ Releases (z, p) G G' k k' := by
  obtain ⟨s, G', i, hperm, hi, heq⟩ := h.slab_of_held
  cases heq
  obtain ⟨k', hfree, hinv, hrel⟩ := (h.perm hperm).free hi
  exact ⟨k', _, hfree, hinv, hrel.perm hperm⟩

/-! ## Where the object goes -/

/-- What a release writes.  The object `ptr` is one of the slab `slab` of the zone, and the queue of the
slabs stays as it is.  Its `entry` becomes the first one of the free list of the slab, linked to the one
that was first, and `nfree` is one more.  The entry of an object of a small slab is the object, and that of
a large one is its bufctl, which leaves the list of the bufctls in use. -/
structure PutBack (z : ZoneId) (ptr : ℕ) (zone zone' : Zone) (slab entry : ℕ) (k k' : Allocator) : Prop where
  zone_eq : k.zones z = some zone
  zones_eq : k'.zones = Function.update k.zones z (some zone')
  size_eq : zone'.size = zone.size
  slablist_eq : zone'.slablist = zone.slablist
  slab_mem : slab ∈ zone.slablist
  object : ∃ i < slabcapacity zone.size, ptr = slabBase k zone slab + i * zone.size
  nfree_eq : k'.mem (nfree slab) = k.mem (nfree slab) + 1
  firstfree_eq : k'.mem (firstfree slab) = entry
  next_eq : k'.mem (sleNext entry) = k.mem (firstfree slab)
  chain : ∃ l, Chain k.mem (k.mem (firstfree slab)) l ∧ l.length = k.mem (nfree slab) ∧
    Chain k'.mem (k'.mem (firstfree slab)) (entry :: l)
  small : zone.size ≤ kSmallSlabMax → entry = ptr ∧ zone' = zone
  large : kSmallSlabMax < zone.size → k'.mem (ctlBase entry) = ptr ∧ k'.mem (ctlSlab entry) = slab ∧
    ∃ l l', Chain k.mem zone.bufctllist l ∧ Chain k'.mem zone'.bufctllist l' ∧ (entry :: l').Perm l

/-- The object `ptr` goes back to a slab of the zone `z`. -/
def PutsBack (z : ZoneId) (ptr : ℕ) (k k' : Allocator) : Prop :=
  ∃ zone zone' slab entry, PutBack z ptr zone zone' slab entry k k'

/-- A release changes at most the list of the bufctls in use of its zone, and that not if the slabs are
small. -/
theorem kmemZonefree_zones (hfree : kmemZonefree z p k = some k') :
    ∃ zone zone', k.zones z = some zone ∧ k'.zones = Function.update k.zones z (some zone') ∧
      zone'.size = zone.size ∧ zone'.slablist = zone.slablist ∧
      (zone.size ≤ kSmallSlabMax → zone' = zone) := by
  obtain ⟨zone, hzone, hfree⟩ := Option.bind_eq_some_iff.mp hfree
  dsimp only at hfree
  split at hfree
  · cases hfree
    refine ⟨zone, zone, hzone, ?_, rfl, rfl, fun _ => rfl⟩
    rw [← hzone, Function.update_eq_self]
    rfl
  · rename_i hlarge
    obtain ⟨newfree, -, hfree⟩ := Option.bind_eq_some_iff.mp hfree
    obtain ⟨⟨first, mem⟩, -, hfree⟩ := Option.bind_eq_some_iff.mp hfree
    cases hfree
    exact ⟨zone, { zone with bufctllist := first }, hzone, rfl, rfl, rfl,
      fun hsmall => absurd hsmall hlarge⟩

/-- The bufctl of a released object is no longer one of those in use: `bufctls` loses `s.ctl i`. -/
theorem bufctls_withFree (hi : i ∈ s.taken) :
    (s.ctl i :: bufctls (s.withFree (i :: s.free) :: G) s.zone).Perm (bufctls (s :: G) s.zone) := by
  obtain ⟨hcap, hnot⟩ := s.mem_taken.mp hi
  have htaken : s.taken.Perm (i :: (s.withFree (i :: s.free)).taken) := Slab.taken_perm hcap hnot
  have hself : bufctls (s.withFree (i :: s.free) :: G) s.zone
      = (s.withFree (i :: s.free)).taken.map s.ctl ++ bufctls G s.zone :=
    bufctls_cons_self (s.withFree (i :: s.free))
  rw [bufctls_cons_self, hself, ← List.cons_append, ← List.map_cons]
  exact ((htaken.map s.ctl).append_right _).symm

/-- What a release writes, from the slabs before and after it. -/
theorem Inv.putBack {zone zone' : Zone} {held' : List (ZoneId × ℕ)} (h : Inv pend held (s :: G) k)
    (h' : Inv pend held' (s.withFree (i :: s.free) :: G) k') (hi : i ∈ s.taken)
    (hzone : k.zones s.zone = some zone)
    (hzones : k'.zones = Function.update k.zones s.zone (some zone')) (hsize : zone'.size = zone.size)
    (hslablist : zone'.slablist = zone.slablist) (hsmall : zone.size ≤ kSmallSlabMax → zone' = zone) :
    PutBack s.zone (s.obj i) zone zone' s.hdr (s.ctl i) k k' := by
  have hok := h.ok s List.mem_cons_self
  have hok' := h'.ok (s.withFree (i :: s.free)) List.mem_cons_self
  have hssize : zone.size = s.size := h.zone_size hzone
  have hzone' : k'.zones s.zone = some zone' := by rw [hzones, Function.update_self]
  obtain ⟨hcap, hnot⟩ := s.mem_taken.mp hi
  -- the free list of the slab after the release is that before it, with the entry in front
  obtain ⟨hfirst, hnull, htail⟩ := hok'.chain
  have hcount : k'.mem (nfree s.hdr) = (i :: s.free).length := hok'.nfree_eq
  constructor
  case zone_eq => exact hzone
  case zones_eq => exact hzones
  case size_eq => exact hsize
  case slablist_eq => exact hslablist
  case slab_mem => exact h.hdr_mem hzone
  case object =>
    refine ⟨i, hssize ▸ hcap, ?_⟩
    rw [(h.base_limit hzone).1, hssize]
    rfl
  case nfree_eq => rw [hcount, hok.nfree_eq, List.length_cons]
  case firstfree_eq => exact hfirst
  case next_eq => exact htail.head_unique hok.chain
  case chain =>
    refine ⟨s.free.map s.ctl, hok.chain, ?_, hok'.chain⟩
    rw [List.length_map, hok.nfree_eq]
  case small =>
    intro hle
    exact ⟨(hok.small (hssize ▸ hle)).2 i, hsmall hle⟩
  case large =>
    intro hlarge
    obtain ⟨hslab, hbase⟩ := (hok'.large (hssize ▸ hlarge)).2 i hcap
    obtain ⟨l, hchain, hperm⟩ := h.lists s.zone zone hzone hlarge
    obtain ⟨l', hchain', hperm'⟩ := h'.lists s.zone zone' hzone' (hsize.symm ▸ hlarge)
    refine ⟨hbase, hslab, l, l', hchain, hchain', ?_⟩
    exact ((hperm'.cons _).trans (bufctls_withFree hi)).trans hperm.symm

/-- **`kmem_zonefree` puts the object back** into the free list of its slab, which is one of the zone that
the object was allocated from. -/
theorem kmemZonefree_putsBack (h : Inv pend ((z, p) :: held) G k) (hfree : kmemZonefree z p k = some k') :
    PutsBack z p k k' := by
  obtain ⟨s, G', i, hperm, hi, heq⟩ := h.slab_of_held
  cases heq
  obtain ⟨k₁, hfree₁, hinv, -⟩ := (h.perm hperm).free hi
  rw [hfree] at hfree₁
  cases hfree₁
  obtain ⟨zone, zone', hzone, hzones, hsize, hslablist, hsmall⟩ := kmemZonefree_zones hfree
  exact ⟨zone, zone', s.hdr, s.ctl i,
    (h.perm hperm).putBack hinv hi hzone hzones hsize hslablist hsmall⟩

end Scalux.Kmem
