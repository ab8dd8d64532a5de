import Scalux.Kern.KmemSteps

/-! # `kmem_zonealloc`

The new slabs, and allocation from the first slab of a zone.  While `large_slab_new` makes a slab, its
header is in the queue of the zone already, and the bufctls allocated so far are objects that it holds. -/

namespace Scalux.Kmem

variable {pend held : List (ZoneId × ℕ)} {G : List Slab} {k k' : Allocator} {s : Slab}
  {mem mem' : ℕ → ℕ} {i j n p base slab : ℕ} {z : ZoneId} {zone : Zone}

/-- `vm_kalloc` returns pages that are not in use. -/
theorem vmKalloc_spec (hs : vmKalloc n k = some (base, k')) :
    (∃ next, k' = { k with runs := (base, n * pgSize) :: k.runs, next := next }) ∧ base ≠ 0 ∧
      pgSize ∣ base ∧ 0 < n ∧ base + n * pgSize ≤ 2 ^ 64 ∧ ∀ r ∈ k.runs, Apart (base, n * pgSize) r := by
  unfold vmKalloc at hs
  split at hs
  · cases hs
  · dsimp only at hs
    split at hs
    · rename_i hok
      cases hs
      exact ⟨⟨_, rfl⟩, hok⟩
    · cases hs

/-- More pages. -/
theorem Inv.addRun (h : Inv pend held G k) (r : ℕ × ℕ) (next : List ℕ) :
    Inv pend held G { k with runs := r :: k.runs, next := next } :=
  { h with run_mem := fun s hs => List.mem_cons_of_mem _ (h.run_mem s hs) }

/-- The header of a slab that is being made goes into the queue of its zone. -/
theorem Inv.insertSlab (h : Inv pend held G k) (hzone : k.zones z = some zone) (slab : ℕ) :
    Inv ((z, slab) :: pend) held G (insertSlab z zone slab k) := by
  -- putting a slab on the list of its zone leaves every size as it was
  have hsizes : zoneSize (Kmem.insertSlab z zone slab k) = zoneSize k := by
    funext z'
    unfold zoneSize Kmem.insertSlab setZone
    dsimp only
    by_cases hz : z' = z
    · rw [hz, Function.update_self, hzone]
      rfl
    · rw [Function.update_of_ne hz]
  -- a zone differs from what it was by the header in front of its slab list, and only if it is `z`
  have hzones : ∀ z' zone', (Kmem.insertSlab z zone slab k).zones z' = some zone' →
      ∃ zone₀, k.zones z' = some zone₀ ∧ zone'.size = zone₀.size ∧
        zone'.bufctllist = zone₀.bufctllist ∧
        zone'.slablist = (if z' = z then [slab] else []) ++ zone₀.slablist := by
    intro z' zone' hzone'
    unfold Kmem.insertSlab setZone at hzone'
    dsimp only at hzone'
    by_cases hz : z' = z
    · rw [hz, Function.update_self] at hzone'
      cases hzone'
      exact ⟨zone, hz ▸ hzone, rfl, rfl, by rw [if_pos hz]; rfl⟩
    · rw [Function.update_of_ne hz] at hzone'
      exact ⟨zone', hzone', rfl, rfl, by rw [if_neg hz]; rfl⟩
  constructor
  case size_eq =>
    intro s hs
    rw [hsizes]
    exact h.size_eq s hs
  case size_dvd =>
    intro z' zone' hzone'
    obtain ⟨zone₀, hzone₀, hsize, -⟩ := hzones z' zone' hzone'
    exact hsize ▸ h.size_dvd z' zone₀ hzone₀
  case slab_size => exact (congrFun hsizes _).trans h.slab_size
  case bufctl_size => exact (congrFun hsizes _).trans h.bufctl_size
  case ok => exact h.ok
  case run_mem => exact h.run_mem
  case apart => exact h.apart
  case queue =>
    intro z' zone' hzone'
    obtain ⟨zone₀, hzone₀, -, -, hlist⟩ := hzones z' zone' hzone'
    have hqueue := h.queue z' zone₀ hzone₀
    -- the new header is in no slab of `G` yet: it stands in `pend`, and that keeps the count
    rw [hlist, List.cons_append, List.filter_cons]
    by_cases hz : z' = z
    · rw [if_pos hz, if_pos (decide_eq_true hz.symm)]
      exact hqueue.cons slab
    · rw [if_neg hz, if_neg (by simpa using fun heq => hz heq.symm)]
      exact hqueue
  case lists =>
    intro z' zone' hzone' hlarge
    obtain ⟨zone₀, hzone₀, hsize, hlist, -⟩ := hzones z' zone' hzone'
    rw [hlist]
    exact h.lists z' zone₀ hzone₀ (hsize ▸ hlarge)
  case live => exact h.live
  case owned => exact h.owned

/-- A slab that has been made: all its objects are free, and its header and bufctls are no longer held by
a caller. -/
theorem Inv.adopt {held' : List (ZoneId × ℕ)} (h : Inv ((s.zone, s.hdr) :: pend) held' G k)
    (hok : s.Ok k.mem) (hfree : s.free = List.range s.cap) (hrun : s.run ∈ k.runs)
    (hspare : ∀ t ∈ G, Apart s.run t.run) (hsize : zoneSize k s.zone = s.size)
    (hheld : held'.Perm (s.inner ++ held)) : Inv pend held (s :: G) k := by
  -- no object of a new slab is handed out
  have htaken : s.taken = [] := by
    refine List.eq_nil_iff_forall_not_mem.mpr fun i hi => ?_
    obtain ⟨hcap, hnot⟩ := s.mem_taken.mp hi
    exact hnot (hfree ▸ List.mem_range.mpr hcap)
  constructor
  case size_eq =>
    intro t ht
    rcases List.mem_cons.mp ht with rfl | ht
    · exact hsize
    · exact h.size_eq t ht
  case size_dvd => exact h.size_dvd
  case slab_size => exact h.slab_size
  case bufctl_size => exact h.bufctl_size
  case ok =>
    intro t ht
    rcases List.mem_cons.mp ht with rfl | ht
    · exact hok
    · exact h.ok t ht
  case run_mem =>
    intro t ht
    rcases List.mem_cons.mp ht with rfl | ht
    · exact hrun
    · exact h.run_mem t ht
  case apart =>
    refine List.pairwise_cons.mpr ⟨fun r hr => ?_, h.apart⟩
    obtain ⟨t, ht, rfl⟩ := List.mem_map.mp hr
    exact hspare t ht
  -- the header moves from `pend` to the slabs: the same headers in another order
  case queue =>
    intro z zone hzone
    refine (h.queue z zone hzone).trans (List.Perm.map _ (List.Perm.filter _ ?_))
    exact List.perm_middle.symm
  case lists =>
    intro z zone hzone hlarge
    obtain ⟨l, hchain, hperm⟩ := h.lists z zone hzone hlarge
    refine ⟨l, hchain, hperm.trans ?_⟩
    unfold bufctls
    rw [List.filter_cons]
    split
    · rw [List.flatMap_cons, htaken]
      exact List.Perm.refl _
    · exact List.Perm.refl _
  case live =>
    unfold objects
    rw [List.flatMap_cons, htaken]
    exact h.live
  -- what the slab holds of the two inner zones was held by the caller
  case owned =>
    refine h.owned.trans ((hheld.append_right _).trans ?_)
    rw [List.flatMap_cons, ← List.append_assoc]
    exact List.perm_append_comm.append_right _

/-! ## Small slabs -/

/-- The links of the objects of a new slab. -/
theorem linkObjects_spec (base : ℕ) {size : ℕ} (hsize : 0 < size) (n : ℕ) (mem : ℕ → ℕ) :
    (∀ i < n, linkObjects base size n mem (base + i * size) = base + (i + 1) * size) ∧
      ∀ a, (∀ i < n, a ≠ base + i * size) → linkObjects base size n mem a = mem a := by
  unfold linkObjects
  induction n with
  | zero => exact ⟨by simp, fun a _ => rfl⟩
  | succ n ih =>
      obtain ⟨hlink, hother⟩ := ih
      rw [List.range_succ, List.foldl_append]
      refine ⟨fun i hi => ?_, fun a ha => ?_⟩
      · by_cases hin : i = n
        · rw [hin]
          exact Function.update_self _ _ _
        · have hne : base + i * size ≠ base + n * size := by
            intro heq
            exact hin (Nat.eq_of_mul_eq_mul_right hsize (Nat.add_left_cancel heq))
          exact (Function.update_of_ne hne _ _).trans (hlink i (by omega))
      · exact (Function.update_of_ne (ha n (Nat.lt_succ_self n)) _ _).trans
          (hother a fun i hi => ha i (Nat.lt_succ_of_lt hi))

/-- A new small slab. -/
def smallSlab (z : ZoneId) (size base : ℕ) : Slab :=
  ⟨z, size, smallSlabHdr base, base, fun i => base + i * size, List.range (slabcapacity size)⟩

/-- What `small_slab_new` stores in the page. -/
def smallSlabMem (z : ZoneId) (size base : ℕ) (mem : ℕ → ℕ) : ℕ → ℕ :=
  let slab := smallSlabHdr base
  let cap := slabcapacity size
  let mem := Function.update (Function.update mem (slabZone slab) z) (nfree slab) cap
  Function.update (Function.update (linkObjects base size cap mem) (base + (cap - 1) * size) 0)
    (firstfree slab) base

/-- The objects of a new small slab are below its header. -/
theorem obj_lt_hdr {size : ℕ} (hsmall : size ≤ kSmallSlabMax) (hpos : 0 < size)
    (hi : i < slabcapacity size) (base : ℕ) : base + i * size < smallSlabHdr base := by
  have hcap := slabcapacity_mul_le size
  have hsize : slabsize size = pgSize := if_pos hsmall
  have hle : (i + 1) * size ≤ slabcapacity size * size := Nat.mul_le_mul_right _ hi
  have hpg : sizeofSlab ≤ pgSize := by decide
  rw [if_pos hsmall, hsize] at hcap
  rw [Nat.add_mul, Nat.one_mul] at hle
  unfold smallSlabHdr
  omega

/-- The words that `small_slab_new` stores are in the page. -/
theorem smallSlabMem_outside {size : ℕ} (hsmall : size ≤ kSmallSlabMax) (hpos : 0 < size)
    (hcap : 0 < slabcapacity size) (z : ZoneId) (base : ℕ) (mem : ℕ → ℕ) {a : ℕ}
    (ha : ¬ Has (base, pgSize) a) : smallSlabMem z size base mem a = mem a := by
  have hobj : ∀ i < slabcapacity size, a ≠ base + i * size := by
    rintro i hi rfl
    have hlt := obj_lt_hdr hsmall hpos hi base
    refine ha ⟨Nat.le_add_right _ _, ?_⟩
    unfold smallSlabHdr at hlt
    dsimp only
    omega
  have hhdr : ∀ o < sizeofSlab, a ≠ smallSlabHdr base + o := by
    rintro o ho rfl
    refine ha ?_
    unfold Has smallSlabHdr
    have hpg : sizeofSlab ≤ pgSize := by decide
    dsimp only
    omega
  unfold smallSlabMem firstfree nfree slabZone
  rw [Function.update_of_ne (hhdr 24 (by decide)), Function.update_of_ne (hobj _ (by omega)),
    (linkObjects_spec base hpos _ _).2 a hobj, Function.update_of_ne (hhdr 16 (by decide)),
    Function.update_of_ne (hhdr 8 (by decide))]

/-- The page holds the new slab. -/
theorem smallSlab_ok {size : ℕ} (hdvd : 8 ∣ size) (hsmall : size ≤ kSmallSlabMax) (hpos : 0 < size)
    (hcap : 0 < slabcapacity size) (z : ZoneId) (hbase : base ≠ 0) (halign : pgSize ∣ base)
    (hle : base + pgSize ≤ 2 ^ 64) (mem : ℕ → ℕ) :
    (smallSlab z size base).Ok (smallSlabMem z size base mem) := by
  -- the header of a small slab is at the end of its page, behind every object
  have hlt : ∀ i < slabcapacity size, ∀ o, base + i * size ≠ smallSlabHdr base + o := by
    intro i hi o
    have hlt := obj_lt_hdr hsmall hpos hi base
    omega
  have hlast : slabcapacity size - 1 < slabcapacity size := by omega
  have hlinks := linkObjects_spec base hpos (slabcapacity size)
  have hslabsize : slabsize size = pgSize := if_pos hsmall
  constructor
  case size_dvd => exact hdvd
  case cap_pos => exact hcap
  case free_nodup => exact List.nodup_range
  case free_lt => exact fun i hi => List.mem_range.mp hi
  case data_pos => exact Nat.pos_of_ne_zero hbase
  case data_dvd => exact halign
  case data_le =>
    show base + slabsize size ≤ 2 ^ 64
    rw [hslabsize]
    exact hle
  case nfree_eq =>
    show smallSlabMem z size base mem (smallSlabHdr base + 16) = (List.range (slabcapacity size)).length
    unfold smallSlabMem firstfree nfree slabZone
    rw [Function.update_of_ne (show smallSlabHdr base + 16 ≠ smallSlabHdr base + 24 by omega),
      Function.update_of_ne (hlt _ hlast 16).symm, (hlinks _).2 _ fun i hi => (hlt i hi 16).symm,
      List.length_range]
    exact Function.update_self _ _ _
  case chain =>
    have hfirst : smallSlabMem z size base mem (firstfree (smallSlabHdr base)) = base + 0 * size := by
      unfold smallSlabMem
      rw [Nat.zero_mul, Nat.add_zero, Function.update_self]
    show Chain (smallSlabMem z size base mem)
      (smallSlabMem z size base mem (firstfree (smallSlabHdr base)))
      ((List.range (slabcapacity size)).map fun i => base + i * size)
    rw [hfirst]
    -- the objects before the last one are linked by the loop, the last one is closed by `0`
    refine chain_range (f := fun i => base + i * size) hcap ?_ ?_ ?_
    · intro i hi
      have hne : base + i * size ≠ base + (slabcapacity size - 1) * size := by
        intro heq
        have := Nat.eq_of_mul_eq_mul_right hpos (Nat.add_left_cancel heq)
        omega
      unfold smallSlabMem firstfree
      rw [Function.update_of_ne (hlt i (by omega) 24), Function.update_of_ne hne]
      exact (hlinks _).1 i (by omega)
    · unfold smallSlabMem firstfree
      rw [Function.update_of_ne (hlt _ hlast 24)]
      exact Function.update_self _ _ _
    · intro i hi
      have := Nat.pos_of_ne_zero hbase
      omega
  case small => exact fun _ => ⟨rfl, fun i => rfl⟩
  case large => exact fun hlarge => absurd hsmall (Nat.not_le.mpr hlarge)

/-- `small_slab_new`. -/
theorem smallSlabNew_spec (h : Inv pend held G k) (hsmall : zoneSize k z ≤ kSmallSlabMax)
    (hs : smallSlabNew z k = some (slab, k')) :
    ∃ s, Inv pend held (s :: G) k' ∧ s.zone = z ∧ s.hdr = slab ∧ s.free ≠ [] ∧ Frame z held k k' ∧
      Spares k G (s :: G) := by
  obtain ⟨⟨base, k₁⟩, hkalloc, hs⟩ := Option.bind_eq_some_iff.mp hs
  -- the page is apart from every run that is in use, that is all the model asks of `vm_kalloc`
  obtain ⟨⟨next, rfl⟩, hbase, halign, -, hle, hfresh⟩ := vmKalloc_spec hkalloc
  obtain ⟨zone, hzone, hs⟩ := Option.bind_eq_some_iff.mp hs
  rw [Nat.one_mul] at hle hfresh
  have hzone' : k.zones z = some zone := hzone
  have hsize := zoneSize_of_some hzone'
  dsimp only at hs
  split at hs
  · cases hs
  · rename_i hcap
    cases hs
    have hcap : 0 < slabcapacity zone.size := Nat.pos_of_ne_zero hcap
    have hpos : 0 < zone.size := by
      rcases Nat.eq_zero_or_pos zone.size with hzero | hpos
      · rw [hzero] at hcap
        exact absurd hcap (by decide)
      · exact hpos
    have hsmall : zone.size ≤ kSmallSlabMax := hsize ▸ hsmall
    have hapart : ∀ t ∈ G, Apart (base, pgSize) t.run := fun t ht => hfresh _ (h.run_mem t ht)
    have hout := fun a => smallSlabMem_outside hsmall hpos hcap z base k.mem (a := a)
    have hrun : (smallSlab z zone.size base).run = (base, pgSize) := by
      show (base, slabsize zone.size) = _
      rw [show slabsize zone.size = pgSize from if_pos hsmall]
    refine ⟨smallSlab z zone.size base, ?_, rfl, rfl, ?_, ?_, ?_⟩
    -- the state in the order of the source: the page, its header on the list, the words stored in it
    · have h₁ := ((h.addRun (base, 1 * pgSize) next).insertSlab hzone (smallSlabHdr base)).fresh
        hapart hout
      refine h₁.adopt (smallSlab_ok (h.size_dvd z zone hzone') hsmall hpos hcap z hbase halign hle k.mem)
        rfl ?_ ?_ ?_ ?_
      · rw [hrun]
        exact List.mem_cons_self
      · intro t ht
        rw [hrun]
        exact hapart t ht
      · show ((Function.update k.zones z (some _)) z).elim 0 Zone.size = zone.size
        rw [Function.update_self]
        rfl
      · have hinner : (smallSlab z zone.size base).inner = [] := if_pos hsmall
        rw [hinner]
        exact List.Perm.refl _
    · exact List.ne_nil_of_mem (List.mem_range.mpr hcap)
    · constructor
      case zones => exact fun z' hz => Function.update_of_ne hz _ _
      case sizes =>
        funext z'
        show ((Function.update k.zones z (some _)) z').elim 0 Zone.size = (k.zones z').elim 0 Zone.size
        by_cases hz : z' = z
        · rw [hz, Function.update_self, hzone']
          rfl
        · rw [Function.update_of_ne hz]
      -- every word that is written lies in the new page, which no object in use touches
      case words =>
        intro x hx a ha
        refine hout a fun hmem => ?_
        obtain ⟨t, ht, hwithin⟩ := h.used_within (List.mem_append_right _ (List.mem_map_of_mem hx))
        exact ((hapart t ht).mono ⟨Nat.le_refl _, Nat.le_refl _⟩ hwithin).not_has hmem ha
      case runs => exact fun r hr => List.mem_cons_of_mem _ hr
    · intro r hr hspare t ht
      rcases List.mem_cons.mp ht with rfl | ht
      · rw [hrun]
        exact (hfresh r hr).symm
      · exact hspare t ht

/-! ## Allocation from a slab -/

/-- The objects that callers hold are where they were. -/
theorem words_trans {k₁ k₂ : Allocator} (hsizes : zoneSize k₁ = zoneSize k)
    (h : ∀ x ∈ held, ∀ a, Has (block k x) a → k₁.mem a = k.mem a)
    (h' : ∀ x ∈ held, ∀ a, Has (block k₁ x) a → k₂.mem a = k₁.mem a) :
    ∀ x ∈ held, ∀ a, Has (block k x) a → k₂.mem a = k.mem a := fun x hx a ha => by
  have hblock : block k₁ x = block k x := by rw [block, block, hsizes]
  exact (h' x hx a (hblock ▸ ha)).trans (h x hx a ha)

/-- What two allocations leave. -/
theorem Frame.trans {k₁ k₂ : Allocator} (h : Frame z held k k₁) (h' : Frame z held k₁ k₂) :
    Frame z held k k₂ where
  zones z' hz := (h'.zones z' hz).trans (h.zones z' hz)
  sizes := h'.sizes.trans h.sizes
  words := words_trans h.sizes h.words h'.words
  runs := List.Subset.trans h.runs h'.runs

/-- What an allocation leaves: the objects that callers hold, and the pages that no slab has. -/
structure Leaves (held : List (ZoneId × ℕ)) (G G' : List Slab) (k k' : Allocator) : Prop where
  sizes : zoneSize k' = zoneSize k
  words : ∀ x ∈ held, ∀ a, Has (block k x) a → k'.mem a = k.mem a
  runs : k.runs ⊆ k'.runs
  spares : Spares k G G'

theorem Leaves.trans {G₁ G₂ : List Slab} {k₁ k₂ : Allocator} (h : Leaves held G G₁ k k₁)
    (h' : Leaves held G₁ G₂ k₁ k₂) : Leaves held G G₂ k k₂ where
  sizes := h'.sizes.trans h.sizes
  words := words_trans h.sizes h.words h'.words
  runs := List.Subset.trans h.runs h'.runs
  spares r hr hspare := h'.spares r (h.runs hr) (h.spares r hr hspare)

theorem Frame.leaves {G' : List Slab} (h : Frame z held k k') (hspares : Spares k G G') :
    Leaves held G G' k k' := ⟨h.sizes, h.words, h.runs, hspares⟩

/-- The order of the slabs does not matter. -/
theorem Leaves.of_perm {G' : List Slab} (hperm : G.Perm G') : Leaves held G G' k k :=
  ⟨rfl, fun _ _ _ _ => rfl, fun _ hr => hr, fun _ _ hspare t ht => hspare t (hperm.mem_iff.mpr ht)⟩

/-- What is stored in objects of one caller leaves those of another. -/
theorem Inv.held_ne {own : List (ZoneId × ℕ)} (h : Inv pend (own ++ held) G k) {x y : ZoneId × ℕ}
    (hx : x ∈ own) (hy : y ∈ held) {a c : ℕ} (hc : Has (block k x) c) (ha : Has (block k y) a) :
    a ≠ c := by
  have hapart := (List.pairwise_append.mp h.used_apart).2.1
  rw [List.map_append] at hapart
  have hpair := (List.pairwise_append.mp hapart).2.2 _ (List.mem_map_of_mem hx) _ (List.mem_map_of_mem hy)
  exact hpair.symm.ne ha hc

/-- A header in the queue of a zone with no slab in the making is that of a slab. -/
theorem Inv.slab_of_mem (h : Inv pend held G k) (hpend : ∀ x ∈ pend, x.1 ≠ z)
    (hzone : k.zones z = some zone) (hmem : slab ∈ zone.slablist) :
    ∃ s G', G.Perm (s :: G') ∧ s.zone = z ∧ s.hdr = slab := by
  obtain ⟨x, hx, rfl⟩ := List.mem_map.mp ((h.queue z zone hzone).mem_iff.mp hmem)
  obtain ⟨hx, hz⟩ := List.mem_filter.mp hx
  have hz : x.1 = z := of_decide_eq_true hz
  rcases List.mem_append.mp hx with hx | hx
  · exact absurd hz (hpend x hx)
  · obtain ⟨s, hs, rfl⟩ := List.mem_map.mp hx
    obtain ⟨G₁, G₂, rfl⟩ := List.append_of_mem hs
    exact ⟨s, G₁ ++ G₂, List.perm_middle, hz, rfl⟩

/-- The slab that `kmem_zonealloc` takes an object from has one: it is the first one of the zone or a new
one. -/
theorem slabFor_spec {new : Allocator → Option (ℕ × Allocator)} {R : List Slab → Allocator → Prop}
    (h : Inv pend held G k) (hpend : ∀ x ∈ pend, x.1 ≠ z) (hzone : k.zones z = some zone)
    (hrefl : ∀ G', G.Perm G' → R G' k)
    (hnew : ∀ slab k', new k = some (slab, k') → ∃ s G', Inv pend held (s :: G') k' ∧ s.zone = z ∧
      s.hdr = slab ∧ s.free ≠ [] ∧ R (s :: G') k')
    (hs : slabFor new zone k = some (slab, k')) :
    ∃ s G', Inv pend held (s :: G') k' ∧ s.zone = z ∧ s.hdr = slab ∧ s.free ≠ [] ∧ R (s :: G') k' := by
  unfold slabFor at hs
  split at hs
  · exact hnew slab k' hs
  · rename_i first rest hlist
    split at hs
    · exact hnew slab k' hs
    · rename_i hn
      cases hs
      obtain ⟨s, G', hperm, hz, rfl⟩ := h.slab_of_mem hpend hzone (hlist ▸ List.mem_cons_self)
      have h' := h.perm hperm
      refine ⟨s, G', h', hz, rfl, ?_, hrefl _ hperm⟩
      intro hnil
      rw [(h'.ok s List.mem_cons_self).nfree_eq, hnil] at hn
      exact hn rfl

/-- `kmem_zonealloc` takes an object from the first slab of the zone, or from a new one. -/
theorem kmemZonealloc_eq_some (hs : kmemZonealloc n z k = some (p, k')) :
    ∃ m zone, n = m + 1 ∧ k.zones z = some zone ∧ zoneSize k z = zone.size ∧
      (slabFor (if zone.size ≤ kSmallSlabMax then smallSlabNew z else largeSlabNew (kmemZonealloc m) z)
        zone k).bind (fun x => takeFirst z x.1 x.2) = some (p, k') := by
  cases n with
  | zero => cases hs
  | succ m =>
      obtain ⟨zone, hzone, hs⟩ := Option.bind_eq_some_iff.mp hs
      exact ⟨m, zone, rfl, hzone, zoneSize_of_some hzone, hs⟩

/-- `kmem_zonealloc` from a zone of small objects. -/
theorem kmemZonealloc_small (h : Inv pend held G k) (hpend : ∀ x ∈ pend, x.1 ≠ z)
    (hsmall : zoneSize k z ≤ kSmallSlabMax) (hs : kmemZonealloc n z k = some (p, k')) :
    ∃ G', Inv pend ((z, p) :: held) G' k' ∧ Frame z held k k' ∧ Spares k G G' ∧ Stays z G G' := by
  obtain ⟨m, zone, rfl, hzone, hsize, hs⟩ := kmemZonealloc_eq_some hs
  rw [if_pos (hsize ▸ hsmall)] at hs
  obtain ⟨⟨slab, k₁⟩, hslab, hs⟩ := Option.bind_eq_some_iff.mp hs
  obtain ⟨s, G', hinv, rfl, rfl, hfree, hframe, hspares, hstays⟩ := slabFor_spec
    (R := fun G' k' => Frame z held k k' ∧ Spares k G G' ∧ Stays z G G') h hpend hzone
    (fun G' hperm => ⟨⟨fun _ _ => rfl, rfl, fun _ _ _ _ => rfl, fun _ hr => hr⟩,
      fun r _ hr t ht => hr t (hperm.mem_iff.mpr ht), fun t ht _ => hperm.mem_iff.mp ht⟩)
    (fun slab k' hnew => by
      obtain ⟨s, hinv, hz, hhdr, hfree, hframe, hspares⟩ := smallSlabNew_spec h hsmall hnew
      exact ⟨s, G, hinv, hz, hhdr, hfree, hframe, hspares, fun t ht _ => List.mem_cons_of_mem _ ht⟩) hslab
  obtain ⟨i, rest, hcons⟩ := List.exists_cons_of_ne_nil hfree
  obtain ⟨zone₁, hzone₁⟩ := hinv.zone_exists List.mem_cons_self
  obtain ⟨-, hinv', hframe'⟩ := takeFirst_spec hinv hcons hzone₁ hs
  exact ⟨_, hinv', hframe.trans hframe', fun r hr hspare =>
    spares_withFree s rest G' r (hframe.runs hr) (hspares r hr hspare),
    hstays.trans (stays_withFree s rest G')⟩

/-! ## Large slabs -/

/-- What the memory holds of a large slab of which `n` bufctls have been made. -/
structure Fields (mem : ℕ → ℕ) (slab data size cap n : ℕ) (ctl : ℕ → ℕ) : Prop where
  count : mem (nfree slab) = cap
  data_eq : mem (slabData slab) = data
  first : 0 < n → mem (firstfree slab) = ctl 0
  link : ∀ j, j + 1 < n → mem (ctl j) = ctl (j + 1)
  fields : ∀ j < n, mem (ctlSlab (ctl j)) = slab ∧ mem (ctlBase (ctl j)) = data + size * j

/-- The header and the bufctls are apart. -/
structure FieldsApart (slab n : ℕ) (ctl : ℕ → ℕ) : Prop where
  hdr : ∀ j < n, ∀ o < sizeofBufctl, ∀ o' < sizeofSlab + 8, ctl j + o ≠ slab + o'
  ctl : ∀ i < n, ∀ j < n, i ≠ j → ∀ o < sizeofBufctl, ∀ o' < sizeofBufctl, ctl i + o ≠ ctl j + o'

variable {data size cap : ℕ} {ctl ctl' : ℕ → ℕ}

/-- They depend only on the header and the bufctls. -/
theorem Fields.congr (h : Fields mem slab data size cap n ctl)
    (hhdr : ∀ o < sizeofSlab + 8, mem' (slab + o) = mem (slab + o))
    (hctl : ∀ j < n, ∀ o < sizeofBufctl, mem' (ctl j + o) = mem (ctl j + o)) :
    Fields mem' slab data size cap n ctl where
  count := (hhdr 16 (by decide)).trans h.count
  data_eq := (hhdr 32 (by decide)).trans h.data_eq
  first hn := (hhdr 24 (by decide)).trans (h.first hn)
  link j hj := (hctl j (by omega) 0 (by decide)).trans (h.link j hj)
  fields j hj := ⟨(hctl j hj 8 (by decide)).trans (h.fields j hj).1,
    (hctl j hj 16 (by decide)).trans (h.fields j hj).2⟩

/-- The word that `large_slab_new` links a new bufctl from. -/
def linkFrom (slab n : ℕ) (ctl : ℕ → ℕ) : ℕ := if n = 0 then firstfree slab else ctl (n - 1)

/-- A new bufctl is set up and linked. -/
theorem Fields.add (h : Fields mem slab data size cap n ctl) (ha : FieldsApart slab (n + 1) ctl) :
    Fields (Function.update (Function.update (Function.update mem (ctlSlab (ctl n)) slab)
      (ctlBase (ctl n)) (data + size * n)) (linkFrom slab n ctl) (ctl n)) slab data size cap (n + 1)
      ctl := by
  -- the words that keep their values: not in the new bufctl and not the link to it
  have hkeep : ∀ a, (∀ o < sizeofBufctl, a ≠ ctl n + o) → a ≠ linkFrom slab n ctl →
      Function.update (Function.update (Function.update mem (ctlSlab (ctl n)) slab)
        (ctlBase (ctl n)) (data + size * n)) (linkFrom slab n ctl) (ctl n) a = mem a := by
    intro a hnew hlink
    exact (Function.update_of_ne hlink _ _).trans ((Function.update_of_ne (hnew 16 (by decide)) _ _).trans
      (Function.update_of_ne (hnew 8 (by decide)) _ _))
  have hlast : n < n + 1 := Nat.lt_succ_self n
  have hhdr : ∀ o' < sizeofSlab + 8, o' ≠ 24 → slab + o' ≠ linkFrom slab n ctl := by
    intro o' ho' hne
    unfold linkFrom firstfree
    split
    · omega
    · exact (ha.hdr (n - 1) (by omega) 0 (by decide) o' ho').symm
  have hctl : ∀ j < n + 1, ∀ o < sizeofBufctl, (o ≠ 0 ∨ j + 1 ≠ n) → ctl j + o ≠ linkFrom slab n ctl := by
    intro j hj o ho hne
    unfold linkFrom
    split
    · exact ha.hdr j hj o ho 24 (by decide)
    · by_cases hjn : j = n - 1
      · have : o ≠ 0 := hne.resolve_right (by omega)
        subst hjn
        omega
      · exact ha.ctl j hj (n - 1) (by omega) hjn o ho 0 (by decide)
  constructor
  case count =>
    refine (hkeep _ ?_ (hhdr 16 (by decide) (by decide))).trans h.count
    exact fun o ho => (ha.hdr n hlast o ho 16 (by decide)).symm
  case data_eq =>
    refine (hkeep _ ?_ (hhdr 32 (by decide) (by decide))).trans h.data_eq
    exact fun o ho => (ha.hdr n hlast o ho 32 (by decide)).symm
  case first =>
    intro _
    by_cases hn : n = 0
    · have hlink : linkFrom slab n ctl = firstfree slab := if_pos hn
      rw [← hlink, Function.update_self, hn]
    · refine (hkeep _ ?_ ?_).trans (h.first (Nat.pos_of_ne_zero hn))
      · exact fun o ho => (ha.hdr n hlast o ho 24 (by decide)).symm
      · unfold linkFrom
        rw [if_neg hn]
        exact (ha.hdr (n - 1) (by omega) 0 (by decide) 24 (by decide)).symm
  case link =>
    intro j hj
    by_cases hjn : j + 1 = n
    · have hlink : linkFrom slab n ctl = ctl j := by
        unfold linkFrom
        rw [if_neg (by omega), ← hjn, Nat.add_sub_cancel]
      rw [hlink, Function.update_self, hjn]
    · refine (hkeep _ ?_ (hctl j (by omega) 0 (by decide) (.inr hjn))).trans (h.link j (by omega))
      exact fun o ho => ha.ctl j (by omega) n hlast (by omega) 0 (by decide) o ho
  case fields =>
    intro j hj
    by_cases hjn : j = n
    · subst hjn
      constructor
      · refine (Function.update_of_ne (hctl j hj 8 (by decide) (.inl (by decide))) _ _).trans ?_
        refine (Function.update_of_ne ?_ _ _).trans (Function.update_self _ _ _)
        show ctl j + 8 ≠ ctl j + 16
        omega
      · exact (Function.update_of_ne (hctl j hj 16 (by decide) (.inl (by decide))) _ _).trans
          (Function.update_self _ _ _)
    · have hnew : ∀ o < sizeofBufctl, ∀ o' < sizeofBufctl, ctl j + o ≠ ctl n + o' :=
        ha.ctl j hj n hlast hjn
      have hj' : j < n := by omega
      exact ⟨(hkeep _ (hnew 8 (by decide)) (hctl j hj 8 (by decide) (.inl (by decide)))).trans
          (h.fields j hj').1,
        (hkeep _ (hnew 16 (by decide)) (hctl j hj 16 (by decide) (.inl (by decide)))).trans
          (h.fields j hj').2⟩

/-- The objects that `large_slab_new` holds: bufctls and the header. -/
def making (slab n : ℕ) (ctl : ℕ → ℕ) : List (ZoneId × ℕ) :=
  (List.range n).map (fun j => (kmemBufctl, ctl j)) ++ [(kmemSlab, slab)]

/-- The order of the objects that callers hold does not matter. -/
theorem Inv.perm_held {held' : List (ZoneId × ℕ)} (h : Inv pend held G k) (hp : held.Perm held') :
    Inv pend held' G k :=
  { h with owned := h.owned.trans (hp.append_right _) }

/-- The objects that callers hold are apart. -/
theorem Inv.making_apart (h : Inv pend (making slab n ctl ++ held) G k) : FieldsApart slab n ctl := by
  -- the control blocks and the header under construction are blocks in use, and those are apart
  have hapart := (List.pairwise_append.mp h.used_apart).2.1
  rw [List.map_append] at hapart
  have hapart := (List.pairwise_append.mp hapart).1
  unfold making at hapart
  rw [List.map_append, List.map_map] at hapart
  obtain ⟨hctls, -, hhdr⟩ := List.pairwise_append.mp hapart
  have hctls := List.pairwise_map.mp hctls
  have hblock : ∀ a, block k (kmemBufctl, a) = (a, sizeofBufctl) := fun a => by
    rw [block, h.bufctl_size]
  have hblock' : block k (kmemSlab, slab) = (slab, sizeofSlab + 8) := by
    rw [block, h.slab_size]
  constructor
  case hdr =>
    intro j hj o ho o' ho'
    have hpair := hhdr _ (List.mem_map.mpr ⟨j, List.mem_range.mpr hj, rfl⟩) _ List.mem_cons_self
    rw [hblock', Function.comp_apply, hblock] at hpair
    exact hpair.ne ⟨Nat.le_add_right _ _, Nat.add_lt_add_left ho _⟩
      ⟨Nat.le_add_right _ _, Nat.add_lt_add_left ho' _⟩
  case ctl =>
    intro i hi j hj hij o ho o' ho'
    have hsymm : Std.Symm fun a b => Apart ((block k ∘ fun j => (kmemBufctl, ctl j)) a)
        ((block k ∘ fun j => (kmemBufctl, ctl j)) b) := ⟨fun _ _ h => h.symm⟩
    have hpair := hctls.forall (List.mem_range.mpr hi) (List.mem_range.mpr hj) hij
    rw [Function.comp_apply, Function.comp_apply, hblock, hblock] at hpair
    exact hpair.ne ⟨Nat.le_add_right _ _, Nat.add_lt_add_left ho _⟩
      ⟨Nat.le_add_right _ _, Nat.add_lt_add_left ho' _⟩

/-- The loop of `large_slab_new` after `n` iterations. -/
structure Making (pend held : List (ZoneId × ℕ)) (z : ZoneId) (zone : Zone) (slab data n : ℕ)
    (ctl : ℕ → ℕ) (G : List Slab) (x : Option ℕ × Allocator) : Prop where
  inv : Inv ((z, slab) :: pend) (making slab n ctl ++ held) G x.2
  zone_eq : x.2.zones z = some zone
  run_mem : (data, slabsize zone.size) ∈ x.2.runs
  spare : ∀ t ∈ G, Apart (data, slabsize zone.size) t.run
  prev : x.1 = if n = 0 then none else some (ctl (n - 1))
  fields : Fields x.2.mem slab data zone.size (slabcapacity zone.size) n ctl

/-- The word of an object that `large_slab_new` holds. -/
theorem Inv.making_has (h : Inv pend (making slab n ctl ++ held) G k) :
    (∀ o < sizeofSlab + 8, ∃ x ∈ making slab n ctl, Has (block k x) (slab + o)) ∧
      ∀ j < n, ∀ o < sizeofBufctl, ∃ x ∈ making slab n ctl, Has (block k x) (ctl j + o) := by
  refine ⟨fun o ho => ⟨(kmemSlab, slab), ?_, Nat.le_add_right _ _, ?_⟩, fun j hj o ho =>
    ⟨(kmemBufctl, ctl j), ?_, Nat.le_add_right _ _, ?_⟩⟩
  · exact List.mem_append_right _ List.mem_cons_self
  · show slab + o < slab + zoneSize k kmemSlab
    rw [h.slab_size]
    exact Nat.add_lt_add_left ho _
  · exact List.mem_append_left _ (List.mem_map.mpr ⟨j, List.mem_range.mpr hj, rfl⟩)
  · show ctl j + o < ctl j + zoneSize k kmemBufctl
    rw [h.bufctl_size]
    exact Nat.add_lt_add_left ho _

/-- A bufctl more. -/
theorem making_succ (slab n entry : ℕ) (ctl : ℕ → ℕ) :
    ((kmemBufctl, entry) :: making slab n ctl).Perm
      (making slab (n + 1) (Function.update ctl n entry)) := by
  unfold making
  rw [List.range_succ, List.map_append]
  have hsame : (List.range n).map (fun j => (kmemBufctl, Function.update ctl n entry j))
      = (List.range n).map fun j => (kmemBufctl, ctl j) :=
    List.map_congr_left fun j hj => by
      rw [Function.update_of_ne (Nat.ne_of_lt (List.mem_range.mp hj))]
  rw [hsame, List.map_singleton, Function.update_self, List.append_assoc]
  exact List.perm_middle.symm

/-- They depend only on the bufctls that have been made. -/
theorem Fields.congr_ctl (h : Fields mem slab data size cap n ctl) (hctl : ∀ j < n, ctl' j = ctl j) :
    Fields mem slab data size cap n ctl' where
  count := h.count
  data_eq := h.data_eq
  first hn := (h.first hn).trans (hctl 0 hn).symm
  link j hj := by
    rw [hctl j (by omega), hctl (j + 1) hj]
    exact h.link j hj
  fields j hj := by
    rw [hctl j hj]
    exact h.fields j hj

/-- A new bufctl, with the number `n`, is set up and linked. -/
def linkBufctl (slab data size n : ℕ) (ctl : ℕ → ℕ) (k : Allocator) : Allocator :=
  store (store (store k (ctlSlab (ctl n)) slab) (ctlBase (ctl n)) (data + size * n))
    (linkFrom slab n ctl) (ctl n)

/-- The body of the loop of `large_slab_new`. -/
theorem newBufctl_eq {zonealloc : ZoneId → Allocator → Option (ℕ × Allocator)} {x y : Option ℕ × Allocator}
    (hprev : x.1 = if n = 0 then none else some (ctl (n - 1)))
    (hs : newBufctl zonealloc slab data size x n = some y) :
    ∃ entry k₁, zonealloc kmemBufctl x.2 = some (entry, k₁) ∧
      y = (some entry, linkBufctl slab data size n (Function.update ctl n entry) k₁) := by
  obtain ⟨⟨entry, k₁⟩, halloc, hrest⟩ := Option.bind_eq_some_iff.mp hs
  refine ⟨entry, k₁, halloc, ?_⟩
  unfold linkBufctl linkFrom
  rw [Function.update_self]
  dsimp only at hrest
  rw [hprev] at hrest
  by_cases hn : n = 0
  · rw [if_pos hn] at hrest ⊢
    exact (Option.some.inj hrest).symm
  · rw [if_neg hn] at hrest ⊢
    rw [Function.update_of_ne (by omega)]
    exact (Option.some.inj hrest).symm

/-- The words that are stored then are in objects that `large_slab_new` holds. -/
theorem Inv.linkBufctl_has (h : Inv pend (making slab (n + 1) ctl ++ held) G k) :
    ∀ a ∈ [ctlSlab (ctl n), ctlBase (ctl n), linkFrom slab n ctl],
      ∃ w ∈ making slab (n + 1) ctl, Has (block k w) a := by
  obtain ⟨hhdr, hctl⟩ := h.making_has
  intro a ha
  simp only [List.mem_cons, List.not_mem_nil, or_false] at ha
  rcases ha with rfl | rfl | rfl
  · exact hctl n (Nat.lt_succ_self n) 8 (by decide)
  · exact hctl n (Nat.lt_succ_self n) 16 (by decide)
  · unfold linkFrom
    split
    · exact hhdr 24 (by decide)
    · exact hctl (n - 1) (by omega) 0 (by decide)

/-- Linking a bufctl leaves all other words. -/
theorem linkBufctl_mem {a : ℕ} (ha : a ∉ [ctlSlab (ctl n), ctlBase (ctl n), linkFrom slab n ctl]) :
    (linkBufctl slab data size n ctl k).mem a = k.mem a := by
  simp only [List.mem_cons, List.not_mem_nil, or_false, not_or] at ha
  exact (Function.update_of_ne ha.2.2 _ _).trans ((Function.update_of_ne ha.2.1 _ _).trans
    (Function.update_of_ne ha.1 _ _))

/-- The allocation of a bufctl. -/
theorem Making.alloc {x : Option ℕ × Allocator} {k₁ : Allocator} {depth entry : ℕ}
    (h : Making pend held z zone slab data n ctl G x) (hz : z ≠ kmemBufctl)
    (hpend : ∀ w ∈ pend, w.1 ≠ kmemBufctl)
    (halloc : kmemZonealloc depth kmemBufctl x.2 = some (entry, k₁)) :
    ∃ G', Inv ((z, slab) :: pend) (making slab (n + 1) (Function.update ctl n entry) ++ held) G' k₁ ∧
      Fields k₁.mem slab data zone.size (slabcapacity zone.size) n (Function.update ctl n entry) ∧
      Frame kmemBufctl (making slab n ctl ++ held) x.2 k₁ ∧ Spares x.2 G G' ∧ Stays kmemBufctl G G' := by
  cases depth with
  | zero => cases halloc
  | succ depth =>
      have hpend' : ∀ w ∈ (z, slab) :: pend, w.1 ≠ kmemBufctl := by
        intro w hw
        rcases List.mem_cons.mp hw with rfl | hw
        · exact hz
        · exact hpend w hw
      have hsmall : zoneSize x.2 kmemBufctl ≤ kSmallSlabMax := by
        rw [h.inv.bufctl_size]
        decide
      obtain ⟨G', hinv, hframe, hspares, hstays⟩ := kmemZonealloc_small h.inv hpend' hsmall halloc
      refine ⟨G', hinv.perm_held ((making_succ slab n entry ctl).append_right held), ?_, hframe, hspares,
        hstays⟩
      -- the allocation has left the header and the bufctls as they were
      obtain ⟨hhdr, hctl⟩ := h.inv.making_has
      refine (h.fields.congr ?_ ?_).congr_ctl fun j hj => Function.update_of_ne (Nat.ne_of_lt hj) _ _
      · intro o ho
        obtain ⟨w, hw, hhas⟩ := hhdr o ho
        exact hframe.words w (List.mem_append_left _ hw) _ hhas
      · intro j hj o ho
        obtain ⟨w, hw, hhas⟩ := hctl j hj o ho
        exact hframe.words w (List.mem_append_left _ hw) _ hhas

/-- One iteration of the loop. -/
theorem Making.step {x y : Option ℕ × Allocator} {depth : ℕ}
    (h : Making pend held z zone slab data n ctl G x) (hz : z ≠ kmemBufctl)
    (hpend : ∀ w ∈ pend, w.1 ≠ kmemBufctl)
    (hs : newBufctl (kmemZonealloc depth) slab data zone.size x n = some y) :
    ∃ ctl' G', Making pend held z zone slab data (n + 1) ctl' G' y ∧ Leaves held G G' x.2 y.2 ∧
      Stays kmemBufctl G G' := by
  obtain ⟨entry, k₁, halloc, rfl⟩ := newBufctl_eq h.prev hs
  obtain ⟨G', hinv, hfields, hframe, hspares, hstays⟩ := h.alloc hz hpend halloc
  have hhas := hinv.linkBufctl_has
  obtain ⟨w₁, hw₁, hhas₁⟩ := hhas _ List.mem_cons_self
  obtain ⟨w₂, hw₂, hhas₂⟩ := hhas _ (List.mem_cons_of_mem _ List.mem_cons_self)
  obtain ⟨w₃, hw₃, hhas₃⟩ := hhas _ (List.mem_cons_of_mem _ (List.mem_cons_of_mem _ List.mem_cons_self))
  -- the three stores of the loop body go to the bufctl just taken
  have hstore := ((hinv.write (List.mem_append_left _ hw₁) hhas₁ slab).write
    (List.mem_append_left _ hw₂) hhas₂ (data + zone.size * n)).write (List.mem_append_left _ hw₃) hhas₃
      (Function.update ctl n entry n)
  refine ⟨Function.update ctl n entry, G', ⟨hstore, ?_, ?_, ?_, ?_, hfields.add hinv.making_apart⟩,
    ⟨hframe.sizes, ?_, hframe.runs, hspares⟩, hstays⟩
  · exact (hframe.zones z hz).trans h.zone_eq
  · exact hframe.runs h.run_mem
  · exact hspares _ h.run_mem h.spare
  · rw [if_neg (Nat.succ_ne_zero n), Nat.add_sub_cancel, Function.update_self]
  -- what is held otherwise keeps its words: no store hits another block
  · intro x' hx' a ha
    have ha₁ : Has (block k₁ x') a := by
      rw [block, hframe.sizes]
      exact ha
    refine (linkBufctl_mem fun hmem => ?_).trans (hframe.words x' (List.mem_append_right _ hx') a ha)
    obtain ⟨w, hw, hhas⟩ := hhas a hmem
    exact hinv.held_ne hw hx' hhas ha₁ rfl

/-- The loop of `large_slab_new`. -/
theorem Making.loop {x y : Option ℕ × Allocator} {depth : ℕ}
    (h : Making pend held z zone slab data 0 ctl G x) (hz : z ≠ kmemBufctl)
    (hpend : ∀ w ∈ pend, w.1 ≠ kmemBufctl)
    (hs : (List.range n).foldlM (newBufctl (kmemZonealloc depth) slab data zone.size) x = some y) :
    ∃ ctl' G', Making pend held z zone slab data n ctl' G' y ∧ Leaves held G G' x.2 y.2 ∧
      Stays kmemBufctl G G' := by
  induction n generalizing y with
  | zero =>
      cases hs
      exact ⟨ctl, G, h, .of_perm (.refl G), fun t ht _ => ht⟩
  | succ n ih =>
      rw [List.range_succ, List.foldlM_append] at hs
      obtain ⟨x', hx', hs⟩ := Option.bind_eq_some_iff.mp hs
      obtain ⟨ctl', G', h', hleaves, hstays⟩ := ih hx'
      obtain ⟨y', hy', hs⟩ := Option.bind_eq_some_iff.mp hs
      cases hs
      obtain ⟨ctl'', G'', h'', hleaves', hstays'⟩ := h'.step hz hpend hy'
      exact ⟨ctl'', G'', h'', hleaves.trans hleaves', hstays.trans hstays'⟩

/-- An object that a caller holds is not at the null address. -/
theorem Inv.held_ne_zero (h : Inv pend held G k) {x : ZoneId × ℕ} (hx : x ∈ held) : x.2 ≠ 0 := by
  obtain ⟨s, hs, hle, -⟩ := h.used_within (List.mem_append_right _ (List.mem_map_of_mem hx))
  exact Nat.ne_of_gt (Nat.lt_of_lt_of_le (h.ok s hs).data_pos hle)

/-- A large slab is a number of pages. -/
theorem slabsize_pages {size : ℕ} (hlarge : kSmallSlabMax < size) :
    slabsize size / pgSize * pgSize = slabsize size := by
  unfold slabsize
  rw [if_neg (Nat.not_le.mpr hlarge)]
  unfold pgSize
  rw [pgRoundUp_eq, Nat.mul_div_cancel _ (by decide)]

/-- The end of `large_slab_new`: the last bufctl is linked to none. -/
theorem Making.finish {x : Option ℕ × Allocator}
    (h : Making pend held z zone slab data (slabcapacity zone.size) ctl G x)
    (hcap : 0 < slabcapacity zone.size) (hlarge : kSmallSlabMax < zone.size) (hdata : data ≠ 0)
    (halign : pgSize ∣ data) (hle : data + slabsize zone.size ≤ 2 ^ 64) :
    Inv pend held (⟨z, zone.size, slab, data, ctl, List.range (slabcapacity zone.size)⟩ :: G)
      (store x.2 (ctl (slabcapacity zone.size - 1)) 0) := by
  have hlast : slabcapacity zone.size - 1 < slabcapacity zone.size := by omega
  have happart := h.inv.making_apart
  obtain ⟨w, hw, hhas⟩ := h.inv.making_has.2 _ hlast 0 (by decide)
  -- the store that ends the list, the last thing that `largeslab_new` does
  have hinv := h.inv.write (List.mem_append_left _ hw) hhas 0
  -- it is the only word that changes, so the fields of the loop are read through it
  have hkeep : ∀ a, a ≠ ctl (slabcapacity zone.size - 1) →
      (store x.2 (ctl (slabcapacity zone.size - 1)) 0).mem a = x.2.mem a :=
    fun a ha => Function.update_of_ne ha _ _
  have hhdr : ∀ o < sizeofSlab + 8, slab + o ≠ ctl (slabcapacity zone.size - 1) :=
    fun o ho => (happart.hdr _ hlast 0 (by decide) o ho).symm
  have hlarge' : ¬ zone.size ≤ kSmallSlabMax := Nat.not_le.mpr hlarge
  refine hinv.adopt ?_ rfl h.run_mem h.spare ?_ ?_
  · constructor
    case size_dvd => exact h.inv.size_dvd z zone h.zone_eq
    case cap_pos => exact hcap
    case free_nodup => exact List.nodup_range
    case free_lt => exact fun i hi => List.mem_range.mp hi
    case data_pos => exact Nat.pos_of_ne_zero hdata
    case data_dvd => exact halign
    case data_le => exact hle
    case nfree_eq =>
      refine (hkeep _ (hhdr 16 (by decide))).trans (h.fields.count.trans ?_)
      exact List.length_range.symm
    case chain =>
      have hfirst := (hkeep _ (hhdr 24 (by decide))).trans (h.fields.first hcap)
      show Chain _ ((store x.2 (ctl (slabcapacity zone.size - 1)) 0).mem (slab + 24))
        ((List.range (slabcapacity zone.size)).map ctl)
      rw [hfirst]
      refine chain_range hcap ?_ (Function.update_self _ _ _) ?_
      · intro j hj
        refine (hkeep _ ?_).trans (h.fields.link j hj)
        exact happart.ctl j (by omega) _ hlast (by omega) 0 (by decide) 0 (by decide)
      · intro j hj
        have hmem : (kmemBufctl, ctl j) ∈ making slab (slabcapacity zone.size) ctl ++ held :=
          List.mem_append_left _ (List.mem_append_left _
            (List.mem_map.mpr ⟨j, List.mem_range.mpr hj, rfl⟩))
        exact h.inv.held_ne_zero hmem
    case small => exact fun hsmall => absurd hsmall hlarge'
    -- a `bufctl` has its `base` and `slab` fields behind the link that the store changes
    case large =>
      intro _
      refine ⟨(hkeep _ (hhdr 32 (by decide))).trans h.fields.data_eq, fun j hj => ?_⟩
      have hctl : ∀ o < sizeofBufctl, 0 < o → ctl j + o ≠ ctl (slabcapacity zone.size - 1) := by
        intro o ho hpos
        by_cases hjn : j = slabcapacity zone.size - 1
        · subst hjn
          omega
        · exact happart.ctl j hj _ hlast hjn o ho 0 (by decide)
      obtain ⟨hslab, hbase⟩ := h.fields.fields j hj
      refine ⟨(hkeep _ (hctl 8 (by decide) (by decide))).trans hslab,
        (hkeep _ (hctl 16 (by decide) (by decide))).trans (hbase.trans ?_)⟩
      show data + zone.size * j = data + j * zone.size
      rw [Nat.mul_comm]
  · show (x.2.zones z).elim 0 Zone.size = zone.size
    rw [h.zone_eq]
    rfl
  · refine List.Perm.append_right _ ?_
    -- header and `bufctl`s, counted by the invariant of the loop in the other order
    unfold Slab.inner making
    rw [if_neg hlarge']
    exact List.perm_append_comm

/-- `large_slab_new` before its loop: the header is in the queue, and the pages are allocated. -/
def startMaking (z : ZoneId) (zone : Zone) (slab data : ℕ) (next : List ℕ) (k : Allocator) : Allocator :=
  store { store (store (insertSlab z zone slab k) (slabZone slab) z) (nfree slab)
    (slabcapacity zone.size) with
    runs := (data, slabsize zone.size / pgSize * pgSize) :: k.runs, next := next } (slabData slab) data

/-- The loop of `large_slab_new` before its first iteration. -/
theorem Inv.startMaking {next : List ℕ} (h : Inv pend ((kmemSlab, slab) :: held) G k)
    (hzone : k.zones z = some zone) (hlarge : kSmallSlabMax < zone.size)
    (hfresh : ∀ r ∈ k.runs, Apart (data, slabsize zone.size) r) :
    Making pend held z { zone with slablist := slab :: zone.slablist } slab data 0 (fun _ => 0) G
        (none, Kmem.startMaking z zone slab data next k) ∧
      Leaves held G G k (Kmem.startMaking z zone slab data next k) := by
  have hins : Inv ((z, slab) :: pend) ((kmemSlab, slab) :: held) G (Kmem.insertSlab z zone slab k) :=
    h.insertSlab hzone slab
  have hhas : ∀ o < sizeofSlab + 8, Has (block k (kmemSlab, slab)) (slab + o) := by
    intro o ho
    refine ⟨Nat.le_add_right _ _, ?_⟩
    rw [block, h.slab_size]
    exact Nat.add_lt_add_left ho _
  have hsizes : zoneSize (Kmem.insertSlab z zone slab k) = zoneSize k := by
    funext z'
    show ((Function.update k.zones z (some _)) z').elim 0 Zone.size = (k.zones z').elim 0 Zone.size
    by_cases hz : z' = z
    · rw [hz, Function.update_self, hzone]
      rfl
    · rw [Function.update_of_ne hz]
  have hhas' : ∀ o < sizeofSlab + 8, Has (block (Kmem.insertSlab z zone slab k) (kmemSlab, slab)) (slab + o) := by
    intro o ho
    rw [block, hsizes]
    exact hhas o ho
  -- `zone`, `nfree`, the run of the data and `data` are stored in turn, each one inside the header
  have hwrite := ((((hins.write List.mem_cons_self (hhas' 8 (by decide)) z).write
    List.mem_cons_self (hhas' 16 (by decide)) (slabcapacity zone.size)).addRun
      (data, slabsize zone.size / pgSize * pgSize) next).write List.mem_cons_self
      (hhas' 32 (by decide)) data)
  have hpages := slabsize_pages hlarge
  refine ⟨⟨hwrite, Function.update_self _ _ _, ?_, ?_, rfl, ?_⟩, hsizes, ?_, ?_, ?_⟩
  · show (data, slabsize zone.size) ∈ (data, slabsize zone.size / pgSize * pgSize) :: k.runs
    rw [hpages]
    exact List.mem_cons_self
  · exact fun t ht => hfresh _ (h.run_mem t ht)
  · constructor
    case count =>
      refine (Function.update_of_ne ?_ _ _).trans (Function.update_self _ _ _)
      show slab + 16 ≠ slab + 32
      omega
    case data_eq => exact Function.update_self _ _ _
    -- no `bufctl` is made yet: the three fields about them hold of the empty range
    case first => simp
    case link => simp
    case fields => simp
  · -- the words that are stored are in the header
    intro x hx a ha
    have hown : Inv pend ([(kmemSlab, slab)] ++ held) G k := h
    have hne : ∀ o < sizeofSlab + 8, a ≠ slab + o := fun o ho =>
      hown.held_ne List.mem_cons_self hx (hhas o ho) ha
    exact (Function.update_of_ne (hne 32 (by decide)) _ _).trans
      ((Function.update_of_ne (hne 16 (by decide)) _ _).trans
        (Function.update_of_ne (hne 8 (by decide)) _ _))
  · exact fun r hr => List.mem_cons_of_mem _ hr
  · exact fun r _ hspare => hspare

/-- A zone of large objects is neither that of the headers nor that of the bufctls. -/
theorem Inv.ne_of_large (h : Inv pend held G k) (hlarge : kSmallSlabMax < zoneSize k z) :
    z ≠ kmemSlab ∧ z ≠ kmemBufctl := by
  constructor <;> rintro rfl
  · rw [h.slab_size] at hlarge
    exact absurd hlarge (by decide)
  · rw [h.bufctl_size] at hlarge
    exact absurd hlarge (by decide)

/-- `large_slab_new` up to its loop. -/
theorem largeSlabNew_start {depth : ℕ} (h : Inv pend held G k) (hlarge : kSmallSlabMax < zoneSize k z)
    (hpend : ∀ w ∈ pend, w.1 ≠ kmemSlab) {k₁ k₂ : Allocator} (halloc : kmemZonealloc depth kmemSlab k = some (slab, k₁))
    (hzone : k₁.zones z = some zone)
    (hkalloc : vmKalloc (slabsize zone.size / pgSize) (store (store (insertSlab z zone slab k₁)
      (slabZone slab) z) (nfree slab) (slabcapacity zone.size)) = some (data, k₂)) :
    ∃ G₁ next, store k₂ (slabData slab) data = Kmem.startMaking z zone slab data next k₁ ∧
      Making pend held z { zone with slablist := slab :: zone.slablist } slab data 0 (fun _ => 0) G₁
        (none, store k₂ (slabData slab) data) ∧
      Leaves held G G₁ k (store k₂ (slabData slab) data) ∧ Stays kmemSlab G G₁ ∧
      kSmallSlabMax < zone.size ∧ data ≠ 0 ∧ pgSize ∣ data ∧ data + slabsize zone.size ≤ 2 ^ 64 ∧
      ∀ r ∈ k.runs, Apart (data, slabsize zone.size) r := by
  -- the header comes from the small zone of slabs, the objects from fresh pages
  cases depth with
  | zero => cases halloc
  | succ depth =>
      have hsmall : zoneSize k kmemSlab ≤ kSmallSlabMax := by
        rw [h.slab_size]
        decide
      obtain ⟨G₁, hinv, hframe, hspares, hstays⟩ := kmemZonealloc_small h hpend hsmall halloc
      have hsize : zoneSize k z = zone.size := by rw [← hframe.sizes, zoneSize_of_some hzone]
      have hlarge : kSmallSlabMax < zone.size := hsize ▸ hlarge
      obtain ⟨⟨next, rfl⟩, hdata, halign, -, hle, hfresh⟩ := vmKalloc_spec hkalloc
      rw [slabsize_pages hlarge] at hle hfresh
      obtain ⟨hmaking, hleaves⟩ := hinv.startMaking hzone hlarge hfresh
      exact ⟨G₁, next, rfl, hmaking, (hframe.leaves hspares).trans hleaves, hstays, hlarge, hdata, halign,
        hle, fun r hr => hfresh r (hframe.runs hr)⟩

/-- `large_slab_new` makes the bufctls of a slab, at least one, and ends their list. -/
theorem largeSlabNew_eq_some {zonealloc : ZoneId → Allocator → Option (ℕ × Allocator)}
    (hs : largeSlabNew zonealloc z k = some (slab, k')) :
    ∃ k₁ zone data k₂ entry k₃, zonealloc kmemSlab k = some (slab, k₁) ∧ k₁.zones z = some zone ∧
      vmKalloc (slabsize zone.size / pgSize) (store (store (insertSlab z zone slab k₁) (slabZone slab) z)
        (nfree slab) (slabcapacity zone.size)) = some (data, k₂) ∧
      0 < slabcapacity zone.size ∧
      (List.range (slabcapacity zone.size)).foldlM (newBufctl zonealloc slab data zone.size)
        (none, store k₂ (slabData slab) data) = some (some entry, k₃) ∧
      k' = store k₃ (sleNext entry) 0 := by
  obtain ⟨⟨slab, k₁⟩, halloc, hs⟩ := Option.bind_eq_some_iff.mp hs
  obtain ⟨zone, hzone, hs⟩ := Option.bind_eq_some_iff.mp hs
  obtain ⟨⟨data, k₂⟩, hkalloc, hs⟩ := Option.bind_eq_some_iff.mp hs
  dsimp only at hs
  obtain ⟨⟨last, k₃⟩, hloop, hs⟩ := Option.bind_eq_some_iff.mp hs
  obtain ⟨entry, rfl, hs⟩ := Option.bind_eq_some_iff.mp hs
  cases hs
  refine ⟨k₁, zone, data, k₂, entry, k₃, halloc, hzone, hkalloc, ?_, hloop, rfl⟩
  refine Nat.pos_of_ne_zero fun hzero => ?_
  rw [hzero] at hloop
  cases hloop

/-- `large_slab_new`. -/
theorem largeSlabNew_spec {depth : ℕ} (h : Inv pend held G k) (hlarge : kSmallSlabMax < zoneSize k z)
    (hpend : ∀ w ∈ pend, w.1 ≠ kmemSlab ∧ w.1 ≠ kmemBufctl)
    (hs : largeSlabNew (kmemZonealloc depth) z k = some (slab, k')) :
    ∃ s G', Inv pend held (s :: G') k' ∧ s.zone = z ∧ s.hdr = slab ∧ s.free ≠ [] ∧
      Leaves held G (s :: G') k k' := by
  have hz := h.ne_of_large hlarge
  obtain ⟨k₁, zone, data, k₂, entry, k₃, halloc, hzone, hkalloc, hcap, hloop, rfl⟩ := largeSlabNew_eq_some hs
  obtain ⟨G₁, next, -, hstart, hleaves, -, hlarge, hdata, halign, hle, hfresh⟩ :=
    largeSlabNew_start h hlarge (fun w hw => (hpend w hw).1) halloc hzone hkalloc
  obtain ⟨ctl, G', hmade, hleaves', -⟩ := hstart.loop hz.2 (fun w hw => (hpend w hw).2) hloop
  -- the entry that the loop ends with is the last `bufctl`, since the capacity is not zero
  have hlast : entry = ctl (slabcapacity zone.size - 1) := by
    have hprev := hmade.prev
    rw [if_neg (Nat.ne_of_gt hcap)] at hprev
    exact Option.some.inj hprev
  have hleaves := hleaves.trans hleaves'
  refine ⟨⟨z, zone.size, slab, data, ctl, List.range (slabcapacity zone.size)⟩, G', ?_, rfl, rfl, ?_,
    hleaves.sizes, ?_, hleaves.runs, ?_⟩
  · rw [hlast]
    exact hmade.finish hcap hlarge hdata halign hle
  · exact List.ne_nil_of_mem (List.mem_range.mpr hcap)
  -- the closing store is in an object of the slab that is made, and `x` is held by somebody else
  · intro x hx a ha
    obtain ⟨w, hw, hhas⟩ := hmade.inv.making_has.2 (slabcapacity zone.size - 1) (by omega) 0 (by decide)
    have ha' : Has (block k₃ x) a := by
      rw [block, hleaves.sizes]
      exact ha
    rw [hlast]
    exact (Function.update_of_ne (hmade.inv.held_ne hw hx hhas ha') _ _).trans (hleaves.words x hx a ha)
  · intro r hr hspare t ht
    rcases List.mem_cons.mp ht with rfl | ht
    · exact (hfresh r hr).symm
    · exact hleaves.spares r hr hspare t ht

/-- **`kmem_zonealloc`.** The object that it returns is a new one. -/
theorem kmemZonealloc_spec (h : Inv [] held G k) (hs : kmemZonealloc n z k = some (p, k')) :
    ∃ G', Inv [] ((z, p) :: held) G' k' ∧ Leaves held G G' k k' := by
  by_cases hsmall : zoneSize k z ≤ kSmallSlabMax
  · obtain ⟨G', hinv, hframe, hspares, -⟩ := kmemZonealloc_small h (by simp) hsmall hs
    exact ⟨G', hinv, hframe.leaves hspares⟩
  · obtain ⟨m, zone, rfl, hzone, hsize, hs⟩ := kmemZonealloc_eq_some hs
    rw [if_neg (hsize ▸ hsmall)] at hs
    obtain ⟨⟨slab, k₁⟩, hslab, hs⟩ := Option.bind_eq_some_iff.mp hs
    obtain ⟨s, G', hinv, rfl, rfl, hfree, hleaves⟩ := slabFor_spec
      (R := fun G' k' => Leaves held G G' k k') h (by simp) hzone
      (fun G' hperm => .of_perm hperm)
      (fun slab k' hnew => largeSlabNew_spec h (Nat.not_le.mp hsmall) (by simp) hnew) hslab
    obtain ⟨i, rest, hcons⟩ := List.exists_cons_of_ne_nil hfree
    obtain ⟨zone₁, hzone₁⟩ := hinv.zone_exists List.mem_cons_self
    obtain ⟨-, hinv', hframe⟩ := takeFirst_spec hinv hcons hzone₁ hs
    exact ⟨_, hinv', hleaves.trans (hframe.leaves (spares_withFree s rest G'))⟩

end Scalux.Kmem
