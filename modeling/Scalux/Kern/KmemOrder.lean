import Scalux.Kern.KmemRun

/-! # The order of the slabs

`kmem_zonealloc` looks at the first slab of a zone only, and makes a new slab if this one is full: "full
slabs always at tail of queue".  It puts a slab that becomes full to the end, and `kmem_zonefree` leaves a
slab where it is, also one that was full.

* **`Ordered`**: in the queue of each zone, all slabs behind a full one are full.
* **`Calls`**: the calls of `kmem_zonealloc` that a call leads to.
* **`new_slab_when_full`**: as long as objects are released only to slabs with no full one before them, the
  queues are ordered, and a new slab is made only if all slabs of the zone are full. -/

namespace Scalux.Kmem

/-! ## Definitions -/

/-- The slabs behind a full one are full. -/
def InOrder (k : Allocator) (slablist : List ℕ) : Prop :=
  slablist.Pairwise fun a b => k.mem (nfree a) = 0 → k.mem (nfree b) = 0

/-- The queues of all zones are in order. -/
def Ordered (k : Allocator) : Prop := ∀ z zone, k.zones z = some zone → InOrder k zone.slablist

/-- `kmem_zonealloc` makes a new slab: there is none, or the first one is full. -/
def MakesSlab (zone : Zone) (k : Allocator) : Prop := ∀ slab ∈ zone.slablist.head?, k.mem (nfree slab) = 0

/-- The call `kmem_zonealloc z` in the state `k` is the call `kmem_zonealloc z'` in the state `k'`, or leads
to it through `large_slab_new`, for the header or for the bufctl with the number `n`. -/
inductive Calls : ℕ → ZoneId → Allocator → ZoneId → Allocator → Prop
  | self {depth : ℕ} {z : ZoneId} {k : Allocator} : Calls (depth + 1) z k z k
  | header {depth : ℕ} {z z' : ZoneId} {k k' : Allocator} {zone : Zone} (hzone : k.zones z = some zone)
      (hlarge : kSmallSlabMax < zone.size) (hmakes : MakesSlab zone k)
      (hcalls : Calls depth kmemSlab k z' k') : Calls (depth + 1) z k z' k'
  | bufctl {depth slab data n : ℕ} {z z' : ZoneId} {k k' k₁ k₂ : Allocator} {zone zone₁ : Zone}
      {x : Option ℕ × Allocator} (hzone : k.zones z = some zone) (hlarge : kSmallSlabMax < zone.size)
      (hmakes : MakesSlab zone k) (halloc : kmemZonealloc depth kmemSlab k = some (slab, k₁))
      (hzone₁ : k₁.zones z = some zone₁)
      (hkalloc : vmKalloc (slabsize zone₁.size / pgSize) (store (store (insertSlab z zone₁ slab k₁)
        (slabZone slab) z) (nfree slab) (slabcapacity zone₁.size)) = some (data, k₂))
      (hn : n < slabcapacity zone₁.size)
      (hloop : (List.range n).foldlM (newBufctl (kmemZonealloc depth) slab data zone₁.size)
        (none, store k₂ (slabData slab) data) = some x)
      (hcalls : Calls depth kmemBufctl x.2 z' k') : Calls (depth + 1) z k z' k'

/-- No slab before that of an object is full. -/
def NoFullBefore (k : Allocator) (z : ZoneId) (ptr : ℕ) : Prop :=
  ∀ zone ∈ k.zones z, ∀ slab ∈ zone.slablist,
    slabBase k zone slab ≤ ptr ∧ ptr < slabBase k zone slab + slabsize zone.size →
      ∀ before ∈ zone.slablist.takeWhile (· ≠ slab), k.mem (nfree before) ≠ 0

instance (k : Allocator) (z : ZoneId) (ptr : ℕ) : Decidable (NoFullBefore k z ptr) :=
  inferInstanceAs (Decidable (∀ zone ∈ k.zones z, ∀ slab ∈ zone.slablist,
    slabBase k zone slab ≤ ptr ∧ ptr < slabBase k zone slab + slabsize zone.size →
      ∀ before ∈ zone.slablist.takeWhile (· ≠ slab), k.mem (nfree before) ≠ 0))

/-- Objects are released to slabs with no full slab before them. -/
def PutsInOrder (s : State) : Action → Prop
  | .kmemZonefree z ptr => NoFullBefore s.kmem z ptr
  | _ => True

instance (s : State) : (a : Action) → Decidable (PutsInOrder s a)
  | .kmemZonefree z ptr => inferInstanceAs (Decidable (NoFullBefore s.kmem z ptr))
  | .kmemZoneInit _ _ | .kmemZonealloc _ _ _ | .write _ _ _ _ => isTrue trivial

variable {pend held held' : List (ZoneId × ℕ)} {G G' : List Slab} {k k' : Allocator} {s t : Slab}
  {i n p slab data depth : ℕ} {rest : List ℕ} {z z' : ZoneId} {zone zone' : Zone}

/-! ## Counts -/

/-- The head of the queue decides whether there is a new slab. -/
theorem slabFor_of_makesSlab (new : Allocator → Option (ℕ × Allocator)) (h : MakesSlab zone k) :
    slabFor new zone k = new k := by
  unfold slabFor
  split
  · rfl
  · rename_i first rest hlist
    exact if_pos (h first (by rw [hlist]; rfl))

theorem slabFor_of_not_makesSlab (new : Allocator → Option (ℕ × Allocator)) (h : ¬ MakesSlab zone k) :
    ∃ first ∈ zone.slablist.head?, k.mem (nfree first) ≠ 0 ∧ slabFor new zone k = some (first, k) := by
  unfold MakesSlab at h
  push Not at h
  obtain ⟨first, hfirst, hn⟩ := h
  obtain ⟨rest, hlist⟩ := List.head?_eq_some_iff.mp hfirst
  refine ⟨first, hfirst, hn, ?_⟩
  unfold slabFor
  rw [hlist]
  exact if_neg hn

/-- In a queue in order, the first slab is full only if all are. -/
theorem Ordered.full (h : Ordered k) (hzone : k.zones z = some zone) (hmakes : MakesSlab zone k) :
    ∀ slab ∈ zone.slablist, k.mem (nfree slab) = 0 := by
  intro slab hslab
  have horder := h z zone hzone
  unfold MakesSlab at hmakes
  cases hlist : zone.slablist with
  | nil =>
      rw [hlist] at hslab
      cases hslab
  | cons first rest =>
      rw [hlist] at hslab horder hmakes
      have hfirst := hmakes first rfl
      rcases List.mem_cons.mp hslab with rfl | hslab
      · exact hfirst
      · exact (List.pairwise_cons.mp horder).1 slab hslab hfirst

/-- The order depends on the counts of the slabs in the queues. -/
theorem Ordered.congr (h : Ordered k) (hsame : ∀ z zone', k'.zones z = some zone' →
    ∃ zone, k.zones z = some zone ∧ zone'.slablist = zone.slablist ∧
      ∀ a ∈ zone.slablist, k'.mem (nfree a) = k.mem (nfree a)) : Ordered k' := by
  intro z zone' hzone'
  obtain ⟨zone, hzone, hlist, hcount⟩ := hsame z zone' hzone'
  unfold InOrder
  rw [hlist]
  refine (h z zone hzone).imp_of_mem fun ha hb himp => ?_
  rw [hcount _ ha, hcount _ hb]
  exact himp

/-- A slab of the queue of a zone is one of the slabs, or is being made. -/
theorem Inv.slab_or_pend (h : Inv pend held G k) (hzone : k.zones z = some zone) (hmem : slab ∈ zone.slablist) :
    (z, slab) ∈ pend ∨ ∃ t ∈ G, t.zone = z ∧ t.hdr = slab := by
  obtain ⟨⟨z₁, slab⟩, hx, rfl⟩ := List.mem_map.mp ((h.queue z zone hzone).mem_iff.mp hmem)
  obtain ⟨hin, hz⟩ := List.mem_filter.mp hx
  obtain rfl : z₁ = z := of_decide_eq_true hz
  rcases List.mem_append.mp hin with hx | hx
  · exact .inl hx
  · obtain ⟨t, ht, heq⟩ := List.mem_map.mp hx
    obtain ⟨rfl, rfl⟩ := Prod.mk.inj heq
    exact .inr ⟨t, ht, rfl, rfl⟩

/-- A slab that stays as it is keeps its count. -/
theorem Inv.count_eq {pend' : List (ZoneId × ℕ)} (h : Inv pend held G k) (h' : Inv pend' held' G' k')
    (ht : t ∈ G) (ht' : t ∈ G') : k'.mem (nfree t.hdr) = k.mem (nfree t.hdr) :=
  (h'.ok t ht').nfree_eq.trans (h.ok t ht).nfree_eq.symm

/-- The slabs that are being made have headers that are held. -/
def OwnsPend (pend held : List (ZoneId × ℕ)) : Prop := ∀ x ∈ pend, (kmemSlab, x.2) ∈ held

/-- The count of a slab that is being made is a word that is held. -/
theorem Inv.count_has (h : Inv pend held G k) (slab : ℕ) : Has (block k (kmemSlab, slab)) (nfree slab) := by
  refine ⟨Nat.le_add_right _ _, ?_⟩
  rw [block, h.slab_size]
  exact Nat.add_lt_add_left (show 16 < sizeofSlab + 8 by decide) slab

/-- An allocation from one zone leaves the counts of the others. -/
theorem Inv.count_other (h : Inv pend held G k) (h' : Inv pend held' G' k') (hown : OwnsPend pend held)
    (hframe : Frame z held k k') (hstays : Stays z G G') (hz : z' ≠ z) (hzone : k.zones z' = some zone)
    (hmem : slab ∈ zone.slablist) : k'.mem (nfree slab) = k.mem (nfree slab) := by
  rcases h.slab_or_pend hzone hmem with hpend | ⟨t, ht, rfl, rfl⟩
  · exact hframe.words _ (hown _ hpend) _ (h.count_has slab)
  · exact h.count_eq h' ht (hstays t ht hz)

/-- The headers are at different addresses. -/
theorem Inv.hdrs_nodup (h : Inv pend held G k) : (G.map Slab.hdr).Nodup := by
  have hused := (List.pairwise_flatMap.mp (List.pairwise_append.mp h.used_apart).1).2
  refine List.pairwise_map.mpr (hused.imp fun {s t} hapart heq => ?_)
  obtain ⟨b, hb, hhas⟩ := Slab.hdr_has (s := s) (o := 0) (Nat.lt_of_lt_of_le (by decide) (Nat.le_add_right _ _))
  obtain ⟨c, hc, hhas'⟩ := Slab.hdr_has (s := t) (o := 0) (Nat.lt_of_lt_of_le (by decide) (Nat.le_add_right _ _))
  exact (hapart b hb c hc).ne hhas hhas' (congrArg (· + 0) heq)

/-- The queue of a zone with no slab in the making has each slab once. -/
theorem Inv.queue_nodup (h : Inv pend held G k) (hpend : ∀ x ∈ pend, x.1 ≠ z) (hzone : k.zones z = some zone) :
    zone.slablist.Nodup := by
  have hnone : pend.filter (fun x => x.1 = z) = [] :=
    List.filter_eq_nil_iff.mpr fun x hx heq => hpend x hx (of_decide_eq_true heq)
  refine (h.queue z zone hzone).nodup_iff.mpr ?_
  rw [List.filter_append, hnone, List.nil_append]
  refine (List.Sublist.map Prod.snd List.filter_sublist).nodup ?_
  unfold headers
  rw [List.map_map]
  exact h.hdrs_nodup

/-! ## Allocation -/

/-- The link of the first free object is null if no other is free. -/
theorem Slab.Ok.next_eq_zero_iff {mem : ℕ → ℕ} (h : s.Ok mem) (hfree : s.free = i :: rest) :
    mem (s.ctl i) = 0 ↔ rest = [] := by
  have hchain := h.chain
  rw [hfree] at hchain
  obtain ⟨-, -, hnext⟩ := hchain
  cases rest with
  | nil => exact iff_of_true hnext rfl
  | cons j rest =>
      obtain ⟨heq, hne, -⟩ := hnext
      exact iff_of_false (heq ▸ hne) (List.cons_ne_nil _ _)

/-- Allocation from the first slab: one that becomes full goes to the end. -/
theorem takeFirst_ordered (h : Inv pend held (s :: G) k) (hpend : ∀ x ∈ pend, x.1 ≠ s.zone)
    (hown : OwnsPend pend held) (hord : Ordered k) (hfree : s.free ≠ []) (hzone : k.zones s.zone = some zone)
    (hfirst : s.hdr ∈ zone.slablist.head?) (hs : takeFirst s.zone s.hdr k = some (p, k')) :
    Ordered k' := by
  obtain ⟨i, rest, hcons⟩ := List.exists_cons_of_ne_nil hfree
  obtain ⟨⟨zone', hzone', hlist'⟩, h', hframe⟩ := takeFirst_spec h hcons hzone hs
  obtain ⟨tail, hlist⟩ := List.head?_eq_some_iff.mp hfirst
  have horder := hord s.zone zone hzone
  have hnodup := h.queue_nodup hpend hzone
  unfold InOrder at horder
  rw [hlist] at horder hnodup
  intro z₁ zone₁ hzone₁
  by_cases hz : z₁ = s.zone
  · subst hz
    rw [hzone'] at hzone₁
    cases hzone₁
    have hcount : k'.mem (nfree s.hdr) = rest.length := (h'.ok _ List.mem_cons_self).nfree_eq
    -- no other count of the zone changes
    have htail : ∀ a ∈ tail, k'.mem (nfree a) = k.mem (nfree a) := by
      intro a ha
      have hmem : a ∈ zone.slablist := hlist ▸ List.mem_cons_of_mem _ ha
      obtain ⟨t, ht, -, rfl⟩ := (h.slab_or_pend hzone hmem).resolve_left fun hx => hpend _ hx rfl
      rcases List.mem_cons.mp ht with rfl | ht
      · exact absurd ha (List.nodup_cons.mp hnodup).1
      · exact h.count_eq h' (List.mem_cons_of_mem _ ht) (List.mem_cons_of_mem _ ht)
    have htails : tail.Pairwise fun a b => k'.mem (nfree a) = 0 → k'.mem (nfree b) = 0 := by
      refine (List.pairwise_cons.mp horder).2.imp_of_mem fun ha hb himp => ?_
      rw [htail _ ha, htail _ hb]
      exact himp
    have hnext := (h.ok s List.mem_cons_self).next_eq_zero_iff hcons
    unfold InOrder
    rw [hlist']
    unfold requeue
    -- the source moves the slab to the tail when its link is null, that is when it is full now
    by_cases hrest : rest = []
    · rw [if_pos (hnext.mpr hrest), hlist, List.erase_cons_head]
      refine List.pairwise_append.mpr ⟨htails, List.pairwise_singleton _ _, fun a _ b hb _ => ?_⟩
      rw [List.mem_singleton.mp hb, hcount, hrest]
      rfl
    · rw [if_neg (fun heq => hrest (hnext.mp heq)), hlist]
      refine List.pairwise_cons.mpr ⟨fun b _ hzero => ?_, htails⟩
      exact absurd (List.length_eq_zero_iff.mp (hcount.symm.trans hzero)) hrest
  -- the zones inside keep their lists, and the counts of other zones their values
  · have hsame := hframe.zones z₁ hz
    have hstays := stays_withFree s rest G
    rw [hsame] at hzone₁
    refine (hord z₁ zone₁ hzone₁).imp_of_mem fun ha hb himp => ?_
    rw [h.count_other h' hown hframe hstays hz hzone₁ ha, h.count_other h' hown hframe hstays hz hzone₁ hb]
    exact himp

/-- A new slab, with free objects, at the head of the queue of its zone. -/
theorem Ordered.insert (hord : Ordered k) (hzone : k.zones z = some zone)
    (hzones : k'.zones = Function.update k.zones z (some { zone with slablist := slab :: zone.slablist }))
    (hnew : k'.mem (nfree slab) ≠ 0) (hcount : ∀ z' zone', k.zones z' = some zone' →
      ∀ a ∈ zone'.slablist, k'.mem (nfree a) = k.mem (nfree a)) : Ordered k' := by
  have hsame : ∀ z' zone', k.zones z' = some zone' → InOrder k' zone'.slablist := by
    intro z' zone' hzone'
    refine (hord z' zone' hzone').imp_of_mem fun ha hb himp => ?_
    rw [hcount z' zone' hzone' _ ha, hcount z' zone' hzone' _ hb]
    exact himp
  intro z' zone' hzone'
  rw [hzones] at hzone'
  by_cases hz : z' = z
  · rw [hz, Function.update_self] at hzone'
    cases hzone'
    exact List.pairwise_cons.mpr ⟨fun b _ hzero => absurd hzero hnew, hsame z zone hzone⟩
  · rw [Function.update_of_ne hz] at hzone'
    exact hsame z' zone' hzone'

/-- `small_slab_new` and the queue. -/
theorem smallSlabNew_zones (hs : smallSlabNew z k = some (slab, k')) : ∃ zone, k.zones z = some zone ∧
    k'.zones = Function.update k.zones z (some { zone with slablist := slab :: zone.slablist }) := by
  obtain ⟨⟨base, k₁⟩, hkalloc, hs⟩ := Option.bind_eq_some_iff.mp hs
  obtain ⟨⟨next, rfl⟩, -⟩ := vmKalloc_spec hkalloc
  obtain ⟨zone, hzone, hs⟩ := Option.bind_eq_some_iff.mp hs
  dsimp only at hs
  split at hs
  · cases hs
  · cases hs
    exact ⟨zone, hzone, rfl⟩

/-- A call that makes a new slab keeps the order, with the new slab at the head. -/
def NewInOrder (z : ZoneId) (k : Allocator) (new : Allocator → Option (ℕ × Allocator)) : Prop :=
  ∀ slab k', new k = some (slab, k') →
    Ordered k' ∧ ∃ zone, k'.zones z = some zone ∧ slab ∈ zone.slablist.head?

/-- `small_slab_new`. -/
theorem smallSlabNew_ordered (h : Inv pend held G k) (hown : OwnsPend pend held) (hord : Ordered k)
    (hsmall : zoneSize k z ≤ kSmallSlabMax) : NewInOrder z k (smallSlabNew z) := by
  intro slab k' hs
  obtain ⟨s, h', hz, rfl, hfree, hframe, -⟩ := smallSlabNew_spec h hsmall hs
  obtain ⟨zone, hzone, hzones⟩ := smallSlabNew_zones hs
  refine ⟨hord.insert hzone hzones ?_ ?_, _, by rw [hzones, Function.update_self], rfl⟩
  · rw [(h'.ok s List.mem_cons_self).nfree_eq]
    exact fun hzero => hfree (List.length_eq_zero_iff.mp hzero)
  · intro z' zone' hzone' a ha
    rcases h.slab_or_pend hzone' ha with hx | ⟨t, ht, -, rfl⟩
    · exact hframe.words _ (hown _ hx) _ (h.count_has a)
    · exact h.count_eq h' ht (List.mem_cons_of_mem _ ht)

/-- The slab that `kmem_zonealloc` takes an object from is the first one. -/
theorem slabFor_ordered {new : Allocator → Option (ℕ × Allocator)} (hord : Ordered k) (hzone : k.zones z = some zone)
    (hnew : NewInOrder z k new) : NewInOrder z k (slabFor new zone) := by
  intro slab k' hs
  by_cases hmakes : MakesSlab zone k
  · rw [slabFor_of_makesSlab new hmakes] at hs
    exact hnew slab k' hs
  · obtain ⟨first, hfirst, -, heq⟩ := slabFor_of_not_makesSlab new hmakes
    rw [heq] at hs
    cases hs
    exact ⟨hord, zone, hzone, hfirst⟩

/-- `kmem_zonealloc` keeps the order if the function that makes new slabs does. -/
theorem slabFor_takeFirst_ordered {new : Allocator → Option (ℕ × Allocator)} (h : Inv pend held G k)
    (hpend : ∀ x ∈ pend, x.1 ≠ z) (hown : OwnsPend pend held) (hord : Ordered k)
    (hzone : k.zones z = some zone) (hnew : NewInOrder z k new)
    (hmade : ∀ slab k', new k = some (slab, k') → ∃ s G', Inv pend held (s :: G') k' ∧ s.zone = z ∧
      s.hdr = slab ∧ s.free ≠ [] ∧ True)
    (hs : (slabFor new zone k).bind (fun x => takeFirst z x.1 x.2) = some (p, k')) : Ordered k' := by
  obtain ⟨⟨slab, k₁⟩, hslab, hs⟩ := Option.bind_eq_some_iff.mp hs
  obtain ⟨hord₁, zone₁, hzone₁, hfirst⟩ := slabFor_ordered hord hzone hnew slab k₁ hslab
  obtain ⟨s, G', hinv, rfl, rfl, hfree, -⟩ :=
    slabFor_spec (R := fun _ _ => True) h hpend hzone (fun _ _ => trivial) hmade hslab
  exact takeFirst_ordered hinv hpend hown hord₁ hfree hzone₁ hfirst hs

/-- `kmem_zonealloc` from a zone of small objects. -/
theorem kmemZonealloc_small_ordered (h : Inv pend held G k) (hpend : ∀ x ∈ pend, x.1 ≠ z)
    (hown : OwnsPend pend held) (hord : Ordered k) (hsmall : zoneSize k z ≤ kSmallSlabMax)
    (hs : kmemZonealloc depth z k = some (p, k')) : Ordered k' := by
  obtain ⟨m, zone, rfl, hzone, hsize, hs⟩ := kmemZonealloc_eq_some hs
  rw [if_pos (hsize ▸ hsmall)] at hs
  refine slabFor_takeFirst_ordered h hpend hown hord hzone (smallSlabNew_ordered h hown hord hsmall)
    (fun slab k' hnew => ?_) hs
  obtain ⟨s, hinv, hz, hhdr, hfree, -⟩ := smallSlabNew_spec h hsmall hnew
  exact ⟨s, G, hinv, hz, hhdr, hfree, trivial⟩

/-- The count of a slab is not in an object that is held. -/
theorem Inv.count_ne (h : Inv pend held G k) (ht : t ∈ G) {x : ZoneId × ℕ} (hx : x ∈ held) {a : ℕ}
    (ha : Has (block k x) a) : nfree t.hdr ≠ a := by
  obtain ⟨b, hb, hhas⟩ := Slab.hdr_has (s := t) (o := 16) (Nat.lt_of_lt_of_le (by decide) (Nat.le_add_right _ _))
  have hapart := (List.pairwise_append.mp h.used_apart).2.2 b (List.mem_flatMap.mpr ⟨t, ht, hb⟩) _
    (List.mem_map_of_mem hx)
  exact hapart.ne hhas ha

/-- A word that is stored into an object that is held, and is not the count of a slab in the making. -/
theorem Inv.store_ordered (h : Inv pend held G k) (hord : Ordered k) {x : ZoneId × ℕ} (hx : x ∈ held) {a : ℕ}
    (ha : Has (block k x) a) (hne : ∀ w ∈ pend, nfree w.2 ≠ a) (v : ℕ) : Ordered (store k a v) := by
  refine hord.congr fun z zone hzone => ⟨zone, hzone, rfl, fun slab hslab => ?_⟩
  rcases h.slab_or_pend hzone hslab with hw | ⟨t, ht, -, rfl⟩
  · exact Function.update_of_ne (hne _ hw) _ _
  · exact Function.update_of_ne (h.count_ne ht hx ha) _ _

/-! ## Large slabs -/

variable {ctl : ℕ → ℕ}

/-- One iteration of the loop of `large_slab_new`. -/
theorem Making.step_ordered {x y : Option ℕ × Allocator} (h : Making [] held z zone slab data n ctl G x)
    (hz : z ≠ kmemBufctl) (hord : Ordered x.2)
    (hs : newBufctl (kmemZonealloc depth) slab data zone.size x n = some y) : Ordered y.2 := by
  obtain ⟨entry, k₁, halloc, rfl⟩ := newBufctl_eq h.prev hs
  have hpend : ∀ w ∈ [(z, slab)], w.1 ≠ kmemBufctl := by simpa using hz
  have hown : OwnsPend [(z, slab)] (making slab n ctl ++ held) := by
    intro w hw
    rw [List.mem_singleton.mp hw]
    exact List.mem_append_left _ (List.mem_append_right _ List.mem_cons_self)
  have hsmall : zoneSize x.2 kmemBufctl ≤ kSmallSlabMax := by
    rw [h.inv.bufctl_size]
    decide
  have hord₁ := kmemZonealloc_small_ordered h.inv hpend hown hord hsmall halloc
  obtain ⟨G', hinv, -⟩ := h.alloc hz (by simp) halloc
  have hapart := hinv.making_apart
  -- the words of the new bufctl and the link to it are not counts
  refine hord₁.congr fun z' zone' hzone' => ⟨zone', hzone', rfl, fun a ha => linkBufctl_mem fun hmem => ?_⟩
  rcases hinv.slab_or_pend hzone' ha with hw | ⟨t, ht, -, rfl⟩
  · obtain ⟨-, rfl⟩ := Prod.mk.inj (List.mem_singleton.mp hw)
    simp only [List.mem_cons, List.not_mem_nil, or_false] at hmem
    rcases hmem with hmem | hmem | hmem
    · exact hapart.hdr n (Nat.lt_succ_self n) 8 (by decide) 16 (by decide) hmem.symm
    · exact hapart.hdr n (Nat.lt_succ_self n) 16 (by decide) 16 (by decide) hmem.symm
    · unfold linkFrom at hmem
      split at hmem
      · unfold nfree firstfree at hmem
        omega
      · exact hapart.hdr (n - 1) (by omega) 0 (by decide) 16 (by decide) hmem.symm
  · obtain ⟨w, hw, hhas⟩ := hinv.linkBufctl_has _ hmem
    exact hinv.count_ne ht (List.mem_append_left _ hw) hhas rfl

/-- The loop of `large_slab_new`. -/
theorem Making.loop_ordered {x y : Option ℕ × Allocator} (h : Making [] held z zone slab data 0 ctl G x)
    (hz : z ≠ kmemBufctl) (hord : Ordered x.2)
    (hs : (List.range n).foldlM (newBufctl (kmemZonealloc depth) slab data zone.size) x = some y) :
    Ordered y.2 := by
  induction n generalizing y with
  | zero =>
      cases hs
      exact hord
  | succ n ih =>
      rw [List.range_succ, List.foldlM_append] at hs
      obtain ⟨x', hx', hs⟩ := Option.bind_eq_some_iff.mp hs
      obtain ⟨y', hy', hs⟩ := Option.bind_eq_some_iff.mp hs
      cases hs
      obtain ⟨ctl', G', h', -⟩ := h.loop hz (by simp) hx'
      exact h'.step_ordered hz (ih hx') hy'

/-- `large_slab_new` up to an iteration of its loop. -/
theorem largeSlabNew_loop_ordered {k₁ k₂ : Allocator} {x : Option ℕ × Allocator} (h : Inv [] held G k)
    (hord : Ordered k) (hlarge : kSmallSlabMax < zoneSize k z)
    (halloc : kmemZonealloc depth kmemSlab k = some (slab, k₁)) (hzone : k₁.zones z = some zone)
    (hkalloc : vmKalloc (slabsize zone.size / pgSize) (store (store (insertSlab z zone slab k₁)
      (slabZone slab) z) (nfree slab) (slabcapacity zone.size)) = some (data, k₂))
    (hcap : 0 < slabcapacity zone.size)
    (hloop : (List.range n).foldlM (newBufctl (kmemZonealloc depth) slab data zone.size)
      (none, store k₂ (slabData slab) data) = some x) :
    Ordered x.2 ∧ ∃ ctl G', Making [] held z { zone with slablist := slab :: zone.slablist } slab data n
      ctl G' x := by
  have hz := h.ne_of_large hlarge
  have hsmall : zoneSize k kmemSlab ≤ kSmallSlabMax := by
    rw [h.slab_size]
    decide
  have hord₁ : Ordered k₁ := kmemZonealloc_small_ordered h (by simp) (by simp [OwnsPend]) hord hsmall halloc
  obtain ⟨G₁, hinv₁, -⟩ := kmemZonealloc_spec h halloc
  obtain ⟨G₂, next, hstart, hmaking, -⟩ := largeSlabNew_start h hlarge (by simp) halloc hzone hkalloc
  -- the new slab enters in front with a count that is not zero, so the order stays
  have hord₂ : Ordered (store k₂ (slabData slab) data) := by
    rw [hstart] at hmaking ⊢
    refine hord₁.insert hzone rfl (hmaking.fields.count.trans_ne hcap.ne') fun z' zone' hzone' a ha => ?_
    obtain ⟨t, ht, -, rfl⟩ := (hinv₁.slab_or_pend hzone' ha).resolve_left (by simp)
    -- the three words that are stored lie in the new header, no count of another slab does
    have hne : ∀ o < sizeofSlab + 8, nfree t.hdr ≠ slab + o := by
      intro o ho
      refine hinv₁.count_ne ht List.mem_cons_self ⟨Nat.le_add_right _ _, ?_⟩
      rw [block, hinv₁.slab_size]
      exact Nat.add_lt_add_left ho _
    exact (Function.update_of_ne (hne 32 (by decide)) _ _).trans
      ((Function.update_of_ne (hne 16 (by decide)) _ _).trans
        (Function.update_of_ne (hne 8 (by decide)) _ _))
  obtain ⟨ctl, G', hmade, -⟩ := hmaking.loop hz.2 (by simp) hloop
  exact ⟨hmaking.loop_ordered hz.2 hord₂ hloop, ctl, G', hmade⟩

/-- `large_slab_new`. -/
theorem largeSlabNew_ordered (h : Inv [] held G k) (hord : Ordered k)
    (hlarge : kSmallSlabMax < zoneSize k z) : NewInOrder z k (largeSlabNew (kmemZonealloc depth) z) := by
  intro slab k' hs
  obtain ⟨k₁, zone, data, k₂, entry, k₃, halloc, hzone, hkalloc, hcap, hloop, rfl⟩ := largeSlabNew_eq_some hs
  obtain ⟨hord₃, ctl, G', hmade⟩ := largeSlabNew_loop_ordered h hord hlarge halloc hzone hkalloc hcap hloop
  obtain ⟨w, hw, hhas⟩ := hmade.inv.making_has.2 (slabcapacity zone.size - 1) (by omega) 0 (by decide)
  have hlast : entry = ctl (slabcapacity zone.size - 1) := by
    have hprev := hmade.prev
    rw [if_neg hcap.ne'] at hprev
    exact Option.some.inj hprev
  refine ⟨?_, _, hmade.zone_eq, rfl⟩
  rw [hlast]
  refine hmade.inv.store_ordered hord₃ (List.mem_append_left _ hw) hhas (fun x hx => ?_) 0
  rw [List.mem_singleton.mp hx]
  exact (hmade.inv.making_apart.hdr _ (by omega) 0 (by decide) 16 (by decide)).symm

/-- **`kmem_zonealloc`** keeps the order of the slabs. -/
theorem kmemZonealloc_ordered (h : Inv [] held G k) (hord : Ordered k)
    (hs : kmemZonealloc depth z k = some (p, k')) : Ordered k' := by
  by_cases hsmall : zoneSize k z ≤ kSmallSlabMax
  · exact kmemZonealloc_small_ordered h (by simp) (by simp [OwnsPend]) hord hsmall hs
  · obtain ⟨m, zone, rfl, hzone, hsize, hs⟩ := kmemZonealloc_eq_some hs
    rw [if_neg (hsize ▸ hsmall)] at hs
    have hlarge := Nat.not_le.mp hsmall
    refine slabFor_takeFirst_ordered h (by simp) (by simp [OwnsPend]) hord hzone
      (largeSlabNew_ordered h hord hlarge) (fun slab k' hnew => ?_) hs
    obtain ⟨s, G', hinv, hz, hhdr, hfree, -⟩ := largeSlabNew_spec h hlarge (by simp) hnew
    exact ⟨s, G', hinv, hz, hhdr, hfree, trivial⟩

/-- The calls that a call leads to find the slabs in order. -/
theorem Calls.ordered (hcalls : Calls depth z k z' k') (h : Inv [] held G k) (hord : Ordered k) :
    Ordered k' := by
  -- a call for small objects leads to no other
  have hsmall : ∀ {depth z k z' k'}, Calls depth z k z' k' → zoneSize k z ≤ kSmallSlabMax → k' = k := by
    intro depth z k z' k' hcalls hsize
    cases hcalls with
    | self => rfl
    | header hzone hlarge =>
        rw [zoneSize_of_some hzone] at hsize
        exact absurd hlarge (Nat.not_lt.mpr hsize)
    | bufctl hzone hlarge =>
        rw [zoneSize_of_some hzone] at hsize
        exact absurd hlarge (Nat.not_lt.mpr hsize)
  cases hcalls with
  | self => exact hord
  | header hzone hlarge hmakes hcalls =>
      have hsize : zoneSize k kmemSlab ≤ kSmallSlabMax := by
        rw [h.slab_size]
        decide
      rw [hsmall hcalls hsize]
      exact hord
  | bufctl hzone hlarge hmakes halloc hzone₁ hkalloc hn hloop hcalls =>
      have hlarge : kSmallSlabMax < zoneSize k z := (zoneSize_of_some hzone).symm ▸ hlarge
      obtain ⟨hord₁, ctl, G', hmaking⟩ := largeSlabNew_loop_ordered h hord hlarge halloc hzone₁ hkalloc
        (Nat.zero_lt_of_lt hn) hloop
      rw [hsmall hcalls (hmaking.inv.bufctl_size.trans_le (by decide))]
      exact hord₁

/-! ## Release -/

/-- The order when one element stops to meet `P` and those before it do not. -/
theorem pairwise_imp_of_before {α : Type*} [DecidableEq α] {P P' : α → Prop} {l : List α} {x : α}
    (hnodup : l.Nodup) (hord : l.Pairwise fun a b => P a → P b)
    (hbefore : ∀ a ∈ l.takeWhile (· ≠ x), ¬ P a) (hx : ¬ P' x) (hother : ∀ a ∈ l, a ≠ x → (P' a ↔ P a)) :
    l.Pairwise fun a b => P' a → P' b := by
  induction l with
  | nil => exact .nil
  | cons a l ih =>
      obtain ⟨hnot, hnodup⟩ := List.nodup_cons.mp hnodup
      obtain ⟨hfirst, hord⟩ := List.pairwise_cons.mp hord
      by_cases hax : a = x
      · subst hax
        refine List.pairwise_cons.mpr ⟨fun b _ ha => absurd ha hx, hord.imp_of_mem fun hb hc himp => ?_⟩
        rw [hother _ (List.mem_cons_of_mem _ hb) (ne_of_mem_of_not_mem hb hnot),
          hother _ (List.mem_cons_of_mem _ hc) (ne_of_mem_of_not_mem hc hnot)]
        exact himp
      · rw [List.takeWhile_cons_of_pos (by simpa using hax)] at hbefore
        refine List.pairwise_cons.mpr ⟨fun b _ ha => ?_, ?_⟩
        · exact absurd ((hother a List.mem_cons_self hax).mp ha) (hbefore a List.mem_cons_self)
        · exact ih hnodup hord (fun b hb => hbefore b (List.mem_cons_of_mem _ hb))
            fun b hb => hother b (List.mem_cons_of_mem _ hb)

/-- `kmem_zonefree` leaves the queues as they are. -/
theorem kmemZonefree_slablist (hs : kmemZonefree z p k = some k') (hzone' : k'.zones z' = some zone') :
    ∃ zone, k.zones z' = some zone ∧ zone'.slablist = zone.slablist := by
  obtain ⟨zone, hzone, hs⟩ := Option.bind_eq_some_iff.mp hs
  dsimp only at hs
  split at hs
  · cases hs
    exact ⟨zone', hzone', rfl⟩
  · obtain ⟨newfree, -, hs⟩ := Option.bind_eq_some_iff.mp hs
    obtain ⟨⟨first, mem⟩, -, hs⟩ := Option.bind_eq_some_iff.mp hs
    cases hs
    have hzone' : Function.update k.zones z (some { zone with bufctllist := first }) z' = some zone' := hzone'
    by_cases hz : z' = z
    · rw [hz, Function.update_self] at hzone'
      cases hzone'
      exact ⟨zone, hz ▸ hzone, rfl⟩
    · rw [Function.update_of_ne hz] at hzone'
      exact ⟨zone', hzone', rfl⟩

/-- **`kmem_zonefree`** keeps the order if no slab before that of the object is full. -/
theorem kmemZonefree_ordered {s : State} {ptr : ℕ} (h : Inv [] s.held G s.kmem)
    (hord : Ordered s.kmem) (hheld : (z, ptr) ∈ s.held) (hcond : PutsInOrder s (.kmemZonefree z ptr))
    (hs : kmemZonefree z ptr s.kmem = some k') : Ordered k' := by
  have h := h.perm_held (List.perm_cons_erase hheld)
  obtain ⟨t, G', i, hperm, hi, heq⟩ := h.slab_of_held
  cases heq
  have h := h.perm hperm
  obtain ⟨k₁, hfree, h', -⟩ := h.free hi
  rw [hs] at hfree
  cases hfree
  intro z₁ zone₁ hzone₁
  obtain ⟨zone, hzone, hlist⟩ := kmemZonefree_slablist hs hzone₁
  -- the other slabs keep their counts
  have hother : ∀ a ∈ zone.slablist, (z₁ = t.zone → a ≠ t.hdr) → k'.mem (nfree a) = s.kmem.mem (nfree a) := by
    intro a ha hne
    obtain ⟨u, hu, hz, rfl⟩ := (h.slab_or_pend hzone ha).resolve_left (by simp)
    rcases List.mem_cons.mp hu with rfl | hu
    · exact absurd rfl (hne hz.symm)
    · exact h.count_eq h' (List.mem_cons_of_mem _ hu) (List.mem_cons_of_mem _ hu)
  unfold InOrder
  rw [hlist]
  by_cases hz : z₁ = t.zone
  · subst hz
    have hok := h.ok t List.mem_cons_self
    have hcount : ¬ k'.mem (nfree t.hdr) = 0 := by
      have hlen : k'.mem (nfree t.hdr) = (i :: t.free).length := (h'.ok _ List.mem_cons_self).nfree_eq
      rw [hlen]
      exact Nat.succ_ne_zero _
    have hrun := hok.run_has (t.mem_taken.mp hi).1
    have hin : slabBase s.kmem zone t.hdr ≤ t.obj i ∧
        t.obj i < slabBase s.kmem zone t.hdr + slabsize zone.size := by
      rw [(h.base_limit hzone).1, h.zone_size hzone]
      exact hrun
    refine pairwise_imp_of_before (P := fun a => s.kmem.mem (nfree a) = 0) (h.queue_nodup (by simp) hzone)
      (hord _ zone hzone) (hcond zone hzone t.hdr (h.hdr_mem hzone) hin) hcount fun a ha hne => ?_
    rw [hother a ha fun _ => hne]
  · refine (hord z₁ zone hzone).imp_of_mem fun ha hb himp => ?_
    rw [hother _ ha fun heq => absurd heq hz, hother _ hb fun heq => absurd heq hz]
    exact himp

/-! ## Runs -/

/-- Before the first call there are no slabs. -/
theorem ordered_kmemInit {mem : ℕ → ℕ} (hinit : kmemInit mem = some k) : Ordered k := by
  intro z zone hzone
  have hqueue := (inv_kmemInit hinit).queue z zone hzone
  have hnil : zone.slablist = [] := hqueue.eq_nil
  unfold InOrder
  rw [hnil]
  exact .nil

/-- Each call keeps the order of the slabs. -/
theorem ordered_step {s s' : State} {a : Action} (h : Inv [] s.held G s.kmem) (hord : Ordered s.kmem)
    (hcond : PutsInOrder s a) (hs : step s a = some s') : Ordered s'.kmem := by
  cases a with
  -- a zone begins with an empty list
  | kmemZoneInit z size =>
      rw [step] at hs
      split at hs
      · obtain ⟨k, hinit, rfl⟩ := Option.map_eq_some_iff.mp hs
        unfold kmemZoneInit at hinit
        split at hinit
        · cases hinit
          intro z' zone' hzone'
          have hzone' : Function.update s.kmem.zones z (some ⟨size, [], 0⟩) z' = some zone' := hzone'
          by_cases hz : z' = z
          · rw [hz, Function.update_self] at hzone'
            cases hzone'
            exact .nil
          · rw [Function.update_of_ne hz] at hzone'
            exact hord z' zone' hzone'
        · cases hinit
      · cases hs
  | kmemZonealloc next depth z =>
      obtain ⟨⟨p, k⟩, halloc, rfl⟩ := Option.map_eq_some_iff.mp hs
      exact kmemZonealloc_ordered (k := { s.kmem with next := next }) { h with } hord halloc
  -- the one step that can break the order: a full slab gets an object back where it stands
  | kmemZonefree z ptr =>
      rw [step] at hs
      split at hs
      · rename_i hheld
        obtain ⟨k, hfree, rfl⟩ := Option.map_eq_some_iff.mp hs
        exact kmemZonefree_ordered h hord hheld hcond hfree
      · cases hs
  | write z ptr a v =>
      rw [step] at hs
      split at hs
      · rename_i hhas
        cases hs
        exact h.store_ordered hord hhas.1 hhas.2 (by simp) v
      · cases hs

/-- **New slabs.** In every run from `kmem_init` on in which objects are released only to slabs with no full
slab before them: in the queue of each zone the full slabs stand behind the others; and each call of
`kmem_zonealloc`, also one that `large_slab_new` makes, makes a new slab only if all slabs of the zone are
full. -/
theorem new_slab_when_full {mem : ℕ → ℕ} {s : State} (hinit : kmemInit mem = some k)
    (hreach : machine.Reach PutsInOrder ⟨k, []⟩ s) :
    Ordered s.kmem ∧ ∀ next depth z z' k' zone', Calls depth z { s.kmem with next := next } z' k' →
      k'.zones z' = some zone' → MakesSlab zone' k' → ∀ slab ∈ zone'.slablist, k'.mem (nfree slab) = 0 := by
  have hinv : (∃ G, Inv [] s.held G s.kmem) ∧ Ordered s.kmem := by
    refine hreach.invariant (I := fun s => (∃ G, Inv [] s.held G s.kmem) ∧ Ordered s.kmem)
      ⟨⟨[], inv_kmemInit hinit⟩, ordered_kmemInit hinit⟩ ?_
    intro s a s' h hcond hs
    obtain ⟨⟨G, hG⟩, hord⟩ := h
    exact ⟨inv_step ⟨G, hG⟩ hs, ordered_step hG hord hcond hs⟩
  obtain ⟨⟨G, h⟩, hord⟩ := hinv
  refine ⟨hord, fun next depth z z' k' zone' hcalls hzone' hmakes => ?_⟩
  have hinv : Inv [] s.held G { s.kmem with next := next } := { h with }
  exact (hcalls.ordered hinv hord).full hzone' hmakes

/-- Three objects of 1024 bytes in a large slab, of which the first is released, and one of 8 bytes. -/
def orderRun : List Action :=
  [.kmemZonealloc [0x1000, 0x10000, 0x2000] 2 25, .kmemZonealloc [] 2 25, .kmemZonealloc [] 2 25,
    .kmemZonefree 25 0x10000, .kmemZonealloc [0x3000] 1 2]

theorem new_slab_when_full_run :
    ∃ k s, kmemInit (fun _ => 0) = some k ∧ machine.exec ⟨k, []⟩ orderRun = some s ∧
      s.held = [(2, 0x3000), (25, 0x10800), (25, 0x10400)] ∧ Ordered s.kmem := by
  have hrun : ((kmemInit fun _ => 0).bind fun k => (machine.exec ⟨k, []⟩ orderRun).map fun s =>
      (s.held, machine.meets (fun s a => decide (PutsInOrder s a)) ⟨k, []⟩ orderRun))
        = some ([(2, 0x3000), (25, 0x10800), (25, 0x10400)], true) := by
    decide +kernel
  obtain ⟨k, hinit, hrun⟩ := Option.bind_eq_some_iff.mp hrun
  obtain ⟨s, hexec, hs⟩ := Option.map_eq_some_iff.mp hrun
  obtain ⟨hheld, hmeets⟩ := Prod.mk.inj hs
  have hreach : machine.Reach PutsInOrder ⟨k, []⟩ s :=
    Machine.reach_of_exec (fun _ _ hc => of_decide_eq_true hc) hmeets hexec
  exact ⟨k, s, hinit, hexec, hheld, (new_slab_when_full hinit hreach).1⟩

/-- Two slabs of 15 objects of 256 bytes are filled, and an object of the second one is released. -/
def refillRun : List Action :=
  List.replicate 15 (.kmemZonealloc [0x1000] 1 17) ++ List.replicate 15 (.kmemZonealloc [0x2000] 1 17) ++
    [.kmemZonefree 17 0x2000]

/-- The first slab is full and the second has a free object: `kmem_zonealloc` makes a third one. -/
theorem new_slab_before_full :
    ∃ k s s', kmemInit (fun _ => 0) = some k ∧ machine.exec ⟨k, []⟩ refillRun = some s ∧
      (∃ zone slab, s.kmem.zones 17 = some zone ∧ slab ∈ zone.slablist ∧ s.kmem.mem (nfree slab) = 1 ∧
        MakesSlab zone s.kmem) ∧
      ¬ Ordered s.kmem ∧ machine.step s (.kmemZonealloc [0x3000] 1 17) = some s' ∧
      (17, 0x3000) ∈ s'.held := by
  -- thirty objects of `kmem_256` fill two slabs, one of the second is freed, the next call makes a third
  have hrun : ((kmemInit fun _ => 0).bind fun k => (machine.exec ⟨k, []⟩ refillRun).bind fun s =>
      (machine.step s (.kmemZonealloc [0x3000] 1 17)).map fun s' => ((s.kmem.zones 17).map fun zone =>
        (zone.slablist, s.kmem.mem (nfree 0x1fe0), s.kmem.mem (nfree 0x2fe0)), s'.held.head?))
        = some (some ([0x1fe0, 0x2fe0], 0, 1), some (17, 0x3000)) := by
    decide +kernel
  obtain ⟨k, hinit, hrun⟩ := Option.bind_eq_some_iff.mp hrun
  obtain ⟨s, hexec, hrun⟩ := Option.bind_eq_some_iff.mp hrun
  obtain ⟨s', hstep, hs⟩ := Option.map_eq_some_iff.mp hrun
  obtain ⟨hqueue, hheld⟩ := Prod.mk.inj hs
  obtain ⟨zone, hzone, hqueue⟩ := Option.map_eq_some_iff.mp hqueue
  obtain ⟨hlist, hcounts⟩ := Prod.mk.inj hqueue
  obtain ⟨hfirst, hsecond⟩ := Prod.mk.inj hcounts
  refine ⟨k, s, s', hinit, hexec, ⟨zone, 0x2fe0, hzone, ?_, hsecond, ?_⟩, ?_, hstep, ?_⟩
  · rw [hlist]
    decide
  · intro slab hslab
    rw [hlist] at hslab
    cases hslab
    exact hfirst
  · intro hord
    have horder := hord 17 zone hzone
    unfold InOrder at horder
    rw [hlist] at horder
    have hzero := (List.pairwise_cons.mp horder).1 0x2fe0 List.mem_cons_self hfirst
    rw [hsecond] at hzero
    cases hzero
  · exact List.mem_of_mem_head? hheld

end Scalux.Kmem
