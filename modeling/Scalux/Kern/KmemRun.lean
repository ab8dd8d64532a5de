import Scalux.Kern.KmemAlloc
import Scalux.Kern.KmemFree

/-! # Runs of the slab allocator

Every run of `kmem_zone_init`, `kmem_zonealloc` and `kmem_zonefree` from `kmem_init` on, with callers that
store into the objects they hold.

* **`Sound`**: objects in use are apart from each other and from the headers in pages; each lies at its
  place in a slab of its zone; and the count of each slab is the length of its free list.
* **`kmem_sound`**: it holds in every state of every run. -/

namespace Scalux.Kmem

variable {pend held : List (ZoneId × ℕ)} {G : List Slab} {k k' : Allocator} {s t : Slab}
  {slab : ℕ} {z : ZoneId} {zone : Zone} {x : ZoneId × ℕ}

/-- The allocator and its callers. -/
structure State where
  kmem : Allocator
  /-- The objects that callers hold. -/
  held : List (ZoneId × ℕ)

/-- The calls; `next` are the addresses that `vm_kalloc` returns, and `depth` bounds the depth of the
recursion. -/
inductive Action
  | kmemZoneInit (z : ZoneId) (size : ℕ)
  | kmemZonealloc (next : List ℕ) (depth : ℕ) (z : ZoneId)
  | kmemZonefree (z : ZoneId) (ptr : ℕ)
  /-- A caller stores a word into an object that it holds. -/
  | write (z : ZoneId) (ptr a v : ℕ)
  deriving DecidableEq, Repr

/-- One call. -/
def step (s : State) : Action → Option State
  | .kmemZoneInit z size =>
      if 8 ∣ size ∧ size < 2 ^ 64 then (kmemZoneInit z size s.kmem).map fun k => ⟨k, s.held⟩ else none
  | .kmemZonealloc next depth z =>
      (kmemZonealloc depth z { s.kmem with next := next }).map fun x => ⟨x.2, (z, x.1) :: s.held⟩
  | .kmemZonefree z ptr =>
      if (z, ptr) ∈ s.held then (kmemZonefree z ptr s.kmem).map fun k => ⟨k, s.held.erase (z, ptr)⟩
      else none
  | .write z ptr a v =>
      if (z, ptr) ∈ s.held ∧ ptr ≤ a ∧ a < ptr + zoneSize s.kmem z then
        some ⟨store s.kmem a v, s.held⟩
      else none

/-- The runs of the allocator. -/
def machine : Machine State Action := ⟨step⟩

/-! ## What a run keeps -/

/-- A new zone has no slabs. -/
theorem Inv.zoneInit {size : ℕ} (h : Inv [] held G k) (hdvd : 8 ∣ size)
    (hs : kmemZoneInit z size k = some k') : Inv [] held G k' := by
  unfold kmemZoneInit at hs
  split at hs
  · rename_i hnone
    cases hs
    have hother : ∀ z', z' ≠ z → (setZone k z ⟨size, [], 0⟩).zones z' = k.zones z' :=
      fun z' hz => Function.update_of_ne hz _ _
    have hself : (setZone k z ⟨size, [], 0⟩).zones z = some ⟨size, [], 0⟩ := Function.update_self _ _ _
    -- a zone of the allocator or of a slab is an older one
    have hold : ∀ z', zoneSize k z' ≠ 0 → z' ≠ z := by
      rintro z' hsize rfl
      rw [zoneSize, hnone] at hsize
      exact hsize rfl
    have hsizes : ∀ z', zoneSize k z' ≠ 0 →
        zoneSize (setZone k z ⟨size, [], 0⟩) z' = zoneSize k z' := by
      intro z' hsize
      rw [zoneSize, hother z' (hold z' hsize), zoneSize]
    have hslab : ∀ s ∈ G, s.zone ≠ z := by
      intro s hs
      refine hold _ ?_
      rw [h.size_eq s hs]
      exact Nat.ne_of_gt (h.ok s hs).size_pos
    constructor
    case size_eq =>
      intro s hs
      rw [zoneSize, hother _ (hslab s hs)]
      exact h.size_eq s hs
    case size_dvd =>
      intro z' zone' hzone
      by_cases hz : z' = z
      · rw [hz, hself] at hzone
        cases hzone
        exact hdvd
      · exact h.size_dvd z' zone' (hother z' hz ▸ hzone)
    case slab_size =>
      refine (hsizes _ ?_).trans h.slab_size
      rw [h.slab_size]
      decide
    case bufctl_size =>
      refine (hsizes _ ?_).trans h.bufctl_size
      rw [h.bufctl_size]
      decide
    case ok => exact h.ok
    case run_mem => exact h.run_mem
    case apart => exact h.apart
    case queue =>
      intro z' zone' hzone
      by_cases hz : z' = z
      · rw [hz, hself] at hzone
        cases hzone
        have hnone : ((headers G).filter fun x => x.1 = z') = [] := by
          refine List.filter_eq_nil_iff.mpr fun x hx heq => ?_
          obtain ⟨s, hs, rfl⟩ := List.mem_map.mp hx
          exact hslab s hs ((of_decide_eq_true heq).trans hz)
        rw [List.nil_append, hnone]
        exact List.Perm.nil
      · exact h.queue z' zone' (hother z' hz ▸ hzone)
    case lists =>
      intro z' zone' hzone hlarge
      by_cases hz : z' = z
      · rw [hz, hself] at hzone
        cases hzone
        have hnone : (G.filter fun s => s.zone = z') = [] := by
          refine List.filter_eq_nil_iff.mpr fun s hs heq => ?_
          exact hslab s hs ((of_decide_eq_true heq).trans hz)
        refine ⟨[], rfl, ?_⟩
        rw [bufctls, hnone]
        exact List.Perm.nil
      · exact h.lists z' zone' (hother z' hz ▸ hzone) hlarge
    case live => exact h.live
    case owned => exact h.owned
  · cases hs

/-- The zones of `kmem_alloc`. -/
theorem Inv.zoneInits {l : List (ℕ × ℕ)} (h : Inv [] held G k) (hdvd : ∀ x ∈ l, 8 ∣ x.1)
    (hs : l.foldlM (fun k x => kmemZoneInit (x.2 + 2) x.1 k) k = some k') : Inv [] held G k' := by
  induction l generalizing k with
  | nil =>
      cases hs
      exact h
  | cons x l ih =>
      rw [List.foldlM_cons] at hs
      obtain ⟨k₁, hinit, hs⟩ := Option.bind_eq_some_iff.mp hs
      exact ih (h.zoneInit (hdvd x List.mem_cons_self) hinit)
        (fun y hy => hdvd y (List.mem_cons_of_mem _ hy)) hs

/-- `kmem_init` leaves no slabs and no objects. -/
theorem inv_kmemInit {mem : ℕ → ℕ} (hs : kmemInit mem = some k) : Inv [] [] [] k := by
  unfold kmemInit at hs
  dsimp only at hs
  obtain ⟨k₁, h₁, hs⟩ := Option.bind_eq_some_iff.mp hs
  obtain ⟨k₂, h₂, hs⟩ := Option.bind_eq_some_iff.mp hs
  obtain rfl := Option.some.inj h₁
  obtain rfl := Option.some.inj h₂
  have hsizes : ∀ x ∈ zoneSizes.zipIdx, 8 ∣ x.1 := by decide
  refine Inv.zoneInits ?_ hsizes hs
  -- the zones of headers and bufctls
  have hzones : ∀ z zone, (setZone (setZone ⟨fun _ => none, mem, [], [], []⟩ kmemSlab
      ⟨sizeofSlab + 8, [], 0⟩) kmemBufctl ⟨sizeofBufctl, [], 0⟩).zones z = some zone →
        8 ∣ zone.size ∧ zone.slablist = [] ∧ zone.bufctllist = 0 := by
    intro z zone hzone
    unfold setZone at hzone
    dsimp only at hzone
    by_cases hz : z = kmemBufctl
    · rw [hz, Function.update_self] at hzone
      cases hzone
      exact ⟨by decide, rfl, rfl⟩
    · rw [Function.update_of_ne hz] at hzone
      by_cases hz' : z = kmemSlab
      · rw [hz', Function.update_self] at hzone
        cases hzone
        exact ⟨by decide, rfl, rfl⟩
      · rw [Function.update_of_ne hz'] at hzone
        cases hzone
  constructor
  case size_eq => simp
  case size_dvd => exact fun z zone hzone => (hzones z zone hzone).1
  case slab_size => rfl
  case bufctl_size => rfl
  case ok => simp
  case run_mem => simp
  case apart => exact .nil
  case queue =>
    intro z zone hzone
    rw [(hzones z zone hzone).2.1]
    exact List.Perm.nil
  case lists =>
    intro z zone hzone _
    exact ⟨[], (hzones z zone hzone).2.2, List.Perm.nil⟩
  case live => exact List.Perm.nil
  case owned => exact List.Perm.nil

/-- Each call keeps the slabs. -/
theorem inv_step {s s' : State} {a : Action} (h : ∃ G, Inv [] s.held G s.kmem)
    (hs : step s a = some s') : ∃ G, Inv [] s'.held G s'.kmem := by
  obtain ⟨G, h⟩ := h
  cases a with
  | kmemZoneInit z size =>
      rw [step] at hs
      split at hs
      · rename_i hsize
        obtain ⟨k, hinit, rfl⟩ := Option.map_eq_some_iff.mp hs
        exact ⟨G, h.zoneInit hsize.1 hinit⟩
      · cases hs
  -- the pages that `vm_kalloc` may still give are an input of the step
  | kmemZonealloc next depth z =>
      obtain ⟨⟨p, k⟩, halloc, rfl⟩ := Option.map_eq_some_iff.mp hs
      obtain ⟨G', hinv, -⟩ := kmemZonealloc_spec (k := { s.kmem with next := next }) { h with } halloc
      exact ⟨G', hinv⟩
  | kmemZonefree z ptr =>
      rw [step] at hs
      split at hs
      · rename_i hheld
        obtain ⟨k, hfree, rfl⟩ := Option.map_eq_some_iff.mp hs
        obtain ⟨k', G', hfree', hinv, -⟩ :=
          kmemZonefree_spec (h.perm_held (List.perm_cons_erase hheld))
        rw [hfree] at hfree'
        cases hfree'
        exact ⟨G', hinv⟩
      · cases hs
  -- a word that the caller stores in an object it holds
  | write z ptr a v =>
      rw [step] at hs
      split at hs
      · rename_i hhas
        cases hs
        exact ⟨G, h.write hhas.1 hhas.2 v⟩
      · cases hs

/-! ## What holds in every state -/

/-- The objects in use of a slab. -/
def slabLive (k : Allocator) (zone : Zone) (slab : ℕ) : List (ZoneId × ℕ) :=
  k.live.filter fun x =>
    slabBase k zone slab ≤ x.2 ∧ x.2 < slabBase k zone slab + slabsize zone.size

/-- What holds of the objects in use and of the slabs. -/
structure Sound (s : State) : Prop where
  held_live : s.held.Subperm s.kmem.live
  apart : (s.kmem.live.map (block s.kmem)).Pairwise Apart
  hdr_apart : ∀ z zone, s.kmem.zones z = some zone → zone.size ≤ kSmallSlabMax →
    ∀ slab ∈ zone.slablist, ∀ x ∈ s.kmem.live, Apart (slab, sizeofSlab) (block s.kmem x)
  placed : ∀ x ∈ s.kmem.live, ∃ zone, s.kmem.zones x.1 = some zone ∧ ∃ slab ∈ zone.slablist,
    ∃ i < slabcapacity zone.size, x.2 = slabBase s.kmem zone slab + i * zone.size ∧
      x.2 + zone.size ≤ slabLimit s.kmem zone slab ∧ 8 ∣ x.2
  counts : ∀ z zone, s.kmem.zones z = some zone → ∀ slab ∈ zone.slablist,
    ∃ l, Chain s.kmem.mem (s.kmem.mem (firstfree slab)) l ∧ s.kmem.mem (nfree slab) = l.length ∧
      l.length = slabcapacity zone.size - (slabLive s.kmem zone slab).length ∧
      (slabLive s.kmem zone slab).length ≤ slabcapacity zone.size
  free : ∀ x ∈ s.held, (kmemZonefree x.1 x.2 s.kmem).isSome

/-- The objects in use of the first slab. -/
theorem Inv.length_slabLive (h : Inv pend held (s :: G) k) (hzone : k.zones s.zone = some zone) :
    (slabLive k zone s.hdr).length = s.taken.length := by
  have hok := h.ok s List.mem_cons_self
  have hsize := h.zone_size hzone
  have hobj : ∀ t ∈ s :: G, ∀ i ∈ t.taken, t.run.1 ≤ t.obj i ∧ t.obj i + t.size ≤ t.run.1 + t.run.2 := by
    intro t ht i hi
    have hmem : (t.obj i, t.size) ∈ t.blocks (List.range t.cap) :=
      List.mem_map.mpr ⟨i, List.mem_range.mpr (t.mem_taken.mp hi).1, rfl⟩
    exact (h.ok t ht).within_run (List.mem_append_right _ hmem)
  -- the live objects of this slab lie in its run
  have hin : ∀ x ∈ s.taken.map fun i => (s.zone, s.obj i),
      decide (s.data ≤ x.2 ∧ x.2 < s.data + slabsize s.size) = true := by
    intro x hx
    obtain ⟨i, hi, rfl⟩ := List.mem_map.mp hx
    obtain ⟨hle, hlt⟩ := hobj s List.mem_cons_self i hi
    have hpos := hok.size_pos
    refine decide_eq_true ⟨hle, ?_⟩
    exact Nat.lt_of_lt_of_le (Nat.lt_add_of_pos_right hpos) hlt
  -- those of the other slabs do not, since the runs are apart
  have hout : ∀ x ∈ objects G, ¬ decide (s.data ≤ x.2 ∧ x.2 < s.data + slabsize s.size) = true := by
    intro x hx hmem
    obtain ⟨t, ht, hx⟩ := List.mem_flatMap.mp hx
    obtain ⟨i, hi, rfl⟩ := List.mem_map.mp hx
    obtain ⟨hle, hlt⟩ := hobj t (List.mem_cons_of_mem _ ht) i hi
    have hpos := (h.ok t (List.mem_cons_of_mem _ ht)).size_pos
    have hapart := (List.pairwise_cons.mp h.apart).1 t.run (List.mem_map_of_mem ht)
    have hhas : Has s.run (t.obj i) := of_decide_eq_true (p := _ ∧ _) hmem
    refine hapart.not_has hhas ⟨hle, ?_⟩
    exact Nat.lt_of_lt_of_le (Nat.lt_add_of_pos_right hpos) hlt
  have hperm := h.live.filter fun x => s.data ≤ x.2 ∧ x.2 < s.data + slabsize s.size
  have hobjects : objects (s :: G) = (s.taken.map fun i => (s.zone, s.obj i)) ++ objects G := rfl
  rw [hobjects, List.filter_append, List.filter_eq_self.mpr hin,
    List.filter_eq_nil_iff.mpr hout, List.append_nil] at hperm
  unfold slabLive
  rw [(h.base_limit hzone).1, hsize]
  refine hperm.length_eq.trans ?_
  rw [List.length_map]

/-- The headers in pages and the objects in use are apart. -/
theorem Inv.live_apart (h : Inv pend held G k) :
    (G.flatMap Slab.inPage ++ k.live.map (block k)).Pairwise Apart := by
  have htaken : ∀ s ∈ G, (s.blocks s.taken).Sublist (s.blocks (List.range s.cap)) := by
    intro s _
    exact (List.filter_sublist).map _
  have hblocks : (G.flatMap Slab.inPage ++ k.live.map (block k)).Perm
      (G.flatMap fun s => s.inPage ++ s.blocks s.taken) := by
    refine ((h.live.map (block k)).append_left _).trans ?_
    rw [h.objects_blocks]
    exact List.flatMap_append_perm _ _ _
  refine pairwise_apart_of_subperm h.pages_apart (hblocks.subperm.trans ?_)
  exact (List.Sublist.flatMap_right G fun s hs => (List.Sublist.refl _).append (htaken s hs)).subperm

/-- The slabs give what is claimed of them. -/
theorem Inv.sound {s : State} (h : Inv [] s.held G s.kmem) : Sound s := by
  constructor
  case held_live => exact (List.sublist_append_left _ _).subperm.trans h.owned.symm.subperm
  case apart => exact (List.pairwise_append.mp h.live_apart).2.1
  case hdr_apart =>
    intro z zone hzone hsmall slab hslab x hx
    obtain ⟨t, G', hperm, rfl, rfl⟩ := h.slab_of_mem (by simp) hzone hslab
    refine (List.pairwise_append.mp h.live_apart).2.2 _ ?_ _ (List.mem_map_of_mem hx)
    refine List.mem_flatMap.mpr ⟨t, hperm.mem_iff.mpr List.mem_cons_self, ?_⟩
    unfold Slab.inPage
    rw [if_pos ((h.perm hperm).zone_size hzone ▸ hsmall)]
    exact List.mem_cons_self
  -- a live object is one of its slab, at `data + i * size`
  case placed =>
    intro x hx
    obtain ⟨t, ht, hx⟩ := List.mem_flatMap.mp (h.live.mem_iff.mp hx)
    obtain ⟨i, hi, rfl⟩ := List.mem_map.mp hx
    obtain ⟨G₁, G₂, rfl⟩ := List.append_of_mem ht
    have h' := h.perm List.perm_middle
    have hok := h'.ok t List.mem_cons_self
    obtain ⟨zone, hzone⟩ := h'.zone_exists List.mem_cons_self
    obtain ⟨hbase, hlimit⟩ := h'.base_limit hzone
    have hcap := (t.mem_taken.mp hi).1
    have hsize := h'.zone_size hzone
    refine ⟨zone, hzone, t.hdr, h'.hdr_mem hzone, i, ?_, ?_, ?_, ?_⟩
    · rw [hsize]
      exact hcap
    · rw [hbase, hsize]
      rfl
    · rw [hsize]
      exact (Slab.obj_add_le hcap).trans hlimit
    · have hpg : 8 ∣ pgSize := by decide
      exact Nat.dvd_add (hpg.trans hok.data_dvd) (Dvd.dvd.mul_left hok.size_dvd i)
  -- the free entries and the objects in use are all the entries of the slab
  case counts =>
    intro z zone hzone slab hslab
    obtain ⟨t, G', hperm, rfl, rfl⟩ := h.slab_of_mem (by simp) hzone hslab
    have h' := h.perm hperm
    have hok := h'.ok t List.mem_cons_self
    have hlen := hok.range_perm.length_eq
    rw [List.length_range, List.length_append] at hlen
    rw [h'.length_slabLive hzone, h'.zone_size hzone]
    refine ⟨_, hok.chain, ?_, ?_, ?_⟩
    · rw [List.length_map]
      exact hok.nfree_eq
    · rw [List.length_map]
      unfold Slab.cap at hlen
      omega
    · unfold Slab.cap at hlen
      omega
  case free =>
    intro x hx
    obtain ⟨k', G', hfree, -⟩ := kmemZonefree_spec (h.perm_held (List.perm_cons_erase hx))
    rw [hfree]
    rfl

/-- **The slab allocator.** In every run of `kmem_zone_init`, `kmem_zonealloc` and `kmem_zonefree` from
`kmem_init` on, in which callers store into the objects they hold: the objects in use, headers and bufctls
included, are apart; each lies at its place in a slab of its zone, below the header of a small slab; the
count of each slab is the length of its free list, and what its objects in use leave of its capacity; and
`kmem_zonefree` of an object returns. -/
theorem kmem_sound {mem : ℕ → ℕ} {k : Allocator} {s : State} (hinit : kmemInit mem = some k)
    (hreach : machine.Reachable ⟨k, []⟩ s) : Sound s := by
  have hinv : ∃ G, Inv [] s.held G s.kmem := by
    refine hreach.invariant (I := fun s => ∃ G, Inv [] s.held G s.kmem) ⟨[], inv_kmemInit hinit⟩ ?_
    intro s a s' h _ hs
    exact inv_step h hs
  obtain ⟨G, hinv⟩ := hinv
  exact hinv.sound

/-- A run on two zones: the large slab has its header and its bufctls in slabs of their own. -/
theorem kmem_sound_large :
    ∃ k s, kmemInit (fun _ => 0) = some k ∧
      machine.exec ⟨k, []⟩ [.kmemZonealloc [0x1000, 0x10000, 0x2000] 2 25, .kmemZonealloc [] 2 25,
        .write 25 0x10400 0x10400 7, .kmemZonefree 25 0x10000, .kmemZonealloc [0x3000] 1 2] = some s ∧
      s.held = [(2, 0x3000), (25, 0x10400)] ∧ s.kmem.live.length = 19 ∧ Sound s := by
  have hrun : (((kmemInit fun _ => 0).bind fun k => machine.exec ⟨k, []⟩
      [.kmemZonealloc [0x1000, 0x10000, 0x2000] 2 25, .kmemZonealloc [] 2 25,
        .write 25 0x10400 0x10400 7, .kmemZonefree 25 0x10000, .kmemZonealloc [0x3000] 1 2]).map
        fun s => (s.held, s.kmem.live.length)) = some ([(2, 0x3000), (25, 0x10400)], 19) := by
    decide +kernel
  obtain ⟨s, hexec, hs⟩ := Option.map_eq_some_iff.mp hrun
  obtain ⟨k, hinit, hexec⟩ := Option.bind_eq_some_iff.mp hexec
  obtain ⟨hheld, hlive⟩ := Prod.mk.inj hs
  exact ⟨k, s, hinit, hexec, hheld, hlive, kmem_sound hinit (Machine.reachable_of_exec hexec)⟩

end Scalux.Kmem
