import Mathlib.Data.List.Pairwise
import Scalux.Kern.KmemInv

/-! # Allocation and release

What `kmem_zonealloc` and `kmem_zonefree` do to a slab, and the new slabs. -/

namespace Scalux.Kmem

variable {pend held : List (ZoneId × ℕ)} {G : List Slab} {k k' : Allocator} {s : Slab}
  {mem mem' : ℕ → ℕ} {i j o o' p : ℕ} {z : ZoneId} {rest : List ℕ}

/-! ## The words of a slab -/

/-- The header and a bufctl of a large slab. -/
theorem Inv.hdr_ne_ctl (h : Inv pend held (s :: G) k) (hlarge : kSmallSlabMax < s.size)
    (hi : i < s.cap) (ho : o < sizeofSlab + 8) (ho' : o' < sizeofBufctl) :
    s.ctl i + o' ≠ s.hdr + o := by
  have hapart := h.used_apart_self
  unfold Slab.used at hapart
  rw [if_neg (Nat.not_le.mpr hlarge)] at hapart
  have hblock := (List.pairwise_cons.mp hapart).1 (s.ctl i, sizeofBufctl)
    (List.mem_map.mpr ⟨i, List.mem_range.mpr hi, rfl⟩)
  exact (hblock.ne ⟨Nat.le_add_right _ _, Nat.add_lt_add_left ho _⟩
    ⟨Nat.le_add_right _ _, Nat.add_lt_add_left ho' _⟩).symm

/-- The header of a slab and the link of an object. -/
theorem Inv.hdr_ne_link (h : Inv pend held (s :: G) k) (hi : i < s.cap) (ho : o < sizeofSlab) :
    s.ctl i ≠ s.hdr + o := by
  have hok := h.ok s List.mem_cons_self
  by_cases hsmall : s.size ≤ kSmallSlabMax
  · have hhdr : (s.hdr, sizeofSlab) ∈ s.inPage := by
      unfold Slab.inPage
      rw [if_pos hsmall]
      exact List.mem_cons_self
    have hapart := (List.pairwise_append.mp hok.blocks_apart).2.2 _ hhdr (s.obj i, s.size)
      (List.mem_map.mpr ⟨i, List.mem_range.mpr hi, rfl⟩)
    rw [(hok.small hsmall).2 i]
    exact (hapart.ne ⟨Nat.le_add_right _ _, Nat.add_lt_add_left ho _⟩
      ⟨Nat.le_refl _, Nat.lt_add_of_pos_right hok.size_pos⟩).symm
  · exact h.hdr_ne_ctl (Nat.not_le.mp hsmall) hi (Nat.lt_of_lt_of_le ho (Nat.le_add_right _ _))
      (show 0 < sizeofBufctl by decide)

/-- Two bufctls of a large slab. -/
theorem Inv.ctl_ne_ctl (h : Inv pend held (s :: G) k) (hlarge : kSmallSlabMax < s.size)
    (hi : i < s.cap) (hj : j < s.cap) (hij : i ≠ j) (ho : o < sizeofBufctl) (ho' : o' < sizeofBufctl) :
    s.ctl i + o ≠ s.ctl j + o' := by
  have hapart := h.used_apart_self
  unfold Slab.used at hapart
  rw [if_neg (Nat.not_le.mpr hlarge)] at hapart
  have hpair := List.pairwise_map.mp (List.pairwise_cons.mp hapart).2
  have hsymm : Std.Symm fun a b => Apart (s.ctl a, sizeofBufctl) (s.ctl b, sizeofBufctl) :=
    ⟨fun _ _ h => h.symm⟩
  have hblock := hpair.forall (List.mem_range.mpr hi) (List.mem_range.mpr hj) hij
  exact hblock.ne ⟨Nat.le_add_right _ _, Nat.add_lt_add_left ho _⟩
    ⟨Nat.le_add_right _ _, Nat.add_lt_add_left ho' _⟩

/-- The links of two objects. -/
theorem Inv.link_ne_link (h : Inv pend held (s :: G) k) (hi : i < s.cap) (hj : j < s.cap)
    (hij : i ≠ j) : s.ctl i ≠ s.ctl j := by
  have hok := h.ok s List.mem_cons_self
  by_cases hsmall : s.size ≤ kSmallSlabMax
  · rw [(hok.small hsmall).2, (hok.small hsmall).2]
    have hpos := hok.size_pos
    exact (Slab.obj_apart hij).ne ⟨Nat.le_refl _, Nat.lt_add_of_pos_right hpos⟩
      ⟨Nat.le_refl _, Nat.lt_add_of_pos_right hpos⟩
  · exact h.ctl_ne_ctl (Nat.not_le.mp hsmall) hi hj hij (show 0 < sizeofBufctl by decide)
      (show 0 < sizeofBufctl by decide)

/-- There are at most as many free objects as objects. -/
theorem Slab.Ok.length_free_le (h : s.Ok mem) : s.free.length ≤ s.cap :=
  length_le_of_nodup h.free_nodup h.free_lt

/-- The capacity is a 32-bit number. -/
theorem Slab.cap_lt (s : Slab) : s.cap < 2 ^ 32 := by
  unfold cap slabcapacity
  split <;> exact Nat.mod_lt _ (by decide)

/-- What does not change of a large slab if only the count, the first link and the link of one object
change. -/
theorem Inv.large_words (h : Inv pend held (s :: G) k) (hok : s.Ok mem) (hi : i < s.cap)
    (hmem : ∀ a, a ≠ nfree s.hdr → a ≠ firstfree s.hdr → a ≠ s.ctl i → mem' a = mem a)
    (hlarge : kSmallSlabMax < s.size) : mem' (slabData s.hdr) = s.data ∧
      ∀ j < s.cap, mem' (ctlSlab (s.ctl j)) = s.hdr ∧ mem' (ctlBase (s.ctl j)) = s.obj j := by
  obtain ⟨hdata, hctl⟩ := hok.large hlarge
  refine ⟨?_, fun j hj => ?_⟩
  · refine (hmem _ ?_ ?_ ?_).trans hdata
    · show s.hdr + 32 ≠ s.hdr + 16
      omega
    · show s.hdr + 32 ≠ s.hdr + 24
      omega
    · exact (h.hdr_ne_ctl hlarge hi (show 32 < sizeofSlab + 8 by decide)
        (show 0 < sizeofBufctl by decide)).symm
  -- the other words of the bufctls of this slab are not among the three written
  · have hword : ∀ o, 0 < o → o < sizeofBufctl → mem' (s.ctl j + o) = mem (s.ctl j + o) := by
      intro o hpos ho
      refine hmem _ (h.hdr_ne_ctl hlarge hj (by decide) ho) (h.hdr_ne_ctl hlarge hj (by decide) ho) ?_
      by_cases hij : j = i
      · subst hij
        omega
      · exact h.ctl_ne_ctl hlarge hj hi hij ho (show 0 < sizeofBufctl by decide)
    obtain ⟨hslab, hbase⟩ := hctl j hj
    exact ⟨(hword 8 (by decide) (by decide)).trans hslab,
      (hword 16 (by decide) (by decide)).trans hbase⟩

/-- The link of another object does not change either. -/
theorem Inv.link_word (h : Inv pend held (s :: G) k) (hi : i < s.cap)
    (hmem : ∀ a, a ≠ nfree s.hdr → a ≠ firstfree s.hdr → a ≠ s.ctl i → mem' a = mem a)
    (hj : j < s.cap) (hij : j ≠ i) : mem' (s.ctl j) = mem (s.ctl j) :=
  hmem _ (h.hdr_ne_link hj (by decide)) (h.hdr_ne_link hj (by decide)) (h.link_ne_link hj hi hij)

/-! ## An object is taken -/

/-- The slab after its first free object has been taken: only the count, the first link and the link of
the object have changed. -/
theorem Inv.ok_take (h : Inv pend held (s :: G) k) (hfree : s.free = i :: rest)
    (hn : mem' (nfree s.hdr) = rest.length) (hfirst : mem' (firstfree s.hdr) = k.mem (s.ctl i))
    (hmem : ∀ a, a ≠ nfree s.hdr → a ≠ firstfree s.hdr → a ≠ s.ctl i → mem' a = k.mem a) :
    (s.withFree rest).Ok mem' := by
  have hok := h.ok s List.mem_cons_self
  have hnd : i ∉ rest ∧ rest.Nodup := List.nodup_cons.mp (hfree ▸ hok.free_nodup)
  have hsub : ∀ j ∈ rest, j ∈ s.free := fun j hj => hfree ▸ List.mem_cons_of_mem i hj
  have hi : i ∈ s.free := hfree ▸ List.mem_cons_self
  have hchain := hok.chain
  rw [hfree] at hchain
  refine { hok with
    free_nodup := hnd.2, free_lt := fun j hj => hok.free_lt j (hsub j hj), nfree_eq := hn,
    chain := ?_, large := ?_ }
  -- the chain of what stays free starts where the link of `i` pointed
  · show Chain mem' (mem' (firstfree s.hdr)) (rest.map s.ctl)
    rw [hfirst, ← hchain.1]
    obtain ⟨heq, -, hrest⟩ := hchain
    rw [heq]
    refine hrest.congr fun a ha => ?_
    obtain ⟨j, hj, rfl⟩ := List.mem_map.mp ha
    refine h.link_word (hok.free_lt i hi) hmem (hok.free_lt j (hsub j hj)) ?_
    rintro rfl
    exact hnd.1 hj
  · exact h.large_words hok (hok.free_lt i hi) hmem

/-- What an allocation from the zone `z` leaves to callers and to other zones. -/
structure Frame (z : ZoneId) (held : List (ZoneId × ℕ)) (k k' : Allocator) : Prop where
  zones : ∀ z', z' ≠ z → k'.zones z' = k.zones z'
  sizes : zoneSize k' = zoneSize k
  words : ∀ x ∈ held, ∀ a, Has (block k x) a → k'.mem a = k.mem a
  runs : k.runs ⊆ k'.runs

/-- Pages that no slab has stay apart from the slabs. -/
def Spares (k : Allocator) (G G' : List Slab) : Prop :=
  ∀ r ∈ k.runs, (∀ t ∈ G, Apart r t.run) → ∀ t ∈ G', Apart r t.run

/-- A slab keeps its pages. -/
theorem spares_withFree (s : Slab) (free : List ℕ) (G : List Slab) :
    Spares k (s :: G) (s.withFree free :: G) := by
  intro r _ hspare t ht
  rcases List.mem_cons.mp ht with rfl | ht
  · exact hspare s List.mem_cons_self
  · exact hspare t (List.mem_cons_of_mem _ ht)

/-- The slabs of zones other than `z` stay as they are. -/
def Stays (z : ZoneId) (G G' : List Slab) : Prop := ∀ t ∈ G, t.zone ≠ z → t ∈ G'

theorem stays_withFree (s : Slab) (free : List ℕ) (G : List Slab) :
    Stays s.zone (s :: G) (s.withFree free :: G) := by
  intro t ht hz
  rcases List.mem_cons.mp ht with rfl | ht
  · exact absurd rfl hz
  · exact List.mem_cons_of_mem _ ht

theorem Stays.trans {z : ZoneId} {G₁ G₂ : List Slab} (h : Stays z G G₁) (h' : Stays z G₁ G₂) :
    Stays z G G₂ := fun t ht hz => h' t (h t ht hz) hz

/-- An address outside of the blocks that the allocator uses is not in a header. -/
theorem Slab.hdr_used {a : ℕ} (h : ∀ b ∈ (s :: G).flatMap Slab.used, ¬ Has b a) :
    ∀ o < sizeofSlab, a ≠ s.hdr + o := by
  rintro o ho rfl
  obtain ⟨b, hb, hhas⟩ := Slab.hdr_has (s := s) (Nat.lt_of_lt_of_le ho (Nat.le_add_right _ _))
  exact h b (List.mem_flatMap.mpr ⟨s, List.mem_cons_self, hb⟩) hhas

/-- A slab that goes to the end of a queue. -/
theorem requeue_spec (zone : Zone) {slab : ℕ} (next : ℕ) (hmem : slab ∈ zone.slablist) :
    (requeue zone slab next).size = zone.size ∧
      (requeue zone slab next).slablist.Perm zone.slablist ∧
      (requeue zone slab next).bufctllist = zone.bufctllist := by
  unfold requeue
  split
  · exact ⟨rfl, List.perm_append_comm.trans (List.perm_cons_erase hmem).symm, rfl⟩
  · exact ⟨rfl, List.Perm.refl _, rfl⟩

/-- The zone of a slab. -/
theorem Inv.zone_exists (h : Inv pend held G k) (hs : s ∈ G) : ∃ zone, k.zones s.zone = some zone := by
  cases hzone : k.zones s.zone with
  | none =>
      have hsize := h.size_eq s hs
      rw [zoneSize, hzone] at hsize
      exact absurd hsize.symm (Nat.ne_of_gt (h.ok s hs).size_pos)
  | some zone => exact ⟨zone, rfl⟩

/-- The size of the zone of the first slab. -/
theorem Inv.zone_size (h : Inv pend held (s :: G) k) {zone : Zone}
    (hzone : k.zones s.zone = some zone) : zone.size = s.size :=
  h.size_of_zone List.mem_cons_self hzone

/-- The first slab is in the queue of its zone. -/
theorem Inv.hdr_mem (h : Inv pend held (s :: G) k) {zone : Zone}
    (hzone : k.zones s.zone = some zone) : s.hdr ∈ zone.slablist := by
  refine (h.queue s.zone zone hzone).mem_iff.mpr (List.mem_map.mpr ⟨(s.zone, s.hdr), ?_, rfl⟩)
  refine List.mem_filter.mpr ⟨List.mem_append_right _ List.mem_cons_self, ?_⟩
  exact decide_eq_true rfl

/-- The bufctls of the first slab and of the others. -/
theorem bufctls_cons_self (s : Slab) :
    bufctls (s :: G) s.zone = s.taken.map s.ctl ++ bufctls G s.zone := by
  unfold bufctls
  rw [List.filter_cons, if_pos (decide_eq_true rfl), List.flatMap_cons]

/-- A bufctl in use is one of the first slab or in a block of another one. -/
theorem Inv.mem_bufctls (h : Inv pend held (s :: G) k) {zone : Zone}
    (hzone : k.zones s.zone = some zone) (hlarge : kSmallSlabMax < zone.size) {a : ℕ}
    (ha : a ∈ bufctls (s :: G) s.zone) :
    (∃ j ∈ s.taken, s.ctl j = a) ∨ ∃ b ∈ G.flatMap Slab.used, Has b a := by
  rw [bufctls_cons_self] at ha
  rcases List.mem_append.mp ha with ha | ha
  · exact .inl (List.mem_map.mp ha)
  · exact .inr (h.bufctl_has hzone hlarge (List.subset_cons_self s G) ha)

/-- The objects in use are those that are not free. -/
theorem Slab.mem_taken (s : Slab) : i ∈ s.taken ↔ i < s.cap ∧ i ∉ s.free := by
  rw [taken, List.mem_filter, List.mem_range, decide_eq_true_iff]

/-- The link of a free object is not at the null address. -/
theorem Slab.Ok.ctl_ne_zero (h : s.Ok mem) (hi : i ∈ s.free) : s.ctl i ≠ 0 :=
  h.chain.ne_zero (List.mem_map_of_mem hi)

/-- The first free object of a slab is taken. -/
theorem Inv.take (h : Inv pend held (s :: G) k) (hfree : s.free = i :: rest) {zone zone' : Zone}
    (hzone : k.zones s.zone = some zone) (hsize : zone'.size = zone.size)
    (hqueue : zone'.slablist.Perm zone.slablist)
    (hn : mem' (nfree s.hdr) = rest.length) (hfirst : mem' (firstfree s.hdr) = k.mem (s.ctl i))
    (hmem : ∀ a, a ≠ nfree s.hdr → a ≠ firstfree s.hdr → a ≠ s.ctl i → mem' a = k.mem a)
    (hlist : kSmallSlabMax < zone.size →
      zone'.bufctllist = s.ctl i ∧ mem' (s.ctl i) = zone.bufctllist)
    (hk : k' = { k with
      zones := Function.update k.zones s.zone (some zone'), mem := mem',
      live := (s.zone, s.obj i) :: k.live }) :
    Inv pend ((s.zone, s.obj i) :: held) (s.withFree rest :: G) k' ∧ Frame s.zone held k k' := by
  have hok := h.ok s List.mem_cons_self
  have hi : i ∈ s.free := hfree ▸ List.mem_cons_self
  have hnd : i ∉ rest ∧ rest.Nodup := List.nodup_cons.mp (hfree ▸ hok.free_nodup)
  -- the words that change are in blocks of this slab
  have hword : ∀ b ∈ G.flatMap Slab.used ++ held.map (block k), ∀ a, Has b a → mem' a = k.mem a := by
    intro b hb a ha
    have hother : ∀ c, (∃ b ∈ s.used, Has b c) → a ≠ c := fun c hc =>
      h.others_apart hc ⟨b, hb, ha⟩
    have hhdr : ∀ o, o < sizeofSlab → a ≠ s.hdr + o := fun o ho =>
      hother _ (Slab.hdr_has (Nat.lt_of_lt_of_le ho (Nat.le_add_right _ _)))
    exact hmem a (hhdr 16 (by decide)) (hhdr 24 (by decide)) (hother _ (hok.free_has hi))
  have htaken : (s.withFree rest).taken.Perm (i :: s.taken) := by
    have hperm := s.taken_perm (hok.free_lt i hi) hnd.1
    rwa [← hfree] at hperm
  subst hk
  refine ⟨h.replace hzone rfl hsize hqueue rfl ?_ (h.ok_take hfree hn hfirst hmem) ?_ ?_ ?_ ?_, ?_⟩
  · intro t ht
    have htok := h.ok t (List.mem_cons_of_mem _ ht)
    refine htok.congr fun a ha => ?_
    obtain ⟨b, hb, hhas⟩ := htok.reads_has ha
    exact hword b (List.mem_append_left _ (List.mem_flatMap.mpr ⟨t, ht, hb⟩)) a hhas
  · intro z zone₁ _ hzone₁ hlarge a ha
    obtain ⟨b, hb, hhas⟩ := h.bufctl_has hzone₁ hlarge (List.subset_cons_self s G) ha
    exact hword b (List.mem_append_left _ hb) a hhas
  · intro hlarge
    obtain ⟨hhead, hlink⟩ := hlist hlarge
    obtain ⟨l, hchain, hperm⟩ := h.lists s.zone zone hzone hlarge
    have hl : ∀ a ∈ l, mem' a = k.mem a := by
      intro a ha
      rcases h.mem_bufctls hzone hlarge (hperm.mem_iff.mp ha) with ⟨j, hj, rfl⟩ | ⟨b, hb, hhas⟩
      · obtain ⟨hcap, hnot⟩ := s.mem_taken.mp hj
        refine h.link_word (hok.free_lt i hi) hmem hcap ?_
        rintro rfl
        exact hnot hi
      · exact hword b (List.mem_append_left _ hb) a hhas
    have htail : Chain mem' (mem' (s.ctl i)) l := by
      rw [hlink]
      exact hchain.congr hl
    refine ⟨s.ctl i :: l, ⟨hhead, hok.ctl_ne_zero hi, htail⟩, ?_⟩
    have hcons : bufctls (s.withFree rest :: G) s.zone
        = (s.withFree rest).taken.map s.ctl ++ bufctls G s.zone := bufctls_cons_self (s.withFree rest)
    rw [hcons]
    refine (hperm.cons _).trans ?_
    rw [bufctls_cons_self s]
    exact (htaken.symm.map s.ctl).append_right (bufctls G s.zone)
  · refine (h.live.cons _).trans ?_
    exact (htaken.symm.map fun j => (s.zone, s.obj j)).append_right (objects G)
  · exact h.owned.cons _
  · constructor
    case zones => exact fun z' hz => Function.update_of_ne hz _ _
    case sizes =>
      funext z'
      unfold zoneSize
      dsimp only
      by_cases hz : z' = s.zone
      · rw [hz, Function.update_self, hzone]
        exact hsize
      · rw [Function.update_of_ne hz]
    case words =>
      exact fun x hx a ha => hword _ (List.mem_append_right _ (List.mem_map_of_mem hx)) a ha
    case runs => exact fun r hr => hr

/-- `kmem_zonealloc` from a slab with a free object. -/
theorem takeFirst_spec (h : Inv pend held (s :: G) k) (hfree : s.free = i :: rest) {zone : Zone}
    (hzone : k.zones s.zone = some zone) (hs : takeFirst s.zone s.hdr k = some (p, k')) :
    (∃ zone', k'.zones s.zone = some zone' ∧
        zone'.slablist = (requeue zone s.hdr (k.mem (s.ctl i))).slablist) ∧
      Inv pend ((s.zone, p) :: held) (s.withFree rest :: G) k' ∧ Frame s.zone held k k' := by
  have hok := h.ok s List.mem_cons_self
  have hi : i ∈ s.free := hfree ▸ List.mem_cons_self
  unfold takeFirst at hs
  rw [hzone] at hs
  have hsize : zone.size = s.size := h.zone_size hzone
  obtain ⟨hsize', hqueue, hlist⟩ := requeue_spec zone (k.mem (s.ctl i)) (h.hdr_mem hzone)
  -- `nfree` is an unsigned int, decremented before the entry is taken
  have hcount : (k.mem (nfree s.hdr) + (2 ^ 32 - 1)) % 2 ^ 32 = rest.length := by
    have hlen := hok.length_free_le
    have hcap := s.cap_lt
    rw [hok.nfree_eq, hfree]
    rw [hfree] at hlen
    simp only [List.length_cons] at hlen ⊢
    omega
  have hne : nfree s.hdr ≠ firstfree s.hdr := by
    unfold nfree firstfree
    omega
  have hchain := hok.chain
  rw [hfree] at hchain
  obtain ⟨hentry, hnull, -⟩ := hchain
  have hfirst : (store k (nfree s.hdr) rest.length).mem (firstfree s.hdr) = s.ctl i :=
    (Function.update_of_ne hne.symm _ _).trans hentry
  -- the link is read after `nfree` is stored, which is another word
  have hnext : (store k (nfree s.hdr) rest.length).mem (sleNext (s.ctl i)) = k.mem (s.ctl i) :=
    Function.update_of_ne (h.hdr_ne_link (hok.free_lt i hi) (by decide)) _ _
  have hmem₂ : ∀ v, Function.update (store k (nfree s.hdr) rest.length).mem (firstfree s.hdr) v
      (nfree s.hdr) = rest.length := by
    intro v
    rw [Function.update_of_ne hne]
    exact Function.update_self _ _ _
  dsimp only [Option.bind_eq_bind, Option.bind_some] at hs
  rw [hcount, hfirst, if_neg hnull, hnext] at hs
  split at hs
  · rename_i hsmall
    rw [hsize', hsize] at hsmall
    -- small slab: the entry is the object, its first word is the link
    have hobj := (hok.small hsmall).2 i
    cases hs
    refine ⟨⟨_, Function.update_self _ _ _, rfl⟩, hobj ▸ h.take hfree hzone hsize' hqueue (hmem₂ _)
      (Function.update_self _ _ _) ?_ ?_ (by rw [hobj]; rfl)⟩
    · intro a ha hb _
      exact (Function.update_of_ne hb _ _).trans (Function.update_of_ne ha _ _)
    · intro hlarge
      exact absurd hsmall (Nat.not_le.mpr (hsize ▸ hlarge))
  · rename_i hlarge
    rw [hsize', hsize] at hlarge
    have hlarge : kSmallSlabMax < s.size := Nat.not_le.mp hlarge
    have hicap := hok.free_lt i hi
    -- large slab: the entry is a `bufctl`, which joins the list of the zone, and its `base` is returned
    have hctl : ∀ o o', o < sizeofSlab → o' < sizeofBufctl → s.ctl i + o' ≠ s.hdr + o :=
      fun o o' ho ho' => h.hdr_ne_ctl hlarge hicap (Nat.lt_of_lt_of_le ho (Nat.le_add_right _ _)) ho'
    have hself : s.ctl i + 16 ≠ s.ctl i := by omega
    have hbase : ∀ v w, Function.update (Function.update (store k (nfree s.hdr) rest.length).mem
        (firstfree s.hdr) v) (s.ctl i) w (s.ctl i + 16) = s.obj i := by
      intro v w
      have hfirst : s.ctl i + 16 ≠ firstfree s.hdr := hctl 24 16 (by decide) (by decide)
      rw [Function.update_of_ne hself, Function.update_of_ne hfirst]
      exact (Function.update_of_ne (hctl 16 16 (by decide) (by decide)) _ _).trans
        ((hok.large hlarge).2 i hicap).2
    cases hs
    refine ⟨⟨_, Function.update_self _ _ _, rfl⟩, ?_⟩
    have hmem₃ : ∀ v w o, o < sizeofSlab → Function.update (Function.update
        (store k (nfree s.hdr) rest.length).mem (firstfree s.hdr) v) (s.ctl i) w (s.hdr + o)
          = Function.update (store k (nfree s.hdr) rest.length).mem (firstfree s.hdr) v (s.hdr + o) :=
      fun v w o ho => Function.update_of_ne (hctl o 0 ho (by decide)).symm _ _
    have hret : (setZone (store (store (store k (nfree s.hdr) rest.length) (firstfree s.hdr)
        (k.mem (s.ctl i))) (sleNext (s.ctl i)) (requeue zone s.hdr (k.mem (s.ctl i))).bufctllist) s.zone
        { requeue zone s.hdr (k.mem (s.ctl i)) with bufctllist := s.ctl i }).mem (ctlBase (s.ctl i))
          = s.obj i := hbase _ _
    rw [hret]
    have hsize' : ({ requeue zone s.hdr (k.mem (s.ctl i)) with bufctllist := s.ctl i } : Zone).size
        = zone.size := hsize'
    refine h.take hfree hzone hsize' hqueue ((hmem₃ _ _ 16 (by decide)).trans (hmem₂ _))
      ((hmem₃ _ _ 24 (by decide)).trans (Function.update_self _ _ _)) ?_ ?_ rfl
    · intro a ha hb hc
      exact (Function.update_of_ne hc _ _).trans
        ((Function.update_of_ne hb _ _).trans (Function.update_of_ne ha _ _))
    · intro _
      exact ⟨rfl, (Function.update_self _ _ _).trans hlist⟩

/-! ## An object is given back -/

/-- The slab after an object has become its first free one. -/
theorem Inv.ok_put (h : Inv pend held (s :: G) k) (hok : s.Ok mem) (hi : i ∈ s.taken)
    (hnull : s.ctl i ≠ 0) (hn : mem' (nfree s.hdr) = s.free.length + 1)
    (hfirst : mem' (firstfree s.hdr) = s.ctl i) (hlink : mem' (s.ctl i) = mem (firstfree s.hdr))
    (hmem : ∀ a, a ≠ nfree s.hdr → a ≠ firstfree s.hdr → a ≠ s.ctl i → mem' a = mem a) :
    (s.withFree (i :: s.free)).Ok mem' := by
  obtain ⟨hcap, hnot⟩ := s.mem_taken.mp hi
  refine { hok with
    free_nodup := List.nodup_cons.mpr ⟨hnot, hok.free_nodup⟩, free_lt := ?_, nfree_eq := hn,
    chain := ?_, large := h.large_words hok hcap hmem }
  · intro j hj
    rcases List.mem_cons.mp hj with rfl | hj
    · exact hcap
    · exact hok.free_lt j hj
  -- the chain starts at `i` now, whose link is the old first entry
  · show Chain mem' (mem' (firstfree s.hdr)) (s.ctl i :: s.free.map s.ctl)
    rw [hfirst]
    refine ⟨rfl, hnull, ?_⟩
    rw [hlink]
    refine hok.chain.congr fun a ha => ?_
    obtain ⟨j, hj, rfl⟩ := List.mem_map.mp ha
    refine h.link_word hcap hmem (hok.free_lt j hj) ?_
    rintro rfl
    exact hnot hj

/-- The link of an object that a caller holds is not in the blocks of other slabs. -/
theorem Inv.link_apart (h : Inv pend ((s.zone, s.obj i) :: held) (s :: G) k) (hi : i < s.cap) {c : ℕ}
    (hc : ∃ b ∈ G.flatMap Slab.used, Has b c) : c ≠ s.ctl i := by
  have hok := h.ok s List.mem_cons_self
  obtain ⟨b, hb, hc⟩ := hc
  by_cases hsmall : s.size ≤ kSmallSlabMax
  · have hapart := (List.pairwise_append.mp h.used_apart).2.2 b
      (List.mem_append_right _ hb) (block k (s.zone, s.obj i)) List.mem_cons_self
    rw [(hok.small hsmall).2 i]
    refine hapart.ne hc ⟨Nat.le_refl _, ?_⟩
    show s.obj i < s.obj i + zoneSize k s.zone
    rw [h.size_eq s List.mem_cons_self]
    exact Nat.lt_add_of_pos_right hok.size_pos
  · exact h.others_apart (Slab.ctl_has (Nat.not_le.mp hsmall) hi (show 0 < sizeofBufctl by decide))
      ⟨b, List.mem_append_left _ hb, hc⟩

/-- An object that a caller holds becomes the first free one of its slab; its bufctl has been removed
from the list of the zone. -/
theorem Inv.put (h : Inv pend ((s.zone, s.obj i) :: held) (s :: G) k) (hi : i ∈ s.taken)
    {zone zone' : Zone} (hzone : k.zones s.zone = some zone) (hsize : zone'.size = zone.size)
    (hqueue : zone'.slablist.Perm zone.slablist) (hoks : ∀ t ∈ s :: G, t.Ok mem)
    (hctls : ∀ z zone, z ≠ s.zone → k.zones z = some zone → kSmallSlabMax < zone.size →
      ∀ a ∈ bufctls G z, mem a = k.mem a)
    (hlist : kSmallSlabMax < zone.size → ∃ l, Chain mem zone'.bufctllist l ∧
      (s.ctl i :: l).Perm (bufctls (s :: G) s.zone))
    (hnull : s.ctl i ≠ 0) (hn : mem' (nfree s.hdr) = s.free.length + 1)
    (hfirst : mem' (firstfree s.hdr) = s.ctl i) (hlink : mem' (s.ctl i) = mem (firstfree s.hdr))
    (hmem : ∀ a, a ≠ nfree s.hdr → a ≠ firstfree s.hdr → a ≠ s.ctl i → mem' a = mem a)
    (hk : k' = { k with
      zones := Function.update k.zones s.zone (some zone'), mem := mem',
      live := k.live.erase (s.zone, s.obj i) }) :
    Inv pend held (s.withFree (i :: s.free) :: G) k' := by
  obtain ⟨hcap, hnot⟩ := s.mem_taken.mp hi
  have hok := hoks s List.mem_cons_self
  have htaken : s.taken.Perm (i :: (s.withFree (i :: s.free)).taken) := s.taken_perm hcap hnot
  -- the words that change are not in blocks of other slabs
  have hword : ∀ b ∈ G.flatMap Slab.used, ∀ a, Has b a → mem' a = mem a := by
    intro b hb a ha
    have hhdr : ∀ o, o < sizeofSlab → a ≠ s.hdr + o := fun o ho =>
      h.others_apart (Slab.hdr_has (Nat.lt_of_lt_of_le ho (Nat.le_add_right _ _)))
        ⟨b, List.mem_append_left _ hb, ha⟩
    exact hmem a (hhdr 16 (by decide)) (hhdr 24 (by decide)) (h.link_apart hcap ⟨b, hb, ha⟩)
  subst hk
  refine h.replace hzone rfl hsize hqueue rfl ?_
    (h.ok_put hok hi hnull hn hfirst hlink hmem) ?_ ?_ ?_ ?_
  · intro t ht
    have htok := hoks t (List.mem_cons_of_mem _ ht)
    refine htok.congr fun a ha => ?_
    obtain ⟨b, hb, hhas⟩ := htok.reads_has ha
    exact hword b (List.mem_flatMap.mpr ⟨t, ht, hb⟩) a hhas
  · intro z zone₁ hz hzone₁ hlarge a ha
    obtain ⟨b, hb, hhas⟩ := h.bufctl_has hzone₁ hlarge (List.subset_cons_self s G) ha
    exact (hword b hb a hhas).trans (hctls z zone₁ hz hzone₁ hlarge a ha)
  · intro hlarge
    obtain ⟨l, hchain, hperm⟩ := hlist hlarge
    have hcons : bufctls (s.withFree (i :: s.free) :: G) s.zone
        = (s.withFree (i :: s.free)).taken.map s.ctl ++ bufctls G s.zone :=
      bufctls_cons_self (s.withFree (i :: s.free))
    have hperm' : l.Perm (bufctls (s.withFree (i :: s.free) :: G) s.zone) := by
      rw [hcons]
      refine List.Perm.cons_inv (hperm.trans ?_)
      rw [bufctls_cons_self s]
      exact (htaken.map s.ctl).append_right (bufctls G s.zone)
    refine ⟨l, hchain.congr fun a ha => ?_, hperm'⟩
    rw [hcons] at hperm'
    rcases List.mem_append.mp (hperm'.mem_iff.mp ha) with ha | ha
    · obtain ⟨j, hj, rfl⟩ := List.mem_map.mp ha
      obtain ⟨hjcap, hjnot⟩ := (s.withFree (i :: s.free)).mem_taken.mp hj
      refine h.link_word hcap hmem hjcap ?_
      rintro rfl
      exact hjnot List.mem_cons_self
    · obtain ⟨b, hb, hhas⟩ := h.bufctl_has hzone hlarge (List.subset_cons_self s G) ha
      exact hword b hb a hhas
  · have hlive : k.live.Perm ((s.zone, s.obj i) :: objects (s.withFree (i :: s.free) :: G)) :=
      h.live.trans ((htaken.map fun j => (s.zone, s.obj j)).append_right (objects G))
    exact (hlive.erase _).trans (by rw [List.erase_cons_head])
  · exact (h.owned.erase _).trans (by rw [List.cons_append, List.erase_cons_head])

end Scalux.Kmem
