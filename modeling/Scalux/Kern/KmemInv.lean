import Mathlib.Data.List.Flatten
import Mathlib.Data.List.Perm.Basic
import Scalux.Kern.Kmem

/-! # The slabs

What the memory of the slab allocator holds, as a list of slabs.  The allocator uses some blocks of
memory (`Slab.used`): the header and the free objects of a small slab, the header and the bufctls of a
large one.  These blocks and the objects that callers hold are pairwise apart (`Inv.used_apart`), so that
what is stored in one of them leaves the others as they are. -/

namespace Scalux.Kmem

/-- A slab. -/
structure Slab where
  zone : ZoneId
  size : ℕ
  /-- The address of the `struct kmem_slab`. -/
  hdr : ℕ
  /-- The address of the first object. -/
  data : ℕ
  /-- The bufctl of each object; in a small slab it is the object. -/
  ctl : ℕ → ℕ
  /-- The numbers of the free objects, in the order of the free list. -/
  free : List ℕ

namespace Slab

/-- The address of an object. -/
def obj (s : Slab) (i : ℕ) : ℕ := s.data + i * s.size

/-- `slabcapacity`. -/
def cap (s : Slab) : ℕ := slabcapacity s.size

/-- The pages of the objects. -/
def run (s : Slab) : ℕ × ℕ := (s.data, slabsize s.size)

/-- The numbers of the objects in use. -/
def taken (s : Slab) : List ℕ := (List.range s.cap).filter (· ∉ s.free)

/-- Objects of a slab as blocks. -/
def blocks (s : Slab) (is : List ℕ) : List (ℕ × ℕ) := is.map fun i => (s.obj i, s.size)

/-- The header of a small slab, which is in its page. -/
def inPage (s : Slab) : List (ℕ × ℕ) := if s.size ≤ kSmallSlabMax then [(s.hdr, sizeofSlab)] else []

/-- The header and the bufctls of a large slab, which are objects of other zones. -/
def inner (s : Slab) : List (ZoneId × ℕ) :=
  if s.size ≤ kSmallSlabMax then []
  else (kmemSlab, s.hdr) :: (List.range s.cap).map fun i => (kmemBufctl, s.ctl i)

/-- The blocks that hold what the allocator knows of the slab. -/
def used (s : Slab) : List (ℕ × ℕ) :=
  if s.size ≤ kSmallSlabMax then (s.hdr, sizeofSlab) :: s.blocks s.free
  else (s.hdr, sizeofSlab + 8) :: (List.range s.cap).map fun i => (s.ctl i, sizeofBufctl)

/-- The memory holds the slab. -/
structure Ok (mem : ℕ → ℕ) (s : Slab) : Prop where
  size_dvd : 8 ∣ s.size
  cap_pos : 0 < s.cap
  free_nodup : s.free.Nodup
  free_lt : ∀ i ∈ s.free, i < s.cap
  data_pos : 0 < s.data
  data_dvd : pgSize ∣ s.data
  data_le : s.data + slabsize s.size ≤ 2 ^ 64
  nfree_eq : mem (nfree s.hdr) = s.free.length
  chain : Chain mem (mem (firstfree s.hdr)) (s.free.map s.ctl)
  small : s.size ≤ kSmallSlabMax → s.hdr = smallSlabHdr s.data ∧ ∀ i, s.ctl i = s.obj i
  large : kSmallSlabMax < s.size → mem (slabData s.hdr) = s.data ∧
    ∀ i < s.cap, mem (ctlSlab (s.ctl i)) = s.hdr ∧ mem (ctlBase (s.ctl i)) = s.obj i

end Slab

/-- The size of the objects of a zone. -/
def zoneSize (k : Allocator) (z : ZoneId) : ℕ := (k.zones z).elim 0 Zone.size

/-- An object as a block. -/
def block (k : Allocator) (x : ZoneId × ℕ) : ℕ × ℕ := (x.2, zoneSize k x.1)

/-- The headers of the slabs with their zones. -/
def headers (G : List Slab) : List (ZoneId × ℕ) := G.map fun s => (s.zone, s.hdr)

/-- The objects in use. -/
def objects (G : List Slab) : List (ZoneId × ℕ) :=
  G.flatMap fun s => s.taken.map fun i => (s.zone, s.obj i)

/-- The bufctls of a zone whose objects are in use. -/
def bufctls (G : List Slab) (z : ZoneId) : List ℕ :=
  (G.filter fun s => s.zone = z).flatMap fun s => s.taken.map s.ctl

/-- The allocator has the slabs `G`.  Of the objects in use, the callers hold `held`, and the others are
headers and bufctls; `pend` are the headers of slabs that are being made. -/
structure Inv (pend held : List (ZoneId × ℕ)) (G : List Slab) (k : Allocator) : Prop where
  size_eq : ∀ s ∈ G, zoneSize k s.zone = s.size
  size_dvd : ∀ z zone, k.zones z = some zone → 8 ∣ zone.size
  slab_size : zoneSize k kmemSlab = sizeofSlab + 8
  bufctl_size : zoneSize k kmemBufctl = sizeofBufctl
  ok : ∀ s ∈ G, s.Ok k.mem
  run_mem : ∀ s ∈ G, s.run ∈ k.runs
  apart : (G.map Slab.run).Pairwise Apart
  queue : ∀ z zone, k.zones z = some zone →
    zone.slablist.Perm (((pend ++ headers G).filter fun x => x.1 = z).map Prod.snd)
  lists : ∀ z zone, k.zones z = some zone → kSmallSlabMax < zone.size →
    ∃ l, Chain k.mem zone.bufctllist l ∧ l.Perm (bufctls G z)
  live : k.live.Perm (objects G)
  owned : k.live.Perm (held ++ G.flatMap Slab.inner)

variable {pend held : List (ZoneId × ℕ)} {G : List Slab} {k : Allocator} {s : Slab} {mem mem' : ℕ → ℕ}
  {i j : ℕ} {b : ℕ × ℕ}

theorem zoneSize_of_some {z : ZoneId} {zone : Zone} (hzone : k.zones z = some zone) :
    zoneSize k z = zone.size := by
  rw [zoneSize, hzone]
  rfl

/-- The slabs of a zone have its size. -/
theorem Inv.size_of_zone (h : Inv pend held G k) (hs : s ∈ G) {zone : Zone}
    (hzone : k.zones s.zone = some zone) : zone.size = s.size :=
  (zoneSize_of_some hzone).symm.trans (h.size_eq s hs)

/-! ## The blocks of a slab -/

/-- The objects fit into the pages, below the header of a small slab. -/
theorem slabcapacity_mul_le (size : ℕ) :
    slabcapacity size * size + (if size ≤ kSmallSlabMax then sizeofSlab else 0) ≤ slabsize size := by
  unfold slabcapacity slabsize
  split
  · have hle : (pgSize - sizeofSlab) / size % 2 ^ 32 * size ≤ pgSize - sizeofSlab :=
      (Nat.mul_le_mul_right size (Nat.mod_le _ _)).trans (Nat.div_mul_le_self _ _)
    have hpg : sizeofSlab ≤ pgSize := by decide
    omega
  · exact (Nat.mul_le_mul_right size (Nat.mod_le _ _)).trans (Nat.div_mul_le_self _ _)

namespace Slab

/-- An object ends before the objects do. -/
theorem obj_add_le (hi : i < s.cap) : s.obj i + s.size ≤ s.data + s.cap * s.size := by
  have hle : (i + 1) * s.size ≤ s.cap * s.size := Nat.mul_le_mul_right _ hi
  rw [Nat.add_mul, Nat.one_mul] at hle
  unfold obj
  omega

/-- The objects and the header of a small slab are in its pages. -/
theorem Ok.within_run (h : s.Ok mem) (hb : b ∈ s.inPage ++ s.blocks (List.range s.cap)) :
    s.run.1 ≤ b.1 ∧ b.1 + b.2 ≤ s.run.1 + s.run.2 := by
  have hcap := slabcapacity_mul_le s.size
  unfold run
  -- the block is the header at the end of a small slab's page, or one of the objects
  rcases List.mem_append.mp hb with hb | hb
  · unfold inPage at hb
    split at hb
    · rename_i hsmall
      obtain rfl := List.mem_singleton.mp hb
      have hhdr := (h.small hsmall).1
      have hpg : sizeofSlab ≤ pgSize := by decide
      have hsize : slabsize s.size = pgSize := if_pos hsmall
      unfold smallSlabHdr at hhdr
      dsimp only
      omega
    · cases hb
  · obtain ⟨i, hi, rfl⟩ := List.mem_map.mp hb
    have hle := obj_add_le (List.mem_range.mp hi)
    have hdata : s.data ≤ s.obj i := Nat.le_add_right _ _
    unfold cap at hle
    dsimp only
    omega

/-- Two objects of a slab are apart. -/
theorem obj_apart (hij : i ≠ j) : Apart (s.obj i, s.size) (s.obj j, s.size) := by
  have hlt : ∀ {i j : ℕ}, i < j → s.obj i + s.size ≤ s.obj j := by
    intro i j hij
    have hle : (i + 1) * s.size ≤ j * s.size := Nat.mul_le_mul_right _ hij
    rw [Nat.add_mul, Nat.one_mul] at hle
    unfold obj
    omega
  rcases Nat.lt_or_gt_of_ne hij with h | h
  · exact .inl (hlt h)
  · exact .inr (hlt h)

/-- The header of a small slab is above its objects. -/
theorem Ok.blocks_apart (h : s.Ok mem) :
    (s.inPage ++ s.blocks (List.range s.cap)).Pairwise Apart := by
  -- header alone, objects among themselves, and the header behind every object
  refine List.pairwise_append.mpr ⟨?_, ?_, ?_⟩
  · unfold inPage
    split
    · exact List.pairwise_singleton _ _
    · exact .nil
  · exact List.Pairwise.map _ (fun i j hij => obj_apart hij) List.nodup_range
  · intro b hb c hc
    obtain ⟨i, hi, rfl⟩ := List.mem_map.mp hc
    unfold inPage at hb
    split at hb
    · rename_i hsmall
      obtain rfl := List.mem_singleton.mp hb
      have hle := obj_add_le (List.mem_range.mp hi)
      have hcap := slabcapacity_mul_le s.size
      have hsize : slabsize s.size = pgSize := if_pos hsmall
      have hhdr := (h.small hsmall).1
      rw [if_pos hsmall, hsize] at hcap
      unfold smallSlabHdr at hhdr
      unfold cap at hle
      right
      dsimp only
      omega
    · cases hb

/-- Each object is free or in use. -/
theorem Ok.range_perm (h : s.Ok mem) : (List.range s.cap).Perm (s.free ++ s.taken) := by
  have hfree : ((List.range s.cap).filter (· ∈ s.free)).Perm s.free := by
    refine (List.perm_ext_iff_of_nodup (List.nodup_range.filter _) h.free_nodup).mpr ?_
    intro i
    rw [List.mem_filter, List.mem_range, decide_eq_true_iff]
    exact ⟨And.right, fun hi => ⟨h.free_lt i hi, hi⟩⟩
  have htaken : s.taken = (List.range s.cap).filter fun i => !decide (i ∈ s.free) := by
    unfold taken
    simp only [decide_not]
  rw [htaken]
  exact (List.filter_append_perm (fun i => decide (i ∈ s.free)) _).symm.trans
    (hfree.append_right _)

end Slab

/-! ## The blocks in use -/

/-- The headers in pages and the objects, free or not, are apart. -/
theorem Inv.pages_apart (h : Inv pend held G k) :
    (G.flatMap fun s => s.inPage ++ s.blocks (List.range s.cap)).Pairwise Apart := by
  refine List.pairwise_flatMap.mpr ⟨fun s hs => (h.ok s hs).blocks_apart, ?_⟩
  refine (List.pairwise_map.mp h.apart).imp_of_mem fun hs ht hst b hb c hc => ?_
  exact hst.mono ((h.ok _ hs).within_run hb) ((h.ok _ ht).within_run hc)

/-- The free objects of a small slab. -/
def Slab.linked (s : Slab) : List (ℕ × ℕ) :=
  if s.size ≤ kSmallSlabMax then s.blocks s.free else []

/-- The blocks of a slab are its own or objects of other zones. -/
theorem Inv.used_eq (h : Inv pend held G k) (s : Slab) :
    s.used = s.inPage ++ s.linked ++ s.inner.map (block k) := by
  unfold Slab.used Slab.inPage Slab.linked Slab.inner
  split
  · simp
  · simp [block, h.slab_size, h.bufctl_size]

/-- The objects in use as blocks. -/
theorem Inv.objects_blocks (h : Inv pend held G k) :
    (objects G).map (block k) = G.flatMap fun s => s.blocks s.taken := by
  unfold objects
  rw [List.map_flatMap]
  refine List.flatMap_congr fun s hs => ?_
  rw [List.map_map]
  exact List.map_congr_left fun i _ => by simp [block, h.size_eq s hs]

/-- The blocks that the allocator uses and the objects that callers hold are headers in pages and
objects. -/
theorem Inv.used_subperm (h : Inv pend held G k) :
    (G.flatMap Slab.used ++ held.map (block k)).Subperm
      (G.flatMap fun s => s.inPage ++ s.blocks (List.range s.cap)) := by
  -- the objects that callers hold and those that are headers and bufctls are the ones in use
  have hlive : (G.flatMap (fun s => s.inner.map (block k)) ++ held.map (block k)).Perm
      (G.flatMap fun s => s.blocks s.taken) := by
    rw [← h.objects_blocks, ← List.map_flatMap, ← List.map_append]
    exact (List.perm_append_comm.trans (h.owned.symm.trans h.live)).map _
  have hused : (G.flatMap Slab.used).Perm (G.flatMap Slab.inPage ++ G.flatMap Slab.linked ++
      G.flatMap fun s => s.inner.map (block k)) := by
    rw [show Slab.used = fun s => s.inPage ++ s.linked ++ s.inner.map (block k) from
      funext h.used_eq]
    exact (List.flatMap_append_perm _ _ _).symm.trans
      ((List.flatMap_append_perm _ _ _).symm.append_right _)
  have hpages : (G.flatMap fun s => s.inPage ++ s.blocks (List.range s.cap)).Perm
      (G.flatMap Slab.inPage ++ G.flatMap (fun s => s.blocks s.free) ++
        G.flatMap fun s => s.blocks s.taken) := by
    have hperm : ∀ s ∈ G, (s.inPage ++ s.blocks (List.range s.cap)).Perm
        (s.inPage ++ s.blocks s.free ++ s.blocks s.taken) := by
      intro s hs
      rw [List.append_assoc]
      unfold Slab.blocks
      rw [← List.map_append]
      exact ((h.ok s hs).range_perm.map _).append_left _
    refine (List.Perm.flatMap_left G hperm).trans ?_
    exact (List.flatMap_append_perm _ _ _).symm.trans
      ((List.flatMap_append_perm _ _ _).symm.append_right _)
  have hlinked : (G.flatMap Slab.linked).Sublist (G.flatMap fun s => s.blocks s.free) := by
    refine List.Sublist.flatMap_right G fun s _ => ?_
    unfold Slab.linked
    split
    · exact List.Sublist.refl _
    · exact List.nil_sublist _
  refine (hused.append_right _).subperm.trans (List.Subperm.trans ?_ hpages.symm.subperm)
  rw [List.append_assoc]
  exact ((List.Sublist.refl _).append hlinked).subperm.append hlive.subperm

/-- **The blocks that the allocator uses and the objects that callers hold are apart.** -/
theorem Inv.used_apart (h : Inv pend held G k) :
    (G.flatMap Slab.used ++ held.map (block k)).Pairwise Apart :=
  pairwise_apart_of_subperm h.pages_apart h.used_subperm

/-- They are in the pages of the slabs. -/
theorem Inv.used_within (h : Inv pend held G k)
    (hb : b ∈ G.flatMap Slab.used ++ held.map (block k)) :
    ∃ s ∈ G, s.run.1 ≤ b.1 ∧ b.1 + b.2 ≤ s.run.1 + s.run.2 := by
  obtain ⟨s, hs, hb⟩ := List.mem_flatMap.mp (h.used_subperm.subset hb)
  exact ⟨s, hs, (h.ok s hs).within_run hb⟩

/-! ## What a slab depends on -/

namespace Slab

/-- There are no objects of no size. -/
theorem Ok.size_pos (h : s.Ok mem) : 0 < s.size := by
  rcases Nat.eq_zero_or_pos s.size with hzero | hpos
  · have hcap := h.cap_pos
    unfold cap slabcapacity at hcap
    simp [hzero] at hcap
  · exact hpos

/-- The words of the header. -/
theorem hdr_has {o : ℕ} (ho : o < sizeofSlab + (if s.size ≤ kSmallSlabMax then 0 else 8)) :
    ∃ b ∈ s.used, Has b (s.hdr + o) := by
  unfold used
  split
  · rename_i hsmall
    rw [if_pos hsmall] at ho
    exact ⟨_, List.mem_cons_self, Nat.le_add_right _ _, Nat.add_lt_add_left ho _⟩
  · rename_i hlarge
    rw [if_neg hlarge] at ho
    exact ⟨_, List.mem_cons_self, Nat.le_add_right _ _, Nat.add_lt_add_left ho _⟩

/-- The link of a free object. -/
theorem Ok.free_has (h : s.Ok mem) (hi : i ∈ s.free) : ∃ b ∈ s.used, Has b (s.ctl i) := by
  unfold used
  split
  · rename_i hsmall
    refine ⟨(s.obj i, s.size), List.mem_cons_of_mem _ (List.mem_map.mpr ⟨i, hi, rfl⟩), ?_⟩
    rw [(h.small hsmall).2 i]
    exact ⟨Nat.le_refl _, Nat.lt_add_of_pos_right h.size_pos⟩
  · refine ⟨(s.ctl i, sizeofBufctl), List.mem_cons_of_mem _ (List.mem_map.mpr
      ⟨i, List.mem_range.mpr (h.free_lt i hi), rfl⟩), ?_⟩
    exact ⟨Nat.le_refl _, Nat.lt_add_of_pos_right (show 0 < sizeofBufctl by decide)⟩

/-- The words of a bufctl of a large slab. -/
theorem ctl_has (hlarge : kSmallSlabMax < s.size) (hi : i < s.cap) {o : ℕ} (ho : o < sizeofBufctl) :
    ∃ b ∈ s.used, Has b (s.ctl i + o) := by
  unfold used
  rw [if_neg (Nat.not_le.mpr hlarge)]
  refine ⟨(s.ctl i, sizeofBufctl), List.mem_cons_of_mem _ (List.mem_map.mpr
    ⟨i, List.mem_range.mpr hi, rfl⟩), ?_⟩
  exact ⟨Nat.le_add_right _ _, Nat.add_lt_add_left ho _⟩

/-- The words that hold what the allocator knows of the slab: its header, the links of its free objects
and the other fields of its bufctls. -/
def Reads (s : Slab) (a : ℕ) : Prop :=
  (∃ o < sizeofSlab + (if s.size ≤ kSmallSlabMax then 0 else 8), a = s.hdr + o) ∨
    (∃ i ∈ s.free, a = s.ctl i) ∨
    (kSmallSlabMax < s.size ∧ ∃ i < s.cap, ∃ o < sizeofBufctl, 0 < o ∧ a = s.ctl i + o)

/-- These words are in its blocks. -/
theorem Ok.reads_has (h : s.Ok mem) {a : ℕ} (ha : s.Reads a) : ∃ b ∈ s.used, Has b a := by
  rcases ha with ⟨o, ho, rfl⟩ | ⟨i, hi, rfl⟩ | ⟨hlarge, i, hi, o, ho, -, rfl⟩
  · exact hdr_has ho
  · exact h.free_has hi
  · exact ctl_has hlarge hi ho

/-- A slab depends only on these words. -/
theorem Ok.congr (h : s.Ok mem) (hmem : ∀ a, s.Reads a → mem' a = mem a) : s.Ok mem' := by
  have hhdr : ∀ o, o < sizeofSlab → mem' (s.hdr + o) = mem (s.hdr + o) :=
    fun o ho => hmem _ (.inl ⟨o, Nat.lt_of_lt_of_le ho (Nat.le_add_right _ _), rfl⟩)
  refine { h with nfree_eq := ?_, chain := ?_, large := ?_ }
  · exact (hhdr 16 (by decide)).trans h.nfree_eq
  · have hfirst : mem' (firstfree s.hdr) = mem (firstfree s.hdr) := hhdr 24 (by decide)
    rw [hfirst]
    refine h.chain.congr fun a ha => ?_
    obtain ⟨i, hi, rfl⟩ := List.mem_map.mp ha
    exact hmem _ (.inr (.inl ⟨i, hi, rfl⟩))
  · intro hlarge
    obtain ⟨hdata, hctl⟩ := h.large hlarge
    have ho : 32 < sizeofSlab + (if s.size ≤ kSmallSlabMax then 0 else 8) := by
      rw [if_neg (Nat.not_le.mpr hlarge)]
      decide
    refine ⟨(hmem _ (.inl ⟨32, ho, rfl⟩)).trans hdata, fun i hi => ?_⟩
    obtain ⟨hslab, hbase⟩ := hctl i hi
    have hword : ∀ o, o < sizeofBufctl → 0 < o → mem' (s.ctl i + o) = mem (s.ctl i + o) :=
      fun o ho hpos => hmem _ (.inr (.inr ⟨hlarge, i, hi, o, ho, hpos, rfl⟩))
    exact ⟨(hword 8 (by decide) (by decide)).trans hslab,
      (hword 16 (by decide) (by decide)).trans hbase⟩

end Slab

/-- A bufctl in use is in a block of its slab. -/
theorem Inv.bufctl_has (h : Inv pend held G k) {z : ZoneId} {zone : Zone}
    (hzone : k.zones z = some zone) (hlarge : kSmallSlabMax < zone.size) {G' : List Slab}
    (hsub : G' ⊆ G) {a : ℕ} (ha : a ∈ bufctls G' z) : ∃ b ∈ G'.flatMap Slab.used, Has b a := by
  obtain ⟨s, hs, ha⟩ := List.mem_flatMap.mp ha
  obtain ⟨hs, hz⟩ := List.mem_filter.mp hs
  obtain ⟨i, hi, rfl⟩ := List.mem_map.mp ha
  have hsize : zone.size = s.size :=
    h.size_of_zone (hsub hs) ((congrArg k.zones (of_decide_eq_true hz)).trans hzone)
  obtain ⟨b, hb, hhas⟩ := Slab.ctl_has (hsize ▸ hlarge) (List.mem_range.mp (List.mem_filter.mp hi).1)
    (show 0 < sizeofBufctl by decide)
  exact ⟨b, List.mem_flatMap.mpr ⟨s, hs, hb⟩, hhas⟩

/-- A word outside of the blocks that the allocator uses may change. -/
theorem Inv.congr (h : Inv pend held G k)
    (hmem : ∀ b ∈ G.flatMap Slab.used, ∀ a, Has b a → mem' a = k.mem a) :
    Inv pend held G { k with mem := mem' } := by
  refine { h with ok := ?_, lists := ?_ }
  · intro s hs
    refine (h.ok s hs).congr fun a ha => ?_
    obtain ⟨b, hb, hhas⟩ := (h.ok s hs).reads_has ha
    exact hmem b (List.mem_flatMap.mpr ⟨s, hs, hb⟩) a hhas
  · intro z zone hzone hlarge
    obtain ⟨l, hchain, hperm⟩ := h.lists z zone hzone hlarge
    refine ⟨l, hchain.congr fun a ha => ?_, hperm⟩
    obtain ⟨b, hb, hhas⟩ := h.bufctl_has hzone hlarge (List.Subset.refl G) (hperm.mem_iff.mp ha)
    exact hmem b hb a hhas

/-- **Writes of callers.** An object that a caller holds may have any contents. -/
theorem Inv.write (h : Inv pend held G k) {x : ZoneId × ℕ} (hx : x ∈ held) {a : ℕ}
    (ha : Has (block k x) a) (v : ℕ) : Inv pend held G (store k a v) := by
  refine h.congr fun b hb c hc => Function.update_of_ne ?_ _ _
  have hapart := (List.pairwise_append.mp h.used_apart).2.2 b hb _ (List.mem_map_of_mem hx)
  exact hapart.ne hc ha

/-- The pages of no slab may have any contents. -/
theorem Inv.fresh (h : Inv pend held G k) {r : ℕ × ℕ} (hr : ∀ s ∈ G, Apart r s.run)
    (hmem : ∀ a, ¬ Has r a → mem' a = k.mem a) : Inv pend held G { k with mem := mem' } := by
  refine h.congr fun b hb a ha => hmem a fun hra => ?_
  obtain ⟨s, hs, hle⟩ := h.used_within (List.mem_append_left _ hb)
  have hmono : Apart r b := (hr s hs).mono ⟨Nat.le_refl _, Nat.le_refl _⟩ hle
  exact hmono.not_has hra ha

/-! ## One slab changes -/

/-- The order of the slabs does not matter. -/
theorem Inv.perm (h : Inv pend held G k) {G' : List Slab} (hp : G.Perm G') : Inv pend held G' k where
  size_eq s hs := h.size_eq s (hp.mem_iff.mpr hs)
  size_dvd := h.size_dvd
  slab_size := h.slab_size
  bufctl_size := h.bufctl_size
  ok s hs := h.ok s (hp.mem_iff.mpr hs)
  run_mem s hs := h.run_mem s (hp.mem_iff.mpr hs)
  apart := ((hp.map _).pairwise_iff Apart.symm).mp h.apart
  queue z zone hzone :=
    (h.queue z zone hzone).trans ((((hp.map _).append_left pend).filter _).map _)
  lists z zone hzone hlarge := by
    obtain ⟨l, hchain, hperm⟩ := h.lists z zone hzone hlarge
    exact ⟨l, hchain, hperm.trans ((hp.filter _).flatMap_right _)⟩
  live := h.live.trans (hp.flatMap_right _)
  owned := h.owned.trans ((hp.flatMap_right _).append_left held)

/-- A slab with other free objects. -/
def Slab.withFree (s : Slab) (free : List ℕ) : Slab := { s with free := free }

/-- The first slab and the others use blocks that are apart. -/
theorem Inv.others_apart (h : Inv pend held (s :: G) k) {a c : ℕ} (ha : ∃ b ∈ s.used, Has b a)
    (hc : ∃ b ∈ G.flatMap Slab.used ++ held.map (block k), Has b c) : c ≠ a := by
  obtain ⟨b, hb, ha⟩ := ha
  obtain ⟨b', hb', hc⟩ := hc
  have hused := h.used_apart
  rw [List.flatMap_cons, List.append_assoc] at hused
  exact ((List.pairwise_append.mp hused).2.2 b hb b' hb').symm.ne hc ha

/-- The blocks of one slab are apart. -/
theorem Inv.used_apart_self (h : Inv pend held (s :: G) k) : s.used.Pairwise Apart := by
  have hused := h.used_apart
  rw [List.flatMap_cons, List.append_assoc] at hused
  exact (List.pairwise_append.mp hused).1

/-- One more object in use. -/
theorem Slab.taken_perm {free : List ℕ} (hi : i < s.cap) (hni : i ∉ free) :
    (s.withFree free).taken.Perm (i :: (s.withFree (i :: free)).taken) := by
  have hcons : (i :: (s.withFree (i :: free)).taken).Nodup := by
    refine List.nodup_cons.mpr ⟨fun hmem => ?_, List.nodup_range.filter _⟩
    have hnot := of_decide_eq_true (List.mem_filter.mp hmem).2
    exact hnot List.mem_cons_self
  refine (List.perm_ext_iff_of_nodup (List.nodup_range.filter _) hcons).mpr fun j => ?_
  have hcap : ∀ free, (s.withFree free).cap = s.cap := fun _ => rfl
  simp only [taken, List.mem_cons, List.mem_filter, List.mem_range, decide_eq_true_iff, hcap]
  constructor
  · rintro ⟨hj, hfree⟩
    by_cases hij : j = i
    · exact .inl hij
    · exact .inr ⟨hj, fun hmem => (List.mem_cons.mp hmem).elim hij hfree⟩
  · rintro (rfl | ⟨hj, hfree⟩)
    · exact ⟨hi, hni⟩
    · exact ⟨hj, fun hmem => hfree (List.mem_cons_of_mem _ hmem)⟩

/-- The free objects of the first slab change, and what the memory holds of it. -/
theorem Inv.replace {held' : List (ZoneId × ℕ)} {k' : Allocator} {free : List ℕ} {zone zone' : Zone}
    (h : Inv pend held (s :: G) k) (hzone : k.zones s.zone = some zone)
    (hzones : k'.zones = Function.update k.zones s.zone (some zone')) (hsize : zone'.size = zone.size)
    (hqueue : zone'.slablist.Perm zone.slablist) (hruns : k'.runs = k.runs)
    (hoks : ∀ t ∈ G, t.Ok k'.mem) (hok : (s.withFree free).Ok k'.mem)
    (hctls : ∀ z zone, z ≠ s.zone → k.zones z = some zone → kSmallSlabMax < zone.size →
      ∀ a ∈ bufctls G z, k'.mem a = k.mem a)
    (hlist : kSmallSlabMax < zone.size → ∃ l, Chain k'.mem zone'.bufctllist l ∧
      l.Perm (bufctls (s.withFree free :: G) s.zone))
    (hlive : k'.live.Perm (objects (s.withFree free :: G)))
    (howned : k'.live.Perm (held' ++ (s :: G).flatMap Slab.inner)) :
    Inv pend held' (s.withFree free :: G) k' := by
  -- only the zone of `s` and the words of `s` change
  have hother : ∀ z, z ≠ s.zone → k'.zones z = k.zones z := by
    intro z hz
    rw [hzones, Function.update_of_ne hz]
  have hself : k'.zones s.zone = some zone' := by rw [hzones, Function.update_self]
  have hsizes : zoneSize k' = zoneSize k := by
    funext z
    unfold zoneSize
    by_cases hz : z = s.zone
    · rw [hz, hself, hzone]
      exact hsize
    · rw [hother z hz]
  constructor
  case size_eq =>
    intro t ht
    rw [hsizes]
    rcases List.mem_cons.mp ht with rfl | ht
    · exact h.size_eq s List.mem_cons_self
    · exact h.size_eq t (List.mem_cons_of_mem _ ht)
  case size_dvd =>
    intro z zone₁ hzone₁
    by_cases hz : z = s.zone
    · rw [hz, hself] at hzone₁
      cases hzone₁
      exact hsize ▸ h.size_dvd s.zone zone hzone
    · exact h.size_dvd z zone₁ (hother z hz ▸ hzone₁)
  case slab_size => exact (congrFun hsizes _).trans h.slab_size
  case bufctl_size => exact (congrFun hsizes _).trans h.bufctl_size
  case ok =>
    intro t ht
    rcases List.mem_cons.mp ht with rfl | ht
    · exact hok
    · exact hoks t ht
  case run_mem =>
    intro t ht
    rw [hruns]
    rcases List.mem_cons.mp ht with rfl | ht
    · exact h.run_mem s List.mem_cons_self
    · exact h.run_mem t (List.mem_cons_of_mem _ ht)
  case apart => exact h.apart
  -- the header of `s` may have moved within the list of its zone, the headers are the same
  case queue =>
    intro z zone₁ hzone₁
    by_cases hz : z = s.zone
    · subst hz
      rw [hself] at hzone₁
      cases hzone₁
      exact hqueue.trans (h.queue _ _ hzone)
    · rw [hother z hz] at hzone₁
      exact h.queue z zone₁ hzone₁
  case lists =>
    intro z zone₁ hzone₁ hlarge
    by_cases hz : z = s.zone
    · subst hz
      rw [hself] at hzone₁
      cases hzone₁
      exact hlist (hsize ▸ hlarge)
    · -- the bufctls of another zone are those of other slabs
      rw [hother z hz] at hzone₁
      obtain ⟨l, hchain, hperm⟩ := h.lists z zone₁ hzone₁ hlarge
      have hskip : ∀ t : Slab, t.zone = s.zone → bufctls (t :: G) z = bufctls G z := by
        intro t ht
        unfold bufctls
        rw [List.filter_cons_of_neg (by simpa [ht] using fun heq => hz heq.symm)]
      rw [hskip s rfl] at hperm
      rw [hskip (s.withFree free) rfl]
      exact ⟨l, hchain.congr fun a ha => hctls z zone₁ hz hzone₁ hlarge a (hperm.mem_iff.mp ha),
        hperm⟩
  case live => exact hlive
  case owned => exact howned

end Scalux.Kmem
