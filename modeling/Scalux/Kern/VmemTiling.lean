import Scalux.Lib.Tiling
import Scalux.Kern.VmemView

/-! # The segment queue as a list of intervals

The view of an arena is read as intervals under span markers (`Scalux.Scale`), and the abstract
operations `Allocates`, `Releases` and `Adds` are shown to keep it so, for both ways of reading it:
without gaps, and with gaps.  Gaps come from `vmem_xfree`, which drops a segment that has no free
neighbour; so that case is a hypothesis here (`hdrop`).

The code's arithmetic is modulo `2 ^ 64`.  Inside a span no sum of sizes wraps; an allocation is in
bounds if it ends inside the segment it is taken from, which the wrapped comparison of `vmem_xalloc`
does not always guarantee (`Fooled`).

* **`tiles_allocates`**, **`tiles_releases`**, **`tiles_adds`**: the operations keep the tiling. -/

namespace Scalux.Vmem

/-- Segments as intervals of the 64-bit address space. -/
def segScale : Scale Seg where
  mark := Seg.isSpan
  base := Seg.base
  size := Seg.size
  top := 2 ^ 64

/-- The segments of `V` lie in their spans in ascending order, each related to the next by `r`. -/
def Tiled (r : ℕ → ℕ → Prop) (V : List Seg) : Prop := segScale.Tiles r 0 0 V

/-- The comparison of `vmem_xalloc` passes over a wrapped sum: the segment would serve the request
although the request ends beyond it. -/
def Fooled (f : Seg) (size min : ℕ) (flags : Flags) : Bool :=
  f.isFree && decide (freelist size ≤ freelist f.size) &&
    (fitAddr f size min flags).any fun addr => decide (f.base + f.size < addr + size)

variable {r : ℕ → ℕ → Prop} {V V' : List Seg} {f g : Seg} {addr size min : ℕ} {flags : Flags}

/-- A segment serves a request at or after its base. -/
theorem fitAddr_le (h : fitAddr f size min flags = some addr) : f.base ≤ addr := by
  unfold fitAddr at h
  split at h
  · split at h
    · cases h
    · cases h
      assumption
  · split at h
    · cases h
    · split at h
      · cases h
      · cases h
        exact le_rfl

/-- A segment serves a request if the wrapped end of the request is not beyond its own. -/
theorem fitAddr_end (h : fitAddr f size min flags = some addr) :
    add64 addr size ≤ add64 f.base f.size := by
  unfold fitAddr at h
  split at h
  · split at h
    · cases h
    · rename_i hle
      cases h
      exact not_lt.mp hle
  · split at h
    · cases h
    · split at h
      · cases h
      · rename_i hle
        cases h
        exact not_lt.mp hle

/-- What remains to the right of an allocation that ends inside its segment. -/
theorem rightPart_eq (hpos : 0 < size) (hend : addr + size ≤ f.base + f.size)
    (htop : f.base + f.size ≤ 2 ^ 64) (hfit : add64 addr size ≤ add64 f.base f.size) :
    rightPart f addr size = if addr + size < f.base + f.size then
      [⟨.kVMemSegFree, addr + size, f.base + f.size - (addr + size)⟩] else [] := by
  unfold rightPart
  by_cases htop' : f.base + f.size < 2 ^ 64
  · have haddr : add64 addr size = addr + size := add64_eq (by omega)
    rw [haddr, add64_eq htop']
    by_cases hlt : addr + size < f.base + f.size
    · rw [if_pos hlt, if_pos hlt, sub64_eq hend (by omega)]
    · rw [if_neg hlt, if_neg hlt]
  · -- the segment ends at the very top: its end wraps to zero, and so does the allocation's
    have hf : add64 f.base f.size = 0 := by
      unfold add64
      omega
    rw [hf] at hfit ⊢
    unfold add64 at hfit
    rw [if_neg (Nat.not_lt_zero _), if_neg (by omega)]

/-- An allocation that ends inside the segment it is taken from keeps the tiling. -/
theorem tiles_allocates (hr : IsGap r) (h : Tiled r V) (hpos : 0 < size)
    (ha : Allocates size min flags addr V V') (hnot : ∀ f ∈ V, Fooled f size min flags = false) :
    Tiled r V' := by
  obtain ⟨L, f, R, rfl, hfree, hclass, hfit, rfl⟩ := ha.split
  have hspan : segScale.mark f = false := isSpan_of_free hfree
  have hend : addr + size ≤ f.base + f.size := by
    have hf := hnot f (List.mem_append_right _ List.mem_cons_self)
    rw [Fooled, hfit] at hf
    simpa [Seg.isFree, hfree, hclass] using hf
  have hle := fitAddr_le hfit
  rw [List.append_assoc]
  refine h.edit hr (by decide) fun p h hph htop _ ht => ?_
  obtain ⟨⟨hgap, hfpos⟩, hrest⟩ := (Scale.tiles_cons hspan).mp ht
  have hfin : f.base + f.size ≤ 2 ^ 64 := (hrest.le hr).trans htop
  rw [splitParts, rightPart_eq hpos hend hfin (fitAddr_end hfit), List.append_assoc,
    List.cons_append]
  -- from the allocation on the list continues at the end of the segment
  have htail : ∀ q, r q addr → segScale.Tiles r q h
      (⟨.kVMemSegAllocated, addr, size⟩ :: ((if addr + size < f.base + f.size then
        [⟨.kVMemSegFree, addr + size, f.base + f.size - (addr + size)⟩] else []) ++ R)) := by
    intro q hq
    refine (Scale.tiles_cons rfl).mpr ⟨⟨hq, hpos⟩, ?_⟩
    split
    · rename_i hlt
      refine (Scale.tiles_cons rfl).mpr ⟨⟨hr.refl _, Nat.sub_pos_of_lt hlt⟩, ?_⟩
      have heq : segScale.fin ⟨.kVMemSegFree, addr + size, f.base + f.size - (addr + size)⟩
          = segScale.fin f := Nat.add_sub_cancel' hend
      rw [heq]
      exact hrest
    · have heq : segScale.fin ⟨.kVMemSegAllocated, addr, size⟩ = segScale.fin f :=
        le_antisymm hend (not_lt.mp ‹_›)
      rw [heq]
      exact hrest
  unfold leftPart
  split
  · rename_i hlt
    refine (Scale.tiles_cons rfl).mpr ⟨⟨hgap, Nat.sub_pos_of_lt hlt⟩, htail _ ?_⟩
    have heq : segScale.fin ⟨.kVMemSegFree, f.base, addr - f.base⟩ = addr :=
      Nat.add_sub_cancel' hle
    rw [heq]
    exact hr.refl _
  · have heq : f.base = addr := le_antisymm hle (not_lt.mp ‹_›)
    exact htail p (heq ▸ hgap)

/-- A marker `m` and a segment `g` that fills its span may enter where the spans below it end, if the
span overlaps no other. -/
theorem tiles_open (hr : IsGap r) {m : Seg} {A B : List Seg} (h : Tiled r (A ++ B))
    (hm : m.isSpan = true) (hg : g.isSpan = false) (hbase : g.base = m.base)
    (hsize : g.size = m.size) (hA : ∀ s ∈ A, s.isSpan = true → s.base < m.base)
    (hB : ∀ s ∈ B.head?, s.isSpan = true ∧ m.base ≤ s.base)
    (hpos : 0 < m.size) (hlt : m.size < 2 ^ 64) (htop : m.base + m.size ≤ 2 ^ 64)
    (hapart : ∀ s ∈ A ++ B, s.isSpan = true →
      s.base + s.size ≤ m.base ∨ m.base + m.size ≤ s.base) : Tiled r (A ++ m :: g :: B) := by
  have hsizes := h.size_pos
  -- the new span lies above every span on its left and below the first on its right
  refine Scale.Tiles.insertSpan hr hm hg hbase hsize hpos hlt htop h ?_ ?_
  · intro s hs hspan
    have hbelow := hA s hs hspan
    rcases hapart s (List.mem_append_left _ hs) hspan with hle | hle
    · exact hle
    · omega
  · intro s hs
    obtain ⟨hspan, habove⟩ := hB s hs
    refine ⟨hspan, ?_⟩
    have hmem : s ∈ A ++ B := List.mem_append_right _ (List.mem_of_mem_head? hs)
    have hspos : 0 < s.size := hsizes s hmem
    rcases hapart s hmem hspan with hle | hle
    · omega
    · exact hle

/-- Opening a span keeps the tiling if the span overlaps no other. -/
theorem tiles_adds {base : ℕ} (hr : IsGap r) (h : Tiled r V) (ha : Adds base size V V')
    (hpos : 0 < size) (hlt : size < 2 ^ 64) (htop : base + size ≤ 2 ^ 64)
    (hapart : ∀ s ∈ V, s.isSpan = true →
      s.base + s.size ≤ base ∨ base + size ≤ s.base) : Tiled r V' := by
  obtain ⟨A, B, rfl, hA, hB, rfl⟩ := ha.split
  exact tiles_open hr h rfl rfl rfl rfl hA hB hpos hlt htop hapart

/-- Two neighbours that are not span markers are joined: their sizes add up without wrapping. -/
theorem tiles_join (hr : IsGap r) {a b : Seg} {R : List Seg} {p h : ℕ} (hph : h < p + 2 ^ 64)
    (ha : a.isSpan = false) (hb : b.isSpan = false) (ht : segScale.Tiles r p h (a :: b :: R)) :
    add64 a.size b.size = a.size + b.size ∧
      segScale.Tiles r p h (⟨.kVMemSegFree, a.base, a.size + b.size⟩ :: R) := by
  obtain ⟨hpa, hab, hbh⟩ := ht.merge_le hr ha hb
  refine ⟨Nat.mod_eq_of_lt ?_, ht.merge hr ha hb rfl rfl rfl⟩
  simp only [Scale.fin, segScale] at hpa hab hbh
  omega

/-- Releasing a segment keeps the tiling, as far as a segment without free neighbours may be
dropped. -/
theorem tiles_releases (hr : IsGap r) (h : Tiled r V) (hg : g.isSpan = false)
    (hrel : Releases g V V')
    (hdrop : ∀ L R, V = L ++ g :: R → (∀ f ∈ L.getLast?, f.type ≠ .kVMemSegFree) →
      (∀ e ∈ R.head?, e.type ≠ .kVMemSegFree) → Tiled r (L ++ R)) : Tiled r V' := by
  -- joined on both sides, on one, or on none: the last case keeps no segment
  cases hrel with
  | both L f e R hf he =>
      refine h.edit hr (by decide) fun p h _ _ hph ht => ?_
      obtain ⟨hsum, ht⟩ := tiles_join hr hph (isSpan_of_free hf) hg ht
      obtain ⟨hsum', ht⟩ := tiles_join hr hph rfl (isSpan_of_free he) ht
      rw [hsum, add64, Nat.add_comm e.size, ← add64, hsum']
      exact ht
  | left L f R hf hR =>
      refine h.edit hr (by decide) fun p h _ _ hph ht => ?_
      obtain ⟨hsum, ht⟩ := tiles_join hr hph (isSpan_of_free hf) hg ht
      rw [hsum]
      exact ht
  | right L e R he hL =>
      refine h.edit hr (by decide) fun p h _ _ hph ht => ?_
      obtain ⟨hsum, ht⟩ := tiles_join hr hph hg (isSpan_of_free he) ht
      rw [add64, Nat.add_comm e.size, ← add64, hsum]
      exact ht
  | lost L R hL hR => exact hdrop L R rfl hL hR

/-! ## What a tiling says about the segments -/

/-- Two segments of a tiling, at different places, are disjoint. -/
theorem Tiled.disjoint (hr : IsGap r) (h : Tiled r V) {a b : Seg} (ha : a ∈ V) (hb : b ∈ V)
    (hne : a ≠ b) (has : a.isSpan = false) (hbs : b.isSpan = false) :
    a.base + a.size ≤ b.base ∨ b.base + b.size ≤ a.base := by
  have hpair : V.Pairwise fun a b => a.isSpan = false → b.isSpan = false →
      a.base + a.size ≤ b.base ∨ b.base + b.size ≤ a.base :=
    (h.pairwise hr).imp fun hord has _ => .inl (hord has)
  have : Std.Symm fun a b : Seg => a.isSpan = false → b.isSpan = false →
      a.base + a.size ≤ b.base ∨ b.base + b.size ≤ a.base :=
    ⟨fun _ _ hab hb ha => (hab ha hb).symm⟩
  exact hpair.forall ha hb hne has hbs

/-- Every segment of a tiling lies in a span. -/
theorem Tiled.in_span (hr : IsGap r) (h : Tiled r V) {a : Seg} (ha : a ∈ V)
    (has : a.isSpan = false) : ∃ s ∈ V, s.isSpan = true ∧ s.base ≤ a.base ∧
      a.base + a.size ≤ s.base + s.size :=
  h.inside_zero hr ha has (h.size_pos a ha)

/-- A tiling begins with a span marker. -/
theorem Tiled.head_isSpan (hr : IsGap r) (h : Tiled r V) : ∀ s ∈ V.head?, s.isSpan = true := by
  intro s hs
  obtain ⟨V, rfl⟩ := List.head?_eq_some_iff.mp hs
  by_contra hspan
  rw [Bool.not_eq_true] at hspan
  obtain ⟨⟨-, hpos⟩, hrest⟩ := (Scale.tiles_cons hspan).mp h
  have := hrest.le hr
  simp only [Scale.fin, segScale] at this hpos
  omega

/-! ## Neighbouring free segments -/

/-- No two free segments are neighbours: the scan whose state says whether the last segment was
free. -/
def apartScan : Scan Bool Seg where
  next _ s := s.isFree
  ok b s := ¬ (b = true ∧ s.isFree = true)
  done _ := True

/-- No two neighbours in `V` are free, and the first is not if `b`. -/
def Apart (b : Bool) (V : List Seg) : Prop := apartScan.Accepts b V

@[simp] theorem apart_nil (b : Bool) : Apart b [] := trivial

@[simp] theorem apart_cons (b : Bool) (s : Seg) (V : List Seg) :
    Apart b (s :: V) ↔ ¬ (b = true ∧ s.isFree = true) ∧ Apart s.isFree V := Iff.rfl

/-- Knowing less about the segment before asks less. -/
theorem Apart.weaken {b : Bool} (h : Apart b V) : Apart false V := by
  cases V with
  | nil => trivial
  | cons s V => exact ⟨fun hs => Bool.false_ne_true hs.1, h.2⟩

/-- A segment that is not free may stand before anything that stood after a free one. -/
theorem Apart.strengthen (h : Apart false V) (hV : ∀ e ∈ V.head?, e.type ≠ .kVMemSegFree) :
    Apart true V := by
  cases V with
  | nil => trivial
  | cons s V =>
      refine ⟨fun hs => hV s rfl ?_, h.2⟩
      exact of_decide_eq_true hs.2

/-- A free segment is free. -/
theorem isFree_of_free {s : Seg} (h : s.type = .kVMemSegFree) : s.isFree = true :=
  decide_eq_true h

/-- An allocation leaves no free neighbours. -/
theorem apart_allocates (h : Apart false V) (ha : Allocates size min flags addr V V') :
    Apart false V' := by
  obtain ⟨L, f, R, rfl, hfree, -, -, rfl⟩ := ha.split
  rw [List.append_assoc]
  refine Scan.Accepts.splice h fun hacc => ?_
  obtain ⟨hb, hrest⟩ : ¬ (_ ∧ f.isFree = true) ∧ Apart f.isFree R := hacc
  rw [isFree_of_free hfree] at hb hrest
  have hafter : apartScan.after false L = false := by
    rw [Bool.eq_false_iff]
    exact fun ht => hb ⟨ht, rfl⟩
  show Apart (apartScan.after false L) _
  rw [hafter]
  unfold splitParts leftPart rightPart
  split <;> split <;> simp [Seg.isFree, hrest, hrest.weaken]

/-- The state of the scan after a list is whether its last segment is free. -/
theorem apart_after (b : Bool) (L : List Seg) :
    apartScan.after b L = L.getLast?.elim b Seg.isFree := by
  induction L generalizing b with
  | nil => rfl
  | cons s L ih =>
      rw [Scan.after_cons, ih, List.getLast?_cons]
      cases L.getLast? <;> rfl

/-- After a segment that is not free, the scan is in its initial state. -/
theorem apart_after_of_last {L : List Seg} (hL : ∀ f ∈ L.getLast?, f.type ≠ .kVMemSegFree) :
    apartScan.after false L = false := by
  rw [apart_after]
  cases hlast : L.getLast? with
  | none => rfl
  | some f => exact decide_eq_false (hL f hlast)

/-- A release leaves no free neighbours, whichever way it is coalesced. -/
theorem apart_releases (h : Apart false V) (hg : g.type = .kVMemSegAllocated)
    (hrel : Releases g V V') : Apart false V' := by
  have hgf : g.isFree = false := decide_eq_false (by rw [hg]; decide)
  -- two free segments side by side could arise only next to the one that is released
  cases hrel with
  | both L f e R hf he =>
      refine Scan.Accepts.splice h fun hacc => ?_
      obtain ⟨hb, -, -, hrest⟩ := hacc
      refine ⟨fun hs => hb ⟨hs.1, isFree_of_free hf⟩, ?_⟩
      show Apart true R
      rw [← isFree_of_free he]
      exact hrest
  | left L f R hf hR =>
      refine Scan.Accepts.splice h fun hacc => ?_
      obtain ⟨hb, -, hrest⟩ := hacc
      refine ⟨fun hs => hb ⟨hs.1, isFree_of_free hf⟩, Apart.strengthen ?_ hR⟩
      rw [← hgf]
      exact hrest
  | right L e R he hL =>
      refine Scan.Accepts.splice h fun hacc => ?_
      obtain ⟨-, -, hrest⟩ := hacc
      refine ⟨fun hs => ?_, ?_⟩
      · rw [apart_after_of_last hL] at hs
        exact Bool.false_ne_true hs.1
      · show Apart true R
        rw [← isFree_of_free he]
        exact hrest
  -- the segment stays Allocated, so nothing free has become a neighbour
  | lost L R hL hR =>
      refine Scan.Accepts.splice h fun hacc => ?_
      rw [apart_after_of_last hL]
      have hrest : Apart g.isFree R := hacc.2
      exact hrest.weaken

/-- Opening a span leaves no free neighbours. -/
theorem apart_adds {base : ℕ} (h : Apart false V) (ha : Adds base size V V') : Apart false V' := by
  obtain ⟨A, B, rfl, -, hB, rfl⟩ := ha.split
  refine Scan.Accepts.splice h fun hacc => ?_
  have hacc : Apart (apartScan.after false A) B := hacc
  refine ⟨fun hs => Bool.false_ne_true hs.2, fun hs => Bool.false_ne_true hs.1, ?_⟩
  -- the segment after the new free one, if any, is a span marker
  refine Apart.strengthen hacc.weaken fun e he hfree => ?_
  exact Bool.false_ne_true ((isSpan_of_free hfree).symm.trans (hB e he).1)

/-- No two neighbours are free. -/
theorem Apart.isChain {b : Bool} (h : Apart b V) :
    V.IsChain fun a b => ¬ (a.isFree = true ∧ b.isFree = true) := by
  induction V generalizing b with
  | nil => exact .nil
  | cons a V ih =>
      cases V with
      | nil => exact .singleton a
      | cons c V => exact .cons_cons h.2.1 (ih h.2)

end Scalux.Vmem
