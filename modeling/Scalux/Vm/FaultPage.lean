import Scalux.Vm.MapArena

/-! # The page of an object that a fault is for

`vm_fault` looks for the entry with the address of the fault, rounds the address down to its page, and
takes the distance from the start of the entry.  `vm_map_object` does not ask for a start that is on a page
boundary: the first page of an entry then begins before the entry does, and the distance is negative.  Nor
does it ask whether the offset in the object and the size of the entry fit into a word together.

* **`maps_built`**: what is true of an entry however it was made.
* **`fault_page_iff`**: the pages of an entry are those of its part of the object exactly if it starts on a
  page boundary and its part of the object ends within the words. -/

namespace Scalux.Vm

variable {s s' : State} {m : MapId} {o : ObjId} {map : Map} {maps : Heap Map} {e : Entry} {v : ℕ}
  {t t' : Sys}

/-- The offset in the object that `vm_fault` hands to `fault_aobj`. -/
def faultOffset (e : Entry) (v : ℕ) : ℕ := add64 (sub64 (pgRoundDown v) e.start) e.offset

/-- The page that `fault_aobj` hands to `amap_anon_at`. -/
def faultPage (e : Entry) (v : ℕ) : ℕ := faultOffset e v / pgSize

/-- `vm_fault` at an address of an entry. -/
theorem vmFault_eq {flags : FaultFlags} {a : AnonId} {p : Page} {obj : Object}
    (hmap : s.maps.get? (mapFor m v) = some map) (he : mapEntryForAddr map.entries v = some e)
    (hobj : s.objs.get? e.obj = some obj) (htype : obj.type = .kVMObjAnon) :
    vmFault s m v flags a p
      = faultAobj s (mapFor m v) e.obj (pgRoundDown v) (faultOffset e v) flags a p := by
  unfold vmFault
  dsimp only
  rw [hmap, Option.bind_eq_bind, Option.bind_some, he]
  dsimp only
  rw [hobj, Option.bind_eq_bind, Option.bind_some, if_pos htype]
  rfl

/-- The pages of the addresses of an entry: those over the integers, in the part of the object that is
mapped, and a page of the object for each page of addresses. -/
structure PagesOk (e : Entry) : Prop where
  page_eq : ∀ v, e.start ≤ v → v < e.stop →
    (faultPage e v : ℤ) = ((pgRoundDown v : ℤ) - e.start + e.offset) / pgSize
  le_page : ∀ v, e.start ≤ v → v < e.stop → e.offset / pgSize ≤ faultPage e v
  page_lt : ∀ v, e.start ≤ v → v < e.stop →
    faultPage e v < (e.offset + (e.stop - e.start)) / pgSize
  same_page : ∀ v w, e.start ≤ v → v < e.stop → e.start ≤ w → w < e.stop →
    (faultPage e v = faultPage e w ↔ pgRoundDown v = pgRoundDown w)

/-! ## How entries are made -/

/-- An entry that `vm_map_object` has made. -/
structure Built (e : Entry) : Prop where
  stop_eq : ∃ size, size < 2 ^ 64 ∧ size % pgSize = 0 ∧ e.stop = add64 e.start size
  offset_lt : e.offset < 2 ^ 64
  offset_aligned : e.offset % pgSize = 0

/-- Every entry of every map has been made so. -/
def AllBuilt (maps : Heap Map) : Prop :=
  ∀ m map, maps.get? m = some map → ∀ e ∈ map.entries, Built e

/-- Replacing a map by one that is built keeps every map built. -/
theorem AllBuilt.becomes {map' : Map} (h : AllBuilt s.maps) (hb : Becomes m map' s s')
    (hnew : ∀ e ∈ map'.entries, Built e) : AllBuilt s'.maps := by
  intro m₁ map₁ hget
  by_cases hm : m₁ = m
  · subst hm
    rw [hb.this] at hget
    exact Option.some.inj hget ▸ hnew
  · rw [hb.other m₁ hm] at hget
    exact h m₁ map₁ hget

/-- `vm_map_object`. -/
theorem AllBuilt.mapObject {vaddr size offset : ℕ} {newobj : Option ObjId} {r : Except ℤ ℕ}
    (h : AllBuilt s.maps) (hsize : size < 2 ^ 64) (hlt : offset < 2 ^ 64) (hoff : offset % pgSize = 0)
    (hs : vmMapObject s m o vaddr size offset newobj = some (r, s')) : AllBuilt s'.maps := by
  have hpages := (vmMapObject_cases hs).1
  obtain ⟨map, vmem, hmap, -, hmaps⟩ := vmMapObject_maps hs
  refine h.becomes (becomes_set hmap hmaps) fun e he => ?_
  cases r with
  | error code => exact h m map hmap e he
  | ok addr =>
      rcases List.mem_append.mp he with he | he
      · exact h m map hmap e he
      · rw [List.mem_singleton.mp he]
        exact ⟨⟨size, hsize, hpages, rfl⟩, hlt, hoff⟩

/-- `vm_deallocate`: entries go, and none is made. -/
theorem AllBuilt.deallocate {start size : ℕ} (h : AllBuilt s.maps)
    (hs : vmDeallocate s m start size = some s') : AllBuilt s'.maps := by
  refine deallocate_maps hs h fun maps map e vmem hmap hall m' map' hget e' he' => ?_
  rw [Heap.get?_set hmap] at hget
  split at hget
  · cases hget
    exact hall m map hmap e' (List.mem_of_mem_erase he')
  · exact hall m' map' hget e' he'

/-- `vm_map_new`. -/
theorem AllBuilt.mapNew {pool : List Vmem.Tag} (h : AllBuilt s.maps)
    (hs : vmMapNew s m pool = some s') : AllBuilt s'.maps := by
  obtain ⟨vmem, maps, -, halloc, rfl⟩ := vmMapNew_eq hs
  intro m₁ map₁ hget
  have hget : maps.get? m₁ = some map₁ := hget
  rw [Heap.get?_alloc halloc] at hget
  split at hget
  · cases hget
    simp
  · exact h m₁ map₁ hget

/-- The loop of `vm_map_fork`. -/
theorem AllBuilt.forkEntries {newmap : MapId} {es : List Entry} {os : List ObjId}
    (h : AllBuilt s.maps) (hes : ∀ e ∈ es, Built e) (hs : forkEntries newmap s es os = some s') :
    AllBuilt s'.maps := by
  induction es generalizing s os with
  | nil =>
      cases hs
      exact h
  | cons e es ih =>
      cases os with
      | nil => cases hs
      | cons o os =>
          obtain ⟨s₁, hone, hs⟩ := Option.bind_eq_some_iff.mp hs
          obtain ⟨s₂, addr, s₃, hcopy, hmap, hrel⟩ := forkEntry_cases hone
          have he := hes e List.mem_cons_self
          have h₂ : AllBuilt s₂.maps := vmObjectCopy_maps hcopy ▸ h
          have hlt : sub64 e.stop e.start < 2 ^ 64 := Nat.mod_lt _ (Nat.two_pow_pos 64)
          have h₃ := h₂.mapObject hlt he.offset_lt he.offset_aligned hmap
          have h₁ : AllBuilt s₁.maps := vmObjectRelease_maps hrel ▸ h₃
          exact ih h₁ (fun e' he' => hes e' (List.mem_cons_of_mem _ he')) hs

/-- **Every call** makes entries so. -/
theorem AllBuilt.call {c : Call} (h : AllBuilt t.st.maps) (hs : call t c = some t') :
    AllBuilt t'.st.maps := by
  -- only the calls that add or remove entries change what a map is built of
  cases call_cases hs with
  | segRefill m pool map hmap hpool => exact h.becomes (becomes_set hmap rfl) (h m map hmap)
  | kheapAlloc npages hsize map addr vmem hmap hx =>
      exact h.becomes (becomes_set hmap rfl) (h kmap map hmap)
  | kheapFree addr map n vmem hmap hother hx =>
      exact h.becomes (becomes_set hmap rfl) (h kmap map hmap)
  | vmMapNew m pool hpool st hst => exact h.mapNew hst
  | vmAobjNew o size st hst => exact vmAobjNew_maps hst ▸ h
  | vmObjectRetain o st hst => exact vmObjectRetain_maps hst ▸ h
  | vmObjectRelease o hheld st hst => exact vmObjectRelease_maps hst ▸ h
  | vmObjectCopy o newobj st hst => exact vmObjectCopy_maps hst ▸ h
  | vmMapObject m o vaddr size offset newobj _ hsize hlt hoff r st hst =>
      exact h.mapObject hsize hlt hoff hst
  | vmAllocate m o vaddr size _ hsize r st hst =>
      obtain ⟨s₁, s₂, hnew, hmapobj, hrel⟩ := vmAllocate_cases hst
      have h₁ : AllBuilt s₁.maps := vmAobjNew_maps hnew ▸ h
      have h₂ := h₁.mapObject hsize (Nat.two_pow_pos 64) (Nat.zero_mod pgSize) hmapobj
      exact vmObjectRelease_maps hrel ▸ h₂
  | vmDeallocate m start size _ _ st hst => exact h.deallocate hst
  | vmMapFork m newmap newobjs pool hpool st hst =>
      obtain ⟨s₁, hnew, ⟨-, rfl⟩ | ⟨-, map, hmap, hfork⟩⟩ := vmMapFork_cases hst
      · exact h.mapNew hnew
      · have h₁ := h.mapNew hnew
        exact h₁.forkEntries (h₁ m map hmap) hfork

/-- A step of the system keeps every map built. -/
theorem AllBuilt.step {x : Action} (h : AllBuilt t.st.maps) (hs : step t x = some t') :
    AllBuilt t'.st.maps := by
  cases step_cases hs with
  | call c t' hcall => exact h.call hcall
  | read m v b a p st _ htouch => exact touch_maps htouch ▸ h
  | write m v b a p st st' _ htouch hstore =>
      have h₁ : AllBuilt st.maps := touch_maps htouch ▸ h
      exact store_maps hstore ▸ h₁
  | vmMapRelease m st hm hrel =>
      obtain ⟨s₁, map, hdealloc, -, -, rfl⟩ := vmMapRelease_cases hrel
      have h₁ := h.deallocate hdealloc
      intro m' map' hget
      have hget : (s₁.maps.free m).get? m' = some map' := hget
      rw [Heap.get?_free] at hget
      split at hget
      · cases hget
      · exact h₁ m' map' hget

/-- **Entries** of every map that is reached. -/
theorem maps_built {t₀ : Sys} (h₀ : Boot t₀) (h : machine.Reachable t₀ t) : AllBuilt t.st.maps := by
  refine h.invariant (I := fun t => AllBuilt t.st.maps) ?_ fun _ _ _ hi _ hs => hi.step hs
  intro m map hmap e he
  obtain rfl := h₀.maps_eq m (by rw [hmap]; simp)
  obtain ⟨seg, pool, vmem, -, -, hkmap⟩ := h₀.kmap_eq
  rw [hkmap] at hmap
  cases hmap
  cases he

/-! ## Pages -/

/-- An entry with an address in it. -/
theorem Built.range (h : Built e) (hne : e.start < e.stop) :
    e.stop < 2 ^ 64 ∧ (e.stop - e.start) % pgSize = 0 := by
  obtain ⟨size, hsize, hpages, hstop⟩ := h.stop_eq
  unfold add64 at hstop
  have hadd : e.stop = e.start + size := by omega
  refine ⟨by omega, ?_⟩
  rw [hadd, Nat.add_sub_cancel_left]
  exact hpages

/-- The offset of an address of an entry that starts on a page boundary and whose part of the object ends
within the words. -/
theorem faultOffset_eq (h : Built e) (halign : e.start % pgSize = 0)
    (hfits : e.offset + (e.stop - e.start) ≤ 2 ^ 64) (hlo : e.start ≤ v) (hhi : v < e.stop) :
    faultOffset e v = pgRoundDown v - e.start + e.offset ∧ e.start ≤ pgRoundDown v := by
  obtain ⟨hstop, hpages⟩ := h.range (Nat.lt_of_le_of_lt hlo hhi)
  unfold faultOffset add64 sub64 pgRoundDown
  unfold pgSize at *
  omega

/-- The pages of an aligned entry are those that the fault handler serves. -/
theorem pagesOk_of_aligned (h : Built e) (halign : e.start % pgSize = 0)
    (hfits : e.offset + (e.stop - e.start) ≤ 2 ^ 64) : PagesOk e := by
  have hoff := h.offset_aligned
  -- with the offset aligned, the page is counted from the rounded address
  have hpage : ∀ v, e.start ≤ v → v < e.stop →
      faultPage e v = (pgRoundDown v - e.start + e.offset) / pgSize ∧ e.start ≤ pgRoundDown v := by
    intro v hlo hhi
    obtain ⟨heq, hle⟩ := faultOffset_eq h halign hfits hlo hhi
    exact ⟨congrArg (· / pgSize) heq, hle⟩
  constructor
  · intro v hlo hhi
    obtain ⟨heq, hle⟩ := hpage v hlo hhi
    rw [heq, Int.natCast_ediv, Nat.cast_add, Nat.cast_sub hle]
  · intro v hlo hhi
    rw [(hpage v hlo hhi).1]
    exact Nat.div_le_div_right (Nat.le_add_left _ _)
  · intro v hlo hhi
    obtain ⟨-, hpages⟩ := h.range (Nat.lt_of_le_of_lt hlo hhi)
    rw [(hpage v hlo hhi).1]
    unfold pgRoundDown
    unfold pgSize at *
    omega
  · intro v w hlo hhi hlo' hhi'
    obtain ⟨heq, hle⟩ := hpage v hlo hhi
    obtain ⟨heq', hle'⟩ := hpage w hlo' hhi'
    rw [heq, heq']
    unfold pgRoundDown at *
    unfold pgSize at *
    omega

/-- The first address of an entry that does not start on a page boundary has a page before the part of the
object that is mapped, or one that is far from it. -/
theorem aligned_of_pagesOk (h : Built e) (hne : e.start < e.stop) (hok : PagesOk e) :
    e.start % pgSize = 0 := by
  obtain ⟨hstop, hpages⟩ := h.range hne
  have hoff := h.offset_aligned
  have hlt := h.offset_lt
  have heq := hok.page_eq e.start (Nat.le_refl _) hne
  have hle := hok.le_page e.start (Nat.le_refl _) hne
  unfold faultPage faultOffset add64 sub64 pgRoundDown at heq hle
  unfold pgSize at *
  omega

/-- The last page of an entry whose part of the object goes beyond the words is a page from the start of
the object. -/
theorem fits_of_pagesOk (h : Built e) (hne : e.start < e.stop) (hok : PagesOk e)
    (halign : e.start % pgSize = 0) : e.offset + (e.stop - e.start) ≤ 2 ^ 64 := by
  obtain ⟨hstop, hpages⟩ := h.range hne
  have hoff := h.offset_aligned
  have hlt := h.offset_lt
  have hlo : e.start ≤ e.stop - pgSize := by
    unfold pgSize at *
    omega
  have hhi : e.stop - pgSize < e.stop := by
    unfold pgSize at *
    omega
  have hle := hok.le_page (e.stop - pgSize) hlo hhi
  unfold faultPage faultOffset add64 sub64 pgRoundDown at hle
  unfold pgSize at *
  omega

/-- **Pages of faults.** For each entry of each map that is reached: the pages of its addresses are those
of its part of the object if and only if there are no addresses in it, or it starts on a page boundary
and its part of the object ends within the words. -/
theorem fault_page_iff {t₀ : Sys} (h₀ : Boot t₀) (h : machine.Reachable t₀ t)
    (hmap : t.st.maps.get? m = some map) (he : e ∈ map.entries) :
    PagesOk e ↔ e.stop ≤ e.start ∨
      (e.start % pgSize = 0 ∧ e.offset + (e.stop - e.start) ≤ 2 ^ 64) := by
  have hbuilt := maps_built h₀ h m map hmap e he
  constructor
  · intro hok
    by_cases hne : e.start < e.stop
    · have halign := aligned_of_pagesOk hbuilt hne hok
      exact .inr ⟨halign, fits_of_pagesOk hbuilt hne hok halign⟩
    · exact .inl (Nat.not_lt.mp hne)
  · rintro (hnone | ⟨halign, hfits⟩)
    · refine ⟨?_, ?_, ?_, ?_⟩
      · exact fun v hlo hhi => absurd hhi (by omega)
      · exact fun v hlo hhi => absurd hhi (by omega)
      · exact fun v hlo hhi => absurd hhi (by omega)
      · exact fun v w hlo hhi => absurd hhi (by omega)
    · exact pagesOk_of_aligned hbuilt halign hfits

/-- One map, with a page at an address that the caller has chosen. -/
def chosenRun (vaddr : ℕ) : List Action :=
  [.call (.vmMapNew 1 [0, 1]), .call (.segRefill 1 [2, 3]), .call (.vmAllocate 1 0 vaddr 0x1000)]

/-- An aligned page, which the fault handler serves. -/
theorem fault_page_iff_aligned :
    ∃ t map e, machine.Reachable bootSys t ∧ t.st.maps.get? 1 = some map ∧ e ∈ map.entries ∧
      e.start = 0x2000 ∧ e.stop = 0x3000 ∧ PagesOk e := by
  have hrun : (machine.exec bootSys (chosenRun 0x2000)).map (fun t =>
      (t.st.maps.get? 1).map Map.entries) = some (some [⟨0x2000, 0x3000, 0, 0⟩]) := by decide
  obtain ⟨t, ht, hmaps⟩ := Option.map_eq_some_iff.mp hrun
  obtain ⟨map, hmap, hentries⟩ := Option.map_eq_some_iff.mp hmaps
  have he : (⟨0x2000, 0x3000, 0, 0⟩ : Entry) ∈ map.entries := by simp [hentries]
  have hreach := Machine.reachable_of_exec ht
  exact ⟨t, map, _, hreach, hmap, he, rfl, rfl,
    (fault_page_iff boot_bootSys hreach hmap he).mpr (.inr (by decide))⟩

/-- A page at `0x1800`: the fault at its first address is for page `2 ^ 52 - 1` of the object. -/
theorem fault_page_unaligned :
    ¬ ∀ t₀, Boot t₀ → ∀ t, machine.Reachable t₀ t → ∀ m map, t.st.maps.get? m = some map →
      ∀ e ∈ map.entries, PagesOk e := by
  intro hall
  have hrun : (machine.exec bootSys (chosenRun 0x1800)).map (fun t =>
      (t.st.maps.get? 1).map Map.entries) = some (some [⟨0x1800, 0x2800, 0, 0⟩]) := by decide
  obtain ⟨t, ht, hmaps⟩ := Option.map_eq_some_iff.mp hrun
  obtain ⟨map, hmap, hentries⟩ := Option.map_eq_some_iff.mp hmaps
  have he : (⟨0x1800, 0x2800, 0, 0⟩ : Entry) ∈ map.entries := by simp [hentries]
  have hok := hall bootSys boot_bootSys t (Machine.reachable_of_exec ht) 1 map hmap _ he
  have hlt := hok.page_lt 0x1800 (by decide) (by decide)
  revert hlt
  decide

end Scalux.Vm
