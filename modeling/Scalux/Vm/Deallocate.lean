import Scalux.Vm.MapArena

/-! # What `vm_deallocate` removes

"For now only handles deallocation of whole objects."  An entry inside the range is removed, and one
that the range cuts at its left end is fatal.  The branch for the right end repeats the condition of
the first, so an entry that the range cuts there, or that encloses the range, is passed over without a
word; so is every entry if `start + size` wraps.

* **`deallocate_loop`**: what the loop leaves, with the page tables.
* **`deallocate_iff`**: the whole range is removed exactly if it meets no entry that is passed over. -/

namespace Scalux.Vm

variable {s s' : State} {m : MapId} {o : ObjId} {a : AnonId} {v lo start size : ℕ} {map : Map}
  {e f : Entry}

/-- The entry and the range have an address in common. -/
def Entry.Meets (e : Entry) (start size : ℕ) : Prop := ∃ v, e.Has v ∧ start ≤ v ∧ v < start + size

/-- `vm_deallocate` has removed the whole range from a map: no entry that is left meets it, the pages of
the entries that are gone are not mapped, and an entry that does not meet it is left with its
mappings. -/
structure Deallocated (m : MapId) (start size : ℕ) (map map' : Map) (s s' : State) : Prop where
  gone : ∀ e ∈ map'.entries, ¬ e.Meets start size
  unmapped : ∀ e ∈ map.entries, e ∉ map'.entries → ∀ v, e.Has v → s'.pmap m (pteIndex v) = none
  unchanged : ∀ e ∈ map.entries, ¬ e.Meets start size → e ∈ map'.entries ∧
    ∀ v, e.Has v → s'.pmap m (pteIndex v) = s.pmap m (pteIndex v)

/-- The entry meets the range and is passed over: `start + size` wraps, or the entry reaches the end of
the range and is not inside it. -/
def Entry.PassedOver (e : Entry) (start size : ℕ) : Prop :=
  e.Meets start size ∧
    (2 ^ 64 ≤ start + size ∨ (start + size ≤ e.stop ∧ (e.start < start ∨ start + size < e.stop)))

/-- An entry meets the range when each begins before the other ends, and neither is empty. -/
theorem Entry.meets_iff (hne : e.start < e.stop) :
    e.Meets start size ↔ e.start < start + size ∧ start < e.stop ∧ 0 < size := by
  constructor
  · rintro ⟨v, ⟨hlo, hhi⟩, hge, hlt⟩
    omega
  · rintro ⟨hlo, hhi, hpos⟩
    exact ⟨max e.start start, ⟨le_max_left _ _, by omega⟩, le_max_right _ _, by omega⟩

/-! ## Page tables -/

/-- `vm_anon_release` leaves the page tables. -/
theorem anonRelease_pmap (h : anonRelease s a = some s') : s'.pmap = s.pmap := by
  obtain ⟨anon, -, ⟨-, rfl⟩ | ⟨-, rfl⟩⟩ := anonRelease_cases h
  · rfl
  · rfl

/-- `vm_object_release` leaves the page tables. -/
theorem vmObjectRelease_pmap (h : vmObjectRelease s o = some s') : s'.pmap = s.pmap := by
  obtain ⟨obj, -, ⟨-, rfl⟩ | ⟨-, s₁, hrel, rfl⟩⟩ := vmObjectRelease_cases h
  · rfl
  · exact foldlM_invariant (P := fun x => x.pmap = s.pmap) hrel rfl
      fun _ _ _ _ hx hs => (anonRelease_pmap hs).trans hx

/-- `pmap_unenter` clears one entry of a page table. -/
theorem pmapUnenter_pmap {page : Option Page} (h : pmapUnenter s m page v = some s') (q : ℕ) :
    s'.pmap m q = if q = pteIndex v then none else s.pmap m q := by
  rcases pmapUnenter_cases h with ⟨hnone, rfl⟩ | ⟨pte, -, -, rfl⟩
  · split
    · rename_i hq
      rw [hq, hnone]
    · rfl
  · refine (setPte_pmap none m q).trans ?_
    simp

/-- The loop of `unmap_entry` clears those of a list of pages. -/
theorem unenterAll_pmap {l : List ℕ} (h : l.foldlM (fun s v => pmapUnenter s m none v) s = some s')
    (q : ℕ) : s'.pmap m q = if q ∈ l.map pteIndex then none else s.pmap m q := by
  induction l generalizing s with
  | nil =>
      obtain rfl : s = s' := Option.some.inj h
      rfl
  | cons v l ih =>
      rw [List.foldlM_cons] at h
      obtain ⟨s₁, hun, h⟩ := Option.bind_eq_some_iff.mp h
      rw [ih h, pmapUnenter_pmap hun]
      simp only [List.map_cons, List.mem_cons]
      by_cases hq : q = pteIndex v <;> simp [hq]

/-- `unmap_entry` clears those of the pages of the entry. -/
theorem unmapEntry_pmap (h : unmapEntry s m e = some s') (q : ℕ) :
    s'.pmap m q = if q ∈ e.pages.map pteIndex then none else s.pmap m q := by
  obtain ⟨map, n, vmem, s₁, s₂, map₂, -, -, hun, hrel, -, rfl⟩ := unmapEntry_cases h
  have h₁ := unenterAll_pmap hun q
  rw [← vmObjectRelease_pmap hrel] at h₁
  exact h₁

/-- The pages `unmap_entry` goes through are in the entry. -/
theorem EntryOk.has_of_mem_pages (hok : EntryOk lo e) (h : v ∈ e.pages) :
    e.Has v ∧ v % pgSize = 0 := by
  obtain ⟨i, hi, rfl⟩ := List.mem_map.mp h
  obtain ⟨k, hk⟩ := hok.start_dvd
  obtain ⟨l, hl⟩ := hok.stop_dvd
  have hi := List.mem_range.mp hi
  unfold Entry.Has
  unfold pgSize at *
  omega

/-- Clearing the pages of an entry clears every address of it. -/
theorem EntryOk.mem_pteIndex (hok : EntryOk lo e) (h : e.Has v) :
    pteIndex v ∈ e.pages.map pteIndex := by
  rw [← pteIndex_pgRoundDown]
  exact List.mem_map_of_mem (hok.mem_pages (hok.has_pgRoundDown h) (pgRoundDown_mod v))

/-- It clears no address of another entry of the span. -/
theorem EntryOk.not_mem_pteIndex (hoke : EntryOk lo e) (hokf : EntryOk lo f) (hap : e.Apart f)
    (h : f.Has v) : pteIndex v ∉ e.pages.map pteIndex := by
  intro hmem
  obtain ⟨w, hw, heq⟩ := List.mem_map.mp hmem
  obtain ⟨hhas, halign⟩ := hoke.has_of_mem_pages hw
  have hround := hokf.has_pgRoundDown h
  rw [← pteIndex_pgRoundDown v] at heq
  have hsame : w = pgRoundDown v :=
    pteIndex_inj halign (pgRoundDown_mod v) (hoke.lo_le.trans hhas.1) (hhas.2.trans_le hoke.le_hi)
      (hokf.lo_le.trans hround.1) (hround.2.trans_le hokf.le_hi) heq
  exact hap.not_has hhas (hsame ▸ hround)

/-! ## The loop -/

/-- What holds between two iterations of the loop. -/
structure Loop (m : MapId) (map : Map) (s x : State) (map' : Map) : Prop where
  this : x.maps.get? m = some map'
  sub : map'.entries.Sublist map.entries
  unmapped : ∀ e ∈ map.entries, e ∉ map'.entries → ∀ v, e.Has v → x.pmap m (pteIndex v) = none
  unchanged : ∀ e ∈ map'.entries, ∀ v, e.Has v → x.pmap m (pteIndex v) = s.pmap m (pteIndex v)

section Entries

variable (hok : ∀ e ∈ map.entries, EntryOk lo e) (hap : map.entries.Pairwise Entry.Apart)
include hok hap

/-- One entry is removed. -/
theorem loop_unmap {x x' : State} {map' : Map} (h : Loop m map s x map') (he : e ∈ map'.entries)
    (hun : unmapEntry x m e = some x') :
    ∃ vmem, Loop m map s x' ⟨map'.entries.erase e, vmem⟩ := by
  obtain ⟨n, vmem, -, hmaps⟩ := unmapEntry_maps h.this hun
  have hnodup : map'.entries.Nodup := (nodup_of_apart (fun e he => (hok e he).nonempty) hap).sublist h.sub
  have hpmap := unmapEntry_pmap hun
  refine ⟨vmem, (becomes_set h.this hmaps).this, List.erase_sublist.trans h.sub, ?_, ?_⟩
  · intro f hf hgone v hv
    rw [hpmap]
    by_cases hfe : f = e
    · subst hfe
      rw [if_pos ((hok f hf).mem_pteIndex hv)]
    · split
      · rfl
      · exact h.unmapped f hf (fun hmem => hgone ((List.mem_erase_of_ne hfe).mpr hmem)) v hv
  · intro f hf v hv
    obtain ⟨hfe, hf⟩ := hnodup.mem_erase_iff.mp hf
    have hapart : e.Apart f := (hap.sublist h.sub).forall he hf (Ne.symm hfe)
    rw [hpmap, if_neg ((hok e (h.sub.subset he)).not_mem_pteIndex (hok f (h.sub.subset hf)) hapart hv)]
    exact h.unchanged f hf v hv

/-- **The loop of `vm_deallocate`.** -/
theorem deallocate_loop (hmap : s.maps.get? m = some map)
    (hs : vmDeallocate s m start size = some s') :
    ∃ map', Loop m map s s' map' ∧ ∀ e, e ∈ map'.entries ↔
      e ∈ map.entries ∧ ¬ (start ≤ e.start ∧ e.stop ≤ add64 start size) := by
  refine deallocate_rule (R := fun x map' => Loop m map s x map') ?_ ?_ ?_ hmap ?_ hs
  · exact fun x map' h => (nodup_of_apart (fun e he => (hok e he).nonempty) hap).sublist h.sub
  · exact fun x map' h e he => (hok e (h.sub.subset he)).nonempty
  · exact fun x map' e x' h he hun => loop_unmap hok hap h he hun
  · exact ⟨hmap, List.Sublist.refl _, fun e he hgone => absurd he hgone, fun _ _ _ _ => rfl⟩

end Entries

/-- `vm_deallocate` returns only if it meets no entry that the range cuts at its left end. -/
theorem not_cut_of_returns (hmap : s.maps.get? m = some map)
    (hs : vmDeallocate s m start size = some s') (he : e ∈ map.entries) :
    ¬ (e.start < start ∧ start < e.stop ∧ e.stop < add64 start size) := by
  unfold vmDeallocate at hs
  rw [hmap] at hs
  obtain ⟨x, x', hone⟩ := foldlM_returns hs e he
  rintro ⟨hlo, hhi, hcut⟩
  unfold deallocateEntry at hone
  rw [if_neg (by omega), if_neg (by omega), if_pos ⟨hlo, hcut⟩] at hone
  cases hone

/-- **What `vm_deallocate` removes.** For every map whose entries are disjoint ranges of pages of one span,
every `start` and `size`, and every call that returns: the whole range has been removed, with the
mappings of what was removed and no others, exactly if it meets no entry that is passed over. -/
theorem deallocate_iff (hmap : s.maps.get? m = some map) (hok : ∀ e ∈ map.entries, EntryOk lo e)
    (hap : map.entries.Pairwise Entry.Apart) (hstart : start < 2 ^ 64) (hsize : size < 2 ^ 64)
    (hs : vmDeallocate s m start size = some s') :
    (∃ map', s'.maps.get? m = some map' ∧ Deallocated m start size map map' s s') ↔
      ∀ e ∈ map.entries, ¬ e.PassedOver start size := by
  obtain ⟨map', hloop, hentries⟩ := deallocate_loop hok hap hmap hs
  have hleft : ∀ e ∈ map.entries, (e.Meets start size ∧ e ∈ map'.entries) ↔
      e.PassedOver start size := by
    intro e he
    have hne := (hok e he).nonempty
    have hcut := not_cut_of_returns hmap hs he
    unfold Entry.PassedOver
    rw [hentries, Entry.meets_iff hne]
    unfold add64 at hcut ⊢
    simp only [he, true_and]
    rcases Nat.lt_or_ge (start + size) (2 ^ 64) with hlt | hge
    · rw [Nat.mod_eq_of_lt hlt] at hcut ⊢
      omega
    · have hwrap : (start + size) % 2 ^ 64 = start + size - 2 ^ 64 := by omega
      rw [hwrap] at hcut ⊢
      omega
  constructor
  · rintro ⟨map₁, hmap₁, hdone⟩ e he hpassed
    obtain rfl := Option.some.inj (hloop.this.symm.trans hmap₁)
    obtain ⟨hmeets, hmem⟩ := (hleft e he).mpr hpassed
    exact hdone.gone e hmem hmeets
  · intro hnone
    refine ⟨map', hloop.this, fun e he hmeets => ?_, hloop.unmapped, fun e he hnot => ?_⟩
    · have hmem := hloop.sub.subset he
      exact hnone e hmem ((hleft e hmem).mp ⟨hmeets, he⟩)
    · have hmem : e ∈ map'.entries := by
        refine (hentries e).mpr ⟨he, fun hin => hnot ?_⟩
        -- an entry inside the range meets it
        have hne := (hok e he).nonempty
        have hle : add64 start size ≤ start + size := Nat.mod_le _ _
        exact ⟨e.start, ⟨le_rfl, hne⟩, hin.1, by omega⟩
      exact ⟨hmem, hloop.unchanged e hmem⟩

/-- A map with a page at `0x2000`, written, and two pages at `0x4000`. -/
def twoRanges : List Action :=
  [.call (.vmMapNew 1 [0, 1]), .call (.segRefill 1 [2, 3]), .call (.vmAllocate 1 0 0x2000 0x1000),
    .write 1 0x2000 7 0 0, .call (.segRefill 1 [4, 5]), .call (.vmAllocate 1 1 0x4000 0x2000)]

/-- Its entries. -/
def twoEntries : List Entry := [⟨0x2000, 0x3000, 0, 0⟩, ⟨0x4000, 0x6000, 0, 1⟩]

/-- The two entries of the example are well formed. -/
theorem entryOk_twoEntries : ∀ e ∈ twoEntries, EntryOk userBase e := by
  intro e he
  rcases List.mem_cons.mp he with rfl | he
  · constructor <;> decide
  · rw [List.mem_singleton.mp he]
    constructor <;> decide

/-- The two entries of the example are apart. -/
theorem apart_twoEntries : twoEntries.Pairwise Entry.Apart := by
  simp [twoEntries, Entry.Apart]

/-- The first of them is removed. -/
theorem deallocate_iff_first :
    ∃ t map s' map', machine.exec bootSys twoRanges = some t ∧ t.st.maps.get? 1 = some map ∧
      vmDeallocate t.st 1 0x1000 0x2000 = some s' ∧ s'.maps.get? 1 = some map' ∧
      map.entries.length = 2 ∧ Deallocated 1 0x1000 0x2000 map map' t.st s' := by
  have hrun : (machine.exec bootSys twoRanges).map (fun t =>
      ((t.st.maps.get? 1).map Map.entries, (vmDeallocate t.st 1 0x1000 0x2000).isSome))
      = some (some twoEntries, true) := by decide
  obtain ⟨t, ht, hval⟩ := Option.map_eq_some_iff.mp hrun
  obtain ⟨hmap, hret⟩ := Prod.mk.inj hval
  obtain ⟨map, hmap, hentries⟩ := Option.map_eq_some_iff.mp hmap
  obtain ⟨s', hs⟩ := Option.isSome_iff_exists.mp hret
  have hok : ∀ e ∈ map.entries, EntryOk userBase e := hentries ▸ entryOk_twoEntries
  have hap : map.entries.Pairwise Entry.Apart := hentries ▸ apart_twoEntries
  -- neither entry follows one that was removed
  have hnot : ∀ e ∈ map.entries, ¬ e.PassedOver 0x1000 0x2000 := by
    intro e he hpassed
    rw [Entry.PassedOver, Entry.meets_iff (hok e he).nonempty] at hpassed
    rw [hentries] at he
    rcases List.mem_cons.mp he with rfl | he
    · simp at hpassed
    · rw [List.mem_singleton.mp he] at hpassed
      simp at hpassed
  obtain ⟨map', hmap', hdone⟩ := (deallocate_iff hmap hok hap (by decide) (by decide) hs).mpr hnot
  exact ⟨t, map, s', map', ht, hmap, hs, hmap', by rw [hentries]; rfl, hdone⟩

/-- **A range that is not removed.** The entry at `[0x4000, 0x6000)` is cut at its right end by the range
`[0x3000, 0x5000)`; `vm_deallocate` returns and the entry is still there. -/
theorem deallocate_passes_over :
    ¬ ∀ (s s' : State) (m : MapId) (map : Map) (lo start size : ℕ), s.maps.get? m = some map →
      (∀ e ∈ map.entries, EntryOk lo e) → map.entries.Pairwise Entry.Apart → start % pgSize = 0 →
      size % pgSize = 0 → start + size < 2 ^ 64 → vmDeallocate s m start size = some s' →
      ∃ map', s'.maps.get? m = some map' ∧ Deallocated m start size map map' s s' := by
  intro h
  have hrun : (machine.exec bootSys twoRanges).map (fun t =>
      ((t.st.maps.get? 1).map Map.entries, (vmDeallocate t.st 1 0x3000 0x2000).map fun s' =>
        (s'.maps.get? 1).map Map.entries))
      = some (some twoEntries, some (some twoEntries)) := by decide
  obtain ⟨t, ht, hval⟩ := Option.map_eq_some_iff.mp hrun
  obtain ⟨hmap, hret⟩ := Prod.mk.inj hval
  obtain ⟨map, hmap, hentries⟩ := Option.map_eq_some_iff.mp hmap
  obtain ⟨s', hs, hleft⟩ := Option.map_eq_some_iff.mp hret
  have hok : ∀ e ∈ map.entries, EntryOk userBase e := hentries ▸ entryOk_twoEntries
  have hap : map.entries.Pairwise Entry.Apart := hentries ▸ apart_twoEntries
  obtain ⟨map', hmap', hdone⟩ := h t.st s' 1 map userBase 0x3000 0x2000 hmap hok hap (by decide)
    (by decide) (by decide) hs
  rw [hmap', Option.map_some, Option.some.injEq] at hleft
  refine hdone.gone ⟨0x4000, 0x6000, 0, 1⟩ (by rw [hleft]; simp [twoEntries]) ?_
  exact ⟨0x4000, by simp [Entry.Has], by decide, by decide⟩

end Scalux.Vm
