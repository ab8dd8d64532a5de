import Scalux.Lib.Run
import Scalux.Vm.MapSteps

/-! # The `pv_table` of a page

A page records the mappings made of it, so that `amap_copy` can make them all read-only and
`pmap_unenter` can take them out.  The record is exact if it has one entry for each page table entry
that maps the page and no other.

The functions that write page tables keep it exact under one condition: a page table entry is
entered where there is none, re-entered with the page it has, and un-entered with the page it has.
`vm_fault` chooses between these by the flags of the trap and by the anon it finds in the slot, so
it keeps the record exact if both agree with the page table (`faultAgrees`).  The flags are sampled
when the thread traps; a second thread that traps on the same page before the first one is handled
is handled with flags that no longer agree, and the page gets a second entry for one mapping.

* **`pv_exact`**: in every run whose faults agree with the page tables the record is exact.
* **`pv_duplicate`**: two threads that read one page at the same time. -/

namespace Scalux.Vm

variable {s s' : State} {m : MapId} {o : ObjId} {a : AnonId} {p : Page} {v : ℕ}

/-- The page that the page tables of a map have at an index. -/
def pageAt (s : State) (m : MapId) (q : ℕ) : Option Page := (s.pmap m q).map Pte.page

/-- The place in the page tables that a `pv_entry` is about. -/
def pvKey (x : MapId × ℕ) : MapId × ℕ := (x.1, pteIndex x.2)

/-- The `pv_table` of each page has exactly one entry for every page table entry that maps the page,
and no other entry. -/
def PvExact (s : State) : Prop :=
  ∀ p m q, ((s.pv p).map pvKey).count (m, q) = if pageAt s m q = some p then 1 else 0

/-- The record is exact, and a map that is not in use has empty page tables. -/
structure PvInv (s : State) : Prop where
  exact : PvExact s
  unused : ∀ m, s.maps.get? m = none → ∀ q, s.pmap m q = none

/-! ## The functions that write page tables -/

/-- Writing one entry: `if m' = m ∧ q = pteIndex v then x.map Pte.page else pageAt s m' q`. -/
theorem pageAt_setPte (x : Option Pte) (m' : MapId) (q : ℕ) :
    pageAt (setPte s m v x) m' q
      = if m' = m ∧ q = pteIndex v then x.map Pte.page else pageAt s m' q := by
  unfold pageAt
  rw [setPte_pmap]
  split <;> rfl

/-- What neither writes page tables nor `pv_table`s, nor frees a map, keeps the record. -/
theorem PvInv.congr (h : PvInv s) (hpmap : s'.pmap = s.pmap) (hpv : s'.pv = s.pv)
    (hmaps : ∀ m, s'.maps.get? m = none → s.maps.get? m = none) : PvInv s' where
  exact p m q := by
    rw [pageAt, hpmap, hpv]
    exact h.exact p m q
  unused m hm q := by
    rw [hpmap]
    exact h.unused m (hmaps m hm) q

/-- A `pv_entry` is about a page table entry that maps the page. -/
theorem PvExact.pageAt_of_mem (h : PvExact s) {x : MapId × ℕ} (hx : x ∈ s.pv p) :
    pageAt s x.1 (pteIndex x.2) = some p := by
  by_contra hne
  have hcount := h p x.1 (pteIndex x.2)
  rw [if_neg hne, List.count_eq_zero] at hcount
  exact hcount (List.mem_map.mpr ⟨x, hx, rfl⟩)

/-- `pmap_enter` where there is no page table entry. -/
theorem pvExact_enter (h : PvExact s) (hnone : s.pmap m (pteIndex v) = none) (write : Bool) :
    PvExact (pmapEnter s m p v write) := by
  intro p' m' q
  have hcount := h p' m' q
  have hpage : pageAt (pmapEnter s m p v write) m' q
      = if m' = m ∧ q = pteIndex v then some p else pageAt s m' q := pageAt_setPte _ m' q
  have hold : m' = m ∧ q = pteIndex v → pageAt s m' q = none := by
    rintro ⟨rfl, rfl⟩
    rw [pageAt, hnone]
    rfl
  have hpv : (pmapEnter s m p v write).pv p' = if p' = p then (m, v) :: s.pv p else s.pv p' := by
    show Function.update s.pv p ((m, v) :: s.pv p) p' = _
    rw [Function.update_apply]
  rw [hpage, hpv]
  -- the list of the page has one more, at the key that had no entry before
  by_cases hp : p' = p
  · subst hp
    rw [if_pos rfl, List.map_cons, List.count_cons, hcount]
    by_cases hk : m' = m ∧ q = pteIndex v
    · obtain ⟨rfl, rfl⟩ := hk
      simp [hold ⟨rfl, rfl⟩, pvKey]
    · have hne : pvKey (m, v) ≠ (m', q) := fun heq => hk ⟨(Prod.mk.inj heq).1.symm,
        (Prod.mk.inj heq).2.symm⟩
      simp [hk, hne]
  · rw [if_neg hp, hcount]
    by_cases hk : m' = m ∧ q = pteIndex v
    · rw [hold hk, if_pos hk]
      simp [Ne.symm hp]
    · rw [if_neg hk]

/-- `pmap_reenter` of the page that is there. -/
theorem pageAt_reenter (h : pageAt s m (pteIndex v) = some p) (write : Bool) :
    pageAt (pmapReenter s m p v write) = pageAt s := by
  funext m' q
  refine (pageAt_setPte _ m' q).trans ?_
  split
  · rename_i hk
    rw [hk.1, hk.2, h]
    rfl
  · rfl

/-- What keeps the pages in the page tables and the `pv_table`s keeps the record exact. -/
theorem PvExact.congr (h : PvExact s) (hpage : pageAt s' = pageAt s) (hpv : s'.pv = s.pv) :
    PvExact s' := by
  intro p m q
  rw [hpage, hpv]
  exact h p m q

/-- Re-entering a list of mappings makes their page table entries read-only, and nothing else. -/
theorem foldl_reenter_eq (l : List (MapId × ℕ)) :
    ∃ f, l.foldl (fun s x => pmapReenter s x.1 p x.2 false) s = { s with pmap := f } ∧
      ∀ m q, f m q = if (m, q) ∈ l.map pvKey then some ⟨p, false⟩ else s.pmap m q := by
  induction l generalizing s with
  | nil => exact ⟨s.pmap, rfl, fun m q => rfl⟩
  | cons x l ih =>
      obtain ⟨f, hf, hpmap⟩ := ih (s := pmapReenter s x.1 p x.2 false)
      refine ⟨f, hf, fun m q => ?_⟩
      have hx : (pmapReenter s x.1 p x.2 false).pmap m q
          = if m = x.1 ∧ q = pteIndex x.2 then some ⟨p, false⟩ else s.pmap m q := setPte_pmap _ m q
      have hcons : (m, q) ∈ (x :: l).map pvKey ↔
          (m = x.1 ∧ q = pteIndex x.2) ∨ (m, q) ∈ l.map pvKey := by
        rw [List.map_cons, List.mem_cons, pvKey, Prod.mk.injEq]
      rw [hpmap, hx]
      simp only [hcons]
      by_cases hmem : (m, q) ∈ l.map pvKey
      · rw [if_pos hmem, if_pos (.inr hmem)]
      · rw [if_neg hmem]
        by_cases hk : m = x.1 ∧ q = pteIndex x.2
        · rw [if_pos hk, if_pos (.inl hk)]
        · rw [if_neg hk, if_neg (not_or.mpr ⟨hk, hmem⟩)]

/-- **`pmap_reenter_all_readonly`** makes exactly the mappings of the page read-only, if the record
is exact. -/
theorem reenterAll_eq (h : PvExact s) (p : Page) :
    ∃ f, pmapReenterAllReadonly s p = { s with pmap := f } ∧
      ∀ m q, f m q = if pageAt s m q = some p then some ⟨p, false⟩ else s.pmap m q := by
  obtain ⟨f, hf, hpmap⟩ := foldl_reenter_eq (s := s) (p := p) (s.pv p)
  refine ⟨f, hf, fun m q => ?_⟩
  have hmem : (m, q) ∈ (s.pv p).map pvKey ↔ pageAt s m q = some p := by
    rw [← List.count_pos_iff, h p m q]
    split <;> simp [*]
  rw [hpmap]
  simp only [hmem]

/-- A page table entry is absent where no page is. -/
theorem pmap_eq_none {q : ℕ} : s.pmap m q = none ↔ pageAt s m q = none := by
  rw [pageAt, Option.map_eq_none_iff]

/-- `pmap_reenter_all_readonly` keeps the record. -/
theorem pvInv_reenterAll (h : PvInv s) (p : Page) : PvInv (pmapReenterAllReadonly s p) := by
  obtain ⟨f, hf, hpmap⟩ := reenterAll_eq h.exact p
  rw [hf]
  have hpage : pageAt { s with pmap := f } = pageAt s := by
    funext m q
    show (f m q).map Pte.page = pageAt s m q
    rw [hpmap]
    split
    · rename_i hat
      exact hat.symm
    · rfl
  refine ⟨h.exact.congr hpage rfl, fun m hm q => ?_⟩
  rw [pmap_eq_none, hpage, ← pmap_eq_none]
  exact h.unused m hm q

/-- `pmap_enter` into a map that is in use, where there is no page table entry. -/
theorem pvInv_enter (h : PvInv s) {map : Map} (hm : s.maps.get? m = some map)
    (hnone : s.pmap m (pteIndex v) = none) (write : Bool) :
    PvInv (pmapEnter s m p v write) := by
  refine ⟨pvExact_enter h.exact hnone write, fun m' hm' q => ?_⟩
  have hfree : s.maps.get? m' = none := hm'
  have hne : m' ≠ m := by
    rintro rfl
    rw [hm] at hfree
    cases hfree
  refine (setPte_pmap _ m' q).trans ?_
  rw [if_neg fun hk => hne hk.1]
  exact h.unused m' hfree q

/-- `pmap_reenter` of the page that is there keeps the record. -/
theorem pvInv_reenter (h : PvInv s) (hat : pageAt s m (pteIndex v) = some p) (write : Bool) :
    PvInv (pmapReenter s m p v write) := by
  have hsame := pageAt_reenter hat write
  refine ⟨h.exact.congr hsame rfl, fun m' hm' q => ?_⟩
  rw [pmap_eq_none, hsame, ← pmap_eq_none]
  exact h.unused m' hm' q

/-- `pmap_unenter` given the page that is there, or none. -/
theorem pvInv_unenter (h : PvInv s) {page : Option Page}
    (hpage : ∀ p ∈ page, ∀ pte, s.pmap m (pteIndex v) = some pte → pte.page = p)
    (hs : pmapUnenter s m page v = some s') :
    PvInv s' ∧ s'.pmap m (pteIndex v) = none ∧ s'.maps = s.maps := by
  rcases pmapUnenter_cases hs with ⟨hnone, rfl⟩ | ⟨pte, hpte, hmem, rfl⟩
  · exact ⟨h, hnone, rfl⟩
  · have hp : page.getD pte.page = pte.page := by
      cases page with
      | none => rfl
      | some p => exact (hpage p rfl pte hpte).symm
    rw [hp] at hmem ⊢
    refine ⟨⟨?_, ?_⟩, ?_, rfl⟩
    · intro p' m' q
      have hcount := h.exact p' m' q
      have hp' : pageAt (setPv (setPte s m v none) pte.page ((s.pv pte.page).erase (m, v))) m' q
          = if m' = m ∧ q = pteIndex v then none else pageAt s m' q := pageAt_setPte _ m' q
      have hpv : (setPv (setPte s m v none) pte.page ((s.pv pte.page).erase (m, v))).pv p'
          = if p' = pte.page then (s.pv pte.page).erase (m, v) else s.pv p' := by
        show Function.update s.pv pte.page _ p' = _
        rw [Function.update_apply]
      rw [hp', hpv]
      -- the mapping goes from the page table and from the list of its page, one each
      have hkey : pageAt s m (pteIndex v) = some pte.page := by
        rw [pageAt, hpte]
        rfl
      by_cases hpp : p' = pte.page
      · subst hpp
        have herase : ((s.pv pte.page).map pvKey).Perm
            (pvKey (m, v) :: ((s.pv pte.page).erase (m, v)).map pvKey) :=
          (List.perm_cons_erase hmem).map pvKey
        have := herase.count_eq (m', q)
        rw [hcount, List.count_cons] at this
        rw [if_pos rfl]
        by_cases hk : m' = m ∧ q = pteIndex v
        · obtain ⟨rfl, rfl⟩ := hk
          simp [hkey, pvKey] at this ⊢
          omega
        · have hne : pvKey (m, v) ≠ (m', q) := fun heq => hk ⟨(Prod.mk.inj heq).1.symm,
            (Prod.mk.inj heq).2.symm⟩
          simp [hk, hne] at this ⊢
          omega
      · rw [if_neg hpp, hcount]
        by_cases hk : m' = m ∧ q = pteIndex v
        · obtain ⟨rfl, rfl⟩ := hk
          simp [hkey, Ne.symm hpp]
        · simp [hk]
    · intro m' hm' q
      refine (setPte_pmap _ m' q).trans ?_
      split
      · rfl
      · exact h.unused m' hm' q
    · exact (setPte_pmap _ m _).trans (if_pos ⟨rfl, rfl⟩)

/-- `pmap_unenter` writes one page table entry and takes `pv_entry`s out. -/
theorem pmapUnenter_frame {page : Option Page} (hs : pmapUnenter s m page v = some s') :
    ∃ f g, s' = { s with pmap := f, pv := g } ∧ (∀ p, ∀ x ∈ g p, x ∈ s.pv p) ∧
      ∀ m' q, ¬ (m' = m ∧ q = pteIndex v) → f m' q = s.pmap m' q := by
  rcases pmapUnenter_cases hs with ⟨-, rfl⟩ | ⟨pte, -, -, rfl⟩
  · exact ⟨s'.pmap, s'.pv, rfl, fun _ _ hx => hx, fun _ _ _ => rfl⟩
  · refine ⟨_, _, rfl, fun p x hx => ?_, fun m' q hne => (setPte_pmap none m' q).trans (if_neg hne)⟩
    rw [Function.update_apply] at hx
    split at hx
    · rename_i hp
      exact hp ▸ List.mem_of_mem_erase hx
    · exact hx

/-! ## Objects and maps -/

/-- `anon_new` keeps the invariant. -/
theorem pvInv_anonNew (h : PvInv s) (hs : anonNew s a p = some s') : PvInv s' := by
  obtain ⟨-, anons, -, rfl⟩ := anonNew_eq hs
  exact h.congr rfl rfl fun _ hm => hm

/-- `anon_copy` keeps the invariant. -/
theorem pvInv_anonCopy (h : PvInv s) {anon : Anon} (hs : anonCopy s anon a p = some s') :
    PvInv s' := by
  obtain ⟨-, anons, -, rfl⟩ := anonCopy_eq hs
  exact h.congr rfl rfl fun _ hm => hm

/-- `vm_anon_release` keeps the invariant. -/
theorem pvInv_anonRelease (h : PvInv s) (hs : anonRelease s a = some s') : PvInv s' := by
  obtain ⟨anon, -, ⟨-, rfl⟩ | ⟨-, rfl⟩⟩ := anonRelease_cases hs
  · exact h.congr rfl rfl fun _ hm => hm
  · exact h.congr rfl rfl fun _ hm => hm

/-- `vm_object_release` keeps the invariant. -/
theorem pvInv_vmObjectRelease (h : PvInv s) (hs : vmObjectRelease s o = some s') : PvInv s' := by
  obtain ⟨obj, -, ⟨-, rfl⟩ | ⟨-, s₁, hrel, rfl⟩⟩ := vmObjectRelease_cases hs
  · exact h.congr rfl rfl fun _ hm => hm
  · have h₁ : PvInv s₁ := foldlM_invariant hrel h fun _ _ _ _ hi => pvInv_anonRelease hi
    exact h₁.congr rfl rfl fun _ hm => hm

/-- `vm_object_retain` keeps the invariant. -/
theorem pvInv_vmObjectRetain (h : PvInv s) (hs : vmObjectRetain s o = some s') : PvInv s' := by
  obtain ⟨obj, -, rfl⟩ := vmObjectRetain_eq hs
  exact h.congr rfl rfl fun _ hm => hm

/-- `vm_aobj_new` keeps the invariant. -/
theorem pvInv_vmAobjNew (h : PvInv s) {size : ℕ} (hs : vmAobjNew s o size = some s') :
    PvInv s' := by
  obtain ⟨objs, -, rfl⟩ := vmAobjNew_eq hs
  exact h.congr rfl rfl fun _ hm => hm

/-- Sharing an anon, with its page mapped read-only everywhere, keeps the invariant. -/
theorem pvInv_anonShare (h : PvInv s) (hs : anonShare s a = some s') : PvInv s' := by
  obtain ⟨anon, -, rfl⟩ := anonShare_eq hs
  have h₁ : PvInv (setAnon s a { anon with refcnt := incr 24 anon.refcnt }) :=
    h.congr rfl rfl fun _ hm => hm
  exact pvInv_reenterAll h₁ anon.physpage

/-- `vm_object_copy` keeps the invariant. -/
theorem pvInv_vmObjectCopy (h : PvInv s) {newobj : ObjId}
    (hs : vmObjectCopy s o newobj = some s') : PvInv s' := by
  obtain ⟨obj, s₁, objs, -, hshare, -, rfl⟩ := vmObjectCopy_eq hs
  have h₁ : PvInv s₁ := foldlM_invariant hshare h fun _ _ _ _ hi => pvInv_anonShare hi
  exact h₁.congr rfl rfl fun _ hm => hm

/-- The tables do not depend on the map. -/
theorem pvInv_setMap (h : PvInv s) (map : Map) : PvInv (setMap s m map) :=
  h.congr rfl rfl fun _ hm => (Heap.get?_set_eq_none ..).mp hm

/-- `vm_map_new` keeps the invariant. -/
theorem pvInv_vmMapNew (h : PvInv s) {pool : List Vmem.Tag} (hs : vmMapNew s m pool = some s') :
    PvInv s' := by
  obtain ⟨vmem, maps, -, halloc, rfl⟩ := vmMapNew_eq hs
  -- the map was not in use, so its page tables were empty already
  have hsame : Function.update s.pmap m (fun _ => none) = s.pmap := by
    refine Function.update_eq_self_iff.mpr (funext fun q => ?_)
    exact (h.unused m (Heap.get?_of_alloc halloc) q).symm
  refine h.congr hsame rfl fun m' hm' => ?_
  have hm' : maps.get? m' = none := hm'
  rw [Heap.get?_alloc halloc] at hm'
  split at hm'
  · cases hm'
  · exact hm'

/-- `vm_map_object` keeps the invariant. -/
theorem pvInv_vmMapObject (h : PvInv s) {vaddr size offset : ℕ} {newobj : Option ObjId}
    {r : Except ℤ ℕ} (hs : vmMapObject s m o vaddr size offset newobj = some (r, s')) :
    PvInv s' := by
  obtain ⟨-, s₁, hfirst, hinsert⟩ := vmMapObject_cases hs
  have h₁ : PvInv s₁ := by
    cases newobj with
    | none => exact pvInv_vmObjectRetain h hfirst
    | some new => exact pvInv_vmObjectCopy h hfirst
  obtain ⟨map, vmem, -, -, rfl⟩ := mapInsert_cases hinsert
  exact pvInv_setMap h₁ _

/-- `vm_allocate` keeps the invariant. -/
theorem pvInv_vmAllocate (h : PvInv s) {vaddr size : ℕ} {r : Except ℤ ℕ}
    (hs : vmAllocate s m o vaddr size = some (r, s')) : PvInv s' := by
  obtain ⟨s₁, s₂, hnew, hmap, hrel⟩ := vmAllocate_cases hs
  exact pvInv_vmObjectRelease (pvInv_vmMapObject (pvInv_vmAobjNew h hnew) hmap) hrel

/-- Unmapping the pages of an entry keeps the invariant. -/
theorem pvInv_unmapEntry (h : PvInv s) {e : Entry} (hs : unmapEntry s m e = some s') :
    PvInv s' := by
  obtain ⟨map, n, vmem, s₁, s₂, map₂, -, -, hun, hrel, -, rfl⟩ := unmapEntry_cases hs
  have h₁ : PvInv s₁ := foldlM_invariant hun (pvInv_setMap h _) fun _ _ _ _ hi hu =>
    (pvInv_unenter hi (fun _ hp => by cases hp) hu).1
  exact pvInv_setMap (pvInv_vmObjectRelease h₁ hrel) _

/-- `vm_deallocate` keeps the invariant. -/
theorem pvInv_vmDeallocate (h : PvInv s) {start size : ℕ}
    (hs : vmDeallocate s m start size = some s') : PvInv s' := by
  unfold vmDeallocate at hs
  obtain ⟨map, -, hs⟩ := Option.bind_eq_some_iff.mp hs
  refine foldlM_invariant hs h fun s e _ s' hi he => ?_
  rcases deallocateEntry_cases he with rfl | ⟨-, -, hunmap⟩
  · exact hi
  · exact pvInv_unmapEntry hi hunmap

/-- Forking one entry keeps the invariant. -/
theorem pvInv_forkEntry (h : PvInv s) {newmap : MapId} {e : Entry} {newobj : ObjId}
    (hs : forkEntry newmap s e newobj = some s') : PvInv s' := by
  obtain ⟨s₁, addr, s₂, hcopy, hmap, hrel⟩ := forkEntry_cases hs
  exact pvInv_vmObjectRelease (pvInv_vmMapObject (pvInv_vmObjectCopy h hcopy) hmap) hrel

/-- Forking the entries keeps the invariant. -/
theorem pvInv_forkEntries {newmap : MapId} {es : List Entry} {os : List ObjId} (h : PvInv s)
    (hs : forkEntries newmap s es os = some s') : PvInv s' := by
  induction es generalizing s os with
  | nil =>
      obtain rfl : s = s' := Option.some.inj hs
      exact h
  | cons e es ih =>
      cases os with
      | nil => cases hs
      | cons o os =>
          obtain ⟨s₁, hfork, hs⟩ := Option.bind_eq_some_iff.mp hs
          exact ih (pvInv_forkEntry h hfork) hs

/-- `vm_map_fork` keeps the invariant. -/
theorem pvInv_vmMapFork (h : PvInv s) {newmap : MapId} {os : List ObjId} {pool : List Vmem.Tag}
    (hs : vmMapFork s m newmap os pool = some s') : PvInv s' := by
  obtain ⟨s₁, hnew, ⟨-, rfl⟩ | ⟨-, map, -, hfork⟩⟩ := vmMapFork_cases hs
  · exact pvInv_vmMapNew h hnew
  · exact pvInv_forkEntries (pvInv_vmMapNew h hnew) hfork

/-- Every call keeps the record. -/
theorem pvInv_call {c : Call} {t t' : Sys} (h : PvInv t.st) (hs : call t c = some t') :
    PvInv t'.st := by
  cases call_cases hs with
  | segRefill => exact pvInv_setMap h _
  | kheapAlloc => exact pvInv_setMap h _
  | kheapFree => exact pvInv_setMap h _
  | vmMapNew m pool hpool st hst => exact pvInv_vmMapNew h hst
  | vmAobjNew o size st hst => exact pvInv_vmAobjNew h hst
  | vmObjectRetain o st hst => exact pvInv_vmObjectRetain h hst
  | vmObjectRelease o hheld st hst => exact pvInv_vmObjectRelease h hst
  | vmObjectCopy o newobj st hst => exact pvInv_vmObjectCopy h hst
  | vmMapObject m o vaddr size offset newobj _ _ _ _ r st hst => exact pvInv_vmMapObject h hst
  | vmAllocate m o vaddr size _ _ r st hst => exact pvInv_vmAllocate h hst
  | vmDeallocate m start size _ _ st hst => exact pvInv_vmDeallocate h hst
  | vmMapFork m newmap newobjs pool hpool st hst => exact pvInv_vmMapFork h hst

/-! ## Faults -/

/-- The fault flags and the anon in the slot agree with the page tables: the flag `kVMFaultPresent`
says whether there is a page table entry now, and an entry that is there has the page of the anon in
the slot. -/
def faultAgrees (s : State) (m : MapId) (v : ℕ) (flags : FaultFlags) : Bool :=
  match s.pmap (mapFor m v) (pteIndex v) with
  | none => !flags.present
  | some pte => flags.present && decide (slotPage s (mapFor m v) v = some pte.page)

/-- A fault on an absent page meets no page table entry. -/
theorem pmap_none_of_agrees {flags : FaultFlags} (h : faultAgrees s m v flags = true)
    (hflags : flags.present = false) : s.pmap (mapFor m v) (pteIndex v) = none := by
  unfold faultAgrees at h
  cases hpte : s.pmap (mapFor m v) (pteIndex v) with
  | none => rfl
  | some pte =>
      rw [hpte, hflags] at h
      cases h

/-- A page table entry that a fault meets has the page of the anon in the slot. -/
theorem pageAt_of_agrees {flags : FaultFlags} {pte : Pte} (h : faultAgrees s m v flags = true)
    (hpte : s.pmap (mapFor m v) (pteIndex v) = some pte) :
    slotPage s (mapFor m v) v = some pte.page := by
  unfold faultAgrees at h
  rw [hpte, Bool.and_eq_true] at h
  exact of_decide_eq_true h.2

/-- The flag is set only if there is a page table entry. -/
theorem pmap_some_of_agrees {flags : FaultFlags} (h : faultAgrees s m v flags = true)
    (hflags : flags.present = true) : ∃ pte, s.pmap (mapFor m v) (pteIndex v) = some pte := by
  unfold faultAgrees at h
  cases hpte : s.pmap (mapFor m v) (pteIndex v) with
  | none =>
      rw [hpte, hflags] at h
      cases h
  | some pte => exact ⟨pte, rfl⟩

/-- When `fault_aobj` has copied a shared anon and removed the old mapping, there is no page table
entry any more, and the record is kept. -/
theorem pvInv_unenterOld {obj : Object} {page : ℕ} {flags : FaultFlags} {old : AnonId} {anon : Anon}
    {s₁ s₂ : State} (h : PvInv s)
    (habsent : flags.present = false → s.pmap m (pteIndex v) = none)
    (hthis : ∀ pte, s.pmap m (pteIndex v) = some pte → pte.page = anon.physpage)
    (hcopy : anonCopy (setAnon s old { anon with refcnt := decr 24 anon.refcnt }) anon a p
      = some s₁)
    (hunenter : if flags.present = true then
        pmapUnenter (setSlot s₁ o obj page a) m (some anon.physpage) v = some s₂
      else s₂ = setSlot s₁ o obj page a) :
    PvInv s₂ ∧ s₂.pmap m (pteIndex v) = none ∧ s₂.maps = s.maps := by
  have h₀ : PvInv (setAnon s old { anon with refcnt := decr 24 anon.refcnt }) :=
    h.congr rfl rfl fun _ hm => hm
  have h₁ : PvInv (setSlot s₁ o obj page a) :=
    (pvInv_anonCopy h₀ hcopy).congr rfl rfl fun _ hm => hm
  obtain ⟨-, anons, -, rfl⟩ := anonCopy_eq hcopy
  -- the old page is unmapped when the handler saw it mapped, and was not mapped otherwise
  split at hunenter
  · have hthis' : ∀ p ∈ some anon.physpage, ∀ pte, s.pmap m (pteIndex v) = some pte →
        pte.page = p := by
      intro p hp pte hpte
      rw [← Option.some.inj hp]
      exact hthis pte hpte
    obtain ⟨h₂, hnone, hmaps⟩ := pvInv_unenter h₁ hthis' hunenter
    exact ⟨h₂, hnone, hmaps⟩
  · rename_i hflag
    subst hunenter
    exact ⟨h₁, habsent (Bool.eq_false_iff.mpr hflag), rfl⟩

/-- `fault_aobj` keeps the record if the page table entry, where there is one, has the page of the
anon in the slot, and the flag says whether there is one. -/
theorem pvInv_faultCase {obj : Object} {page : ℕ} {flags : FaultFlags} {map : Map} (h : PvInv s)
    (hmap : s.maps.get? m = some map)
    (habsent : flags.present = false → s.pmap m (pteIndex v) = none)
    (hpresent : flags.present = true → ∃ pte, s.pmap m (pteIndex v) = some pte)
    (hslot : ∀ pte, s.pmap m (pteIndex v) = some pte → ∃ old anon,
      (obj.slots[page]?).join = some old ∧ s.anons.get? old = some anon ∧
        anon.physpage = pte.page)
    (hs : FaultCase s m o obj v page flags a p s') : PvInv s' := by
  cases hs with
  | read old anon hold hanon hshared hflag hwrite => exact pvInv_enter h hmap (habsent hflag) _
  | enter old anon hold hanon hsole hflag => exact pvInv_enter h hmap (habsent hflag) _
  | reenter old anon hold hanon hsole hflag =>
      obtain ⟨pte, hpte⟩ := hpresent hflag
      obtain ⟨old', anon', hold', hanon', hpage⟩ := hslot pte hpte
      obtain rfl := Option.some.inj (hold.symm.trans hold')
      obtain rfl := Option.some.inj (hanon.symm.trans hanon')
      have hat : pageAt s m (pteIndex v) = some anon.physpage := by
        rw [pageAt, hpte, hpage]
        rfl
      exact pvInv_reenter h hat true
  | copy old anon hold hanon hshared hwrite s₁ s₂ hcopy hun =>
      -- the entry that is replaced shows the page of the old anon
      have hthis : ∀ pte, s.pmap m (pteIndex v) = some pte → pte.page = anon.physpage := by
        intro pte hpte
        obtain ⟨old', anon', hold', hanon', hpage⟩ := hslot pte hpte
        obtain rfl := Option.some.inj (hold.symm.trans hold')
        obtain rfl := Option.some.inj (hanon.symm.trans hanon')
        exact hpage.symm
      obtain ⟨h₂, hnone, hmaps⟩ := pvInv_unenterOld h habsent hthis hcopy hun
      exact pvInv_enter h₂ (hmaps ▸ hmap) hnone _
  | zero hnone s₁ hnew =>
      -- the slot is empty, so the entry was absent
      have habs : s.pmap m (pteIndex v) = none := by
        cases hpte : s.pmap m (pteIndex v) with
        | none => rfl
        | some pte =>
            obtain ⟨old, anon, hold, -⟩ := hslot pte hpte
            rw [hnone] at hold
            cases hold
      have h₁ : PvInv (setSlot s₁ o obj page a) :=
        (pvInv_anonNew h hnew).congr rfl rfl fun _ hm => hm
      obtain ⟨-, anons, -, rfl⟩ := anonNew_eq hnew
      exact pvInv_enter h₁ hmap habs _

/-- **`vm_fault` keeps the record**, if the flags and the slot agree with the page tables. -/
theorem pvInv_vmFault {flags : FaultFlags} (h : PvInv s) (hag : faultAgrees s m v flags = true)
    (hs : vmFault s m v flags a p = some (0, s')) : PvInv s' := by
  obtain ⟨map, e, hmap, hentry, hfault⟩ := vmFault_cases hs
  obtain ⟨obj, slots, hobj, hgrow, hcase⟩ := faultAobj_cases hfault
  have h₁ : PvInv (setObj s e.obj { obj with slots := slots }) := h.congr rfl rfl fun _ hm => hm
  -- what the handler was told of the entry must agree with the tables
  refine pvInv_faultCase h₁ hmap ?_ ?_ ?_ hcase
  · intro hflag
    show s.pmap (mapFor m v) (pteIndex (pgRoundDown v)) = none
    rw [pteIndex_pgRoundDown]
    exact pmap_none_of_agrees hag hflag
  · intro hflag
    show ∃ pte, s.pmap (mapFor m v) (pteIndex (pgRoundDown v)) = some pte
    rw [pteIndex_pgRoundDown]
    exact pmap_some_of_agrees hag hflag
  · intro pte hpte
    rw [pteIndex_pgRoundDown] at hpte
    have hpage := pageAt_of_agrees hag hpte
    unfold slotPage objPage objPageIn slotIn at hpage
    simp only [hmap, hentry, hobj, Option.bind_eq_bind, Option.bind_some, Option.pure_def] at hpage
    obtain ⟨old, hold, hpage⟩ := Option.bind_eq_some_iff.mp hpage
    obtain ⟨anon, hanon, hpage⟩ := Option.bind_eq_some_iff.mp hpage
    exact ⟨old, anon, (amapAnonAt_join hgrow _).trans hold, hanon, Option.some.inj hpage⟩

/-! ## Threads that trap -/

/-- A trap that is not handled yet: the map of the thread, the address, and the flags the processor
has sampled. -/
structure Trap where
  map : MapId
  vaddr : ℕ
  flags : FaultFlags
  deriving DecidableEq, Repr

/-- The memory, and the trap each thread is in, if it is in one. -/
structure TrapState where
  sys : Sys
  pending : ℕ → Option Trap

/-- A thread traps, a trap is handled, or a call is made. -/
inductive TrapAction
  | trap (thread : ℕ) (m : MapId) (v : ℕ) (write : Bool)
  | handle (thread : ℕ) (a : AnonId) (p : Page)
  | call (c : Call)
  deriving DecidableEq, Repr

/-- The flags of an access that the page tables do not allow. -/
def sampleFlags (s : State) (m : MapId) (v : ℕ) (write : Bool) : Option FaultFlags :=
  match s.pmap (mapFor m v) (pteIndex v) with
  | none => some ⟨false, write⟩
  | some pte => if write ∧ ¬ pte.write then some ⟨true, true⟩ else none

/-- One step.  `pagefault_interrupt` stops the system if `vm_fault` fails. -/
def trapStep (s : TrapState) : TrapAction → Option TrapState
  | .trap thread m v write =>
      if (s.pending thread).isNone then do
        let flags ← sampleFlags s.sys.st m v write
        return { s with pending := Function.update s.pending thread (some ⟨m, v, flags⟩) }
      else none
  | .handle thread a p => do
      let t ← s.pending thread
      let (r, st) ← vmFault s.sys.st t.map t.vaddr t.flags a p
      if r = 0 then
        return ⟨⟨st, s.sys.held⟩, Function.update s.pending thread none⟩
      else none
  | .call c => do
      let sys ← call s.sys c
      return { s with sys := sys }

/-- Threads that trap and are handled, and calls, in any order. -/
def trapMachine : Machine TrapState TrapAction := ⟨trapStep⟩

/-- The trap that a step handles agrees with the page tables at that time. -/
def handleAgrees (s : TrapState) : TrapAction → Bool
  | .handle thread _ _ =>
      (s.pending thread).all fun t => faultAgrees s.sys.st t.map t.vaddr t.flags
  | _ => true

/-- Nothing is mapped after boot. -/
theorem Boot.pvInv {t : Sys} (h : Boot t) : PvInv t.st where
  exact p m q := by
    rw [h.pv_eq, pageAt, h.pmap_eq]
    rfl
  unused m _ q := h.pmap_eq m q

/-- One step keeps the record. -/
theorem pvInv_trapStep {s s' : TrapState} {x : TrapAction} (h : PvInv s.sys.st)
    (hag : handleAgrees s x = true) (hs : trapStep s x = some s') : PvInv s'.sys.st := by
  -- only the handler touches the tables, and it does so through `vm_fault`
  cases x with
  | trap thread m v write =>
      rw [trapStep] at hs
      split at hs
      · obtain ⟨flags, -, hs⟩ := Option.bind_eq_some_iff.mp hs
        cases hs
        exact h
      · cases hs
  | handle thread a p =>
      obtain ⟨t, ht, hs⟩ := Option.bind_eq_some_iff.mp hs
      obtain ⟨⟨r, st⟩, hfault, hs⟩ := Option.bind_eq_some_iff.mp hs
      rw [handleAgrees, ht] at hag
      dsimp only at hs
      split at hs
      · rename_i hr
        cases hs
        exact pvInv_vmFault h hag (hr ▸ hfault)
      · cases hs
  | call c =>
      obtain ⟨sys, hcall, hs⟩ := Option.bind_eq_some_iff.mp hs
      cases hs
      exact pvInv_call h hcall

/-- **The record is exact.** In every run from boot, with any number of threads, in which each trap
that is handled agrees with the page tables when it is handled, the `pv_table` of each page has
exactly one entry for every page table entry that maps the page, and no other entry. -/
theorem pv_exact {s₀ s : TrapState} (h₀ : Boot s₀.sys)
    (h : trapMachine.Reach (fun s x => handleAgrees s x = true) s₀ s) : PvExact s.sys.st := by
  have hinv : PvInv s.sys.st :=
    h.invariant (I := fun s => PvInv s.sys.st) h₀.pvInv fun _ _ _ hi hag hs =>
      pvInv_trapStep hi hag hs
  exact hinv.exact

/-- A map with two pages of anonymous memory at `0x2000`. -/
def twoPages : List Call :=
  [.vmMapNew 1 [0, 1], .segRefill 1 [2, 3], .vmAllocate 1 0 0x2000 0x2000]

/-- Two threads trap on different pages before either is handled; then the object is copied. -/
theorem pv_exact_two_traps :
    ∃ s, trapMachine.exec ⟨bootSys, fun _ => none⟩ (twoPages.map .call ++
        [.trap 0 1 0x2000 false, .trap 1 1 0x3000 true, .handle 1 0 0, .handle 0 1 1,
          .call (.vmObjectCopy 0 1)]) = some s ∧
      s.sys.st.pv 0 = [(1, 0x3000)] ∧ PvExact s.sys.st := by
  have hrun : (trapMachine.exec ⟨bootSys, fun _ => none⟩ (twoPages.map .call ++
      [.trap 0 1 0x2000 false, .trap 1 1 0x3000 true, .handle 1 0 0, .handle 0 1 1,
        .call (.vmObjectCopy 0 1)])).map (fun s => s.sys.st.pv 0) = some [(1, 0x3000)] := by decide
  obtain ⟨s, hs, hpv⟩ := Option.map_eq_some_iff.mp hrun
  refine ⟨s, hs, hpv, ?_⟩
  exact pv_exact boot_bootSys
    (Machine.reach_of_exec (c := handleAgrees) (fun _ _ hc => hc) (by decide) hs)

/-- **One mapping, two entries.** Two threads trap on one page that is not mapped.  Both are handled
as a fault on an absent page, and `pmap_enter` records the mapping twice. -/
theorem pv_duplicate :
    ¬ ∀ s₀ s : TrapState, Boot s₀.sys → trapMachine.Reachable s₀ s → PvExact s.sys.st := by
  intro h
  have hrun : (trapMachine.exec ⟨bootSys, fun _ => none⟩ (twoPages.map .call ++
      [.trap 0 1 0x2000 false, .trap 1 1 0x2000 false, .handle 0 0 0, .handle 1 1 1])).map
        (fun s => s.sys.st.pv 0) = some [(1, 0x2000), (1, 0x2000)] := by decide
  obtain ⟨s, hs, hpv⟩ := Option.map_eq_some_iff.mp hrun
  have hcount := h _ s boot_bootSys (Machine.reachable_of_exec hs) 0 1 (pteIndex 0x2000)
  rw [hpv] at hcount
  have htwo : List.count (1, pteIndex 0x2000) (List.map pvKey [(1, 0x2000), (1, 0x2000)]) = 2 := by
    decide
  rw [htwo] at hcount
  split at hcount
  · cases hcount
  · cases hcount

end Scalux.Vm
