import Scalux.Vm.MapInv

/-! # The calls keep the invariant

What the functions on maps do to the entries of maps and to the contents of objects, and that they
keep the invariant.  Two things have to be promised: an address to map at is a page away from the top
of the address space (`AddrOk`), and a reference count that goes up is not at its maximum (`Room`).

* **`deallocate_spec`**, **`mapRelease_spec`**: the entries inside the range go, others stay.
* **`allocate_spec`**, **`mapObject_spec`**: one more entry.
* **`fork_spec`**: the entries of the old map, over copies of its objects.
* **`fault_spec`**: nothing changes but the page tables. -/

namespace Scalux.Vm

open Vmem (vmemXalloc vmemXfree)

variable {s s' : State} {m : MapId} {o : ObjId} {a : AnonId} {p : Page} {v lo : ℕ} {map : Map}
  {maps : Heap Map} {objs : Heap Object} {held : List ObjId} {e : Entry}

/-! ## Deallocation -/

/-- `vm_deallocate` removes an entry if it is inside the range. -/
theorem deallocateEntry_eq {start stop : ℕ} (hne : e.start < e.stop)
    (hs : deallocateEntry start stop m s e = some s') :
    if start ≤ e.start ∧ e.stop ≤ stop then unmapEntry s m e = some s' else s' = s := by
  unfold deallocateEntry at hs
  split
  · rename_i hin
    rwa [if_neg (by omega), if_pos hin] at hs
  · rename_i hout
    rw [if_neg hout] at hs
    split at hs
    · exact (Option.some.inj hs).symm
    · split at hs
      · cases hs
      · exact (Option.some.inj hs).symm

/-- A map has lost the entries with a property, and contents are the same. -/
structure Removed (m : MapId) (P : Entry → Prop) (map : Map) (s s' : State) : Prop where
  keeps : Keeps s s'
  this : ∃ map', s'.maps.get? m = some map' ∧
    ∀ e, e ∈ map'.entries ↔ e ∈ map.entries ∧ ¬ P e
  other : ∀ m', m' ≠ m → s'.maps.get? m' = s.maps.get? m'

/-- **The rule for the loop of `vm_deallocate`**, which goes through the entries it has found at the
start: `R` is what holds between two iterations of the state and of the map that is left. -/
theorem deallocateAll_rule {R : State → Map → Prop} {l : List Entry} {start stop : ℕ}
    (hnodup : ∀ s map, R s map → map.entries.Nodup)
    (hnonempty : ∀ s map, R s map → ∀ e ∈ map.entries, e.start < e.stop)
    (hunmap : ∀ s map e s', R s map → e ∈ map.entries → unmapEntry s m e = some s' →
      ∃ vmem, R s' ⟨map.entries.erase e, vmem⟩)
    (h : R s map) (hl : l.Nodup) (hsub : ∀ e ∈ l, e ∈ map.entries)
    (hs : l.foldlM (deallocateEntry start stop m) s = some s') :
    ∃ map', R s' map' ∧ ∀ e, e ∈ map'.entries ↔
      e ∈ map.entries ∧ ¬ (e ∈ l ∧ start ≤ e.start ∧ e.stop ≤ stop) := by
  induction l generalizing s map with
  | nil =>
      obtain rfl : s = s' := Option.some.inj hs
      exact ⟨map, h, fun e => ⟨fun he => ⟨he, by simp⟩, And.left⟩⟩
  | cons e l ih =>
      rw [List.foldlM_cons] at hs
      obtain ⟨s₁, hone, hrest⟩ := Option.bind_eq_some_iff.mp hs
      obtain ⟨hnotin, hl⟩ := List.nodup_cons.mp hl
      have he := hsub e List.mem_cons_self
      have hone := deallocateEntry_eq (hnonempty s map h e he) hone
      split at hone
      · rename_i hin
        obtain ⟨vmem, h₁⟩ := hunmap s map e s₁ h he hone
        have hne : ∀ e' ∈ l, e' ≠ e := fun e' he' heq => hnotin (heq ▸ he')
        obtain ⟨map', h', hentries⟩ := ih h₁ hl (fun e' he' =>
          (List.mem_erase_of_ne (hne e' he')).mpr (hsub e' (List.mem_cons_of_mem e he'))) hrest
        refine ⟨map', h', fun e' => ?_⟩
        rw [hentries, (hnodup s map h).mem_erase_iff, List.mem_cons]
        constructor
        · rintro ⟨⟨hne', he'⟩, hP⟩
          exact ⟨he', fun hQ => hP ⟨hQ.1.resolve_left hne', hQ.2⟩⟩
        · rintro ⟨he', hQ⟩
          refine ⟨⟨?_, he'⟩, fun hP => hQ ⟨.inr hP.1, hP.2⟩⟩
          rintro rfl
          exact hQ ⟨.inl rfl, hin⟩
      · rename_i hout
        subst hone
        obtain ⟨map', h', hentries⟩ :=
          ih h hl (fun e' he' => hsub e' (List.mem_cons_of_mem e he')) hrest
        refine ⟨map', h', fun e' => ?_⟩
        rw [hentries, List.mem_cons]
        refine and_congr_right fun _ => not_congr (and_congr_left fun hin => ?_)
        refine ⟨.inr, fun hor => hor.resolve_left ?_⟩
        rintro rfl
        exact hout hin

/-- The rule for `vm_deallocate`: the entries inside the range go. -/
theorem deallocate_rule {R : State → Map → Prop} {start size : ℕ}
    (hnodup : ∀ s map, R s map → map.entries.Nodup)
    (hnonempty : ∀ s map, R s map → ∀ e ∈ map.entries, e.start < e.stop)
    (hunmap : ∀ s map e s', R s map → e ∈ map.entries → unmapEntry s m e = some s' →
      ∃ vmem, R s' ⟨map.entries.erase e, vmem⟩)
    (hmap : s.maps.get? m = some map) (h : R s map) (hs : vmDeallocate s m start size = some s') :
    ∃ map', R s' map' ∧ ∀ e, e ∈ map'.entries ↔
      e ∈ map.entries ∧ ¬ (start ≤ e.start ∧ e.stop ≤ add64 start size) := by
  unfold vmDeallocate at hs
  rw [hmap] at hs
  obtain ⟨map', h', hentries⟩ := deallocateAll_rule hnodup hnonempty hunmap h (hnodup s map h)
    (fun _ he => he) hs
  refine ⟨map', h', fun e => ?_⟩
  rw [hentries]
  exact and_congr_right fun he => not_congr (and_iff_right he)

/-- **`vm_deallocate`** removes the entries inside the range. -/
theorem deallocate_spec {start size : ℕ} (h : Inv held s) (hmap : s.maps.get? m = some map)
    (hs : vmDeallocate s m start size = some s') :
    Inv held s' ∧ Removed m (fun e => start ≤ e.start ∧ e.stop ≤ add64 start size) map s s' := by
  obtain ⟨map', ⟨h', hthis, hkeeps, hother⟩, hentries⟩ := deallocate_rule
    (R := fun x map => Inv held x ∧ x.maps.get? m = some map ∧ Keeps s x ∧
      ∀ m', m' ≠ m → x.maps.get? m' = s.maps.get? m')
    (fun x map hR => (hR.1.mapsOk m map hR.2.1).nodup)
    (fun x map hR e he => ((hR.1.mapsOk m map hR.2.1).entry_ok e he).nonempty)
    (fun x map e x' hR he hun => by
      obtain ⟨hx, hget, hkeeps, hother⟩ := hR
      obtain ⟨hx', hkeeps', ⟨vmem, hthis⟩, hother'⟩ := unmap_spec hx hget he hun
      exact ⟨vmem, hx', hthis, hkeeps.trans hkeeps', fun m' hm' =>
        (hother' m' hm').trans (hother m' hm')⟩)
    hmap ⟨h, hmap, Keeps.refl s, fun _ _ => rfl⟩ hs
  exact ⟨h', hkeeps, ⟨map', hthis, hentries⟩, hother⟩

/-- A map without entries has empty page tables. -/
theorem Inv.pmap_eq_none (h : Inv held s) (hmap : s.maps.get? m = some map)
    (hempty : map.entries = []) (q : ℕ) : s.pmap m q = none := by
  by_contra hne
  obtain ⟨pte, hpte⟩ := Option.ne_none_iff_exists'.mp hne
  obtain ⟨⟨m', w⟩, hx, rfl, -⟩ := h.sound.pvInv.exact.exists_mem hpte
  obtain ⟨o, page, -, -, -, hop, -⟩ := h.sound.ptes _ _ hx
  rw [objPageIn_eq, hmap] at hop
  obtain ⟨e, he, -⟩ := (h.mapsOk _ map hmap).objPageOf_eq.mp hop
  rw [hempty] at he
  cases he

/-- **`vm_map_release`** of a user map: the map goes. -/
theorem mapRelease_spec (h : Inv held s) (hm : m ≠ kmap) (hs : vmMapRelease s m = some s') :
    Inv held s' ∧ Keeps s s' ∧
      ∀ m', s'.maps.get? m' = if m' = m then none else s.maps.get? m' := by
  obtain ⟨s₁, map₁, hdealloc, hmap₁, -, rfl⟩ := vmMapRelease_cases hs
  have hmap : ∃ map, s.maps.get? m = some map := by
    unfold vmDeallocate at hdealloc
    obtain ⟨map, hmap, -⟩ := Option.bind_eq_some_iff.mp hdealloc
    exact ⟨map, hmap⟩
  obtain ⟨map, hmap⟩ := hmap
  obtain ⟨h₁, hkeeps, ⟨map', hthis, hentries⟩, hother⟩ := deallocate_spec h hmap hdealloc
  obtain rfl := Option.some.inj (hmap₁.symm.trans hthis)
  -- every entry of a user map is in the range
  have hempty : map₁.entries = [] := by
    refine List.eq_nil_iff_forall_not_mem.mpr fun e he => ?_
    obtain ⟨he, hout⟩ := (hentries e).mp he
    have hok := (h.mapsOk m map hmap).entry_ok e he
    have hlo : mapLo m = userBase := if_neg hm
    have hle := hok.lo_le
    have hhi := hok.le_hi
    rw [hlo] at hle hhi
    exact hout ⟨hle, hhi⟩
  have hpmap : Function.update s₁.pmap m (fun _ => none) = s₁.pmap :=
    Function.update_eq_self_iff.mpr (funext fun q => (h₁.pmap_eq_none hmap₁ hempty q).symm)
  have hget : ∀ m', (s₁.maps.free m).get? m' = if m' = m then none else s₁.maps.get? m' :=
    fun m' => Heap.get?_free _ m m'
  rw [hpmap]
  refine ⟨⟨⟨h₁.sound.refs.congr rfl rfl, ?_, ?_, ?_⟩, fun m' x hx => ?_, ?_⟩,
    ⟨hkeeps.bytes_eq, hkeeps.anon_page, hkeeps.slot_eq⟩, fun m' => ?_⟩
  · refine h₁.sound.ptes.of_maps fun p x _ y hy => ?_
    show objPageIn (s₁.maps.free m) x.1 x.2 = some y
    rw [objPageIn_eq] at hy ⊢
    rw [hget, if_neg, hy]
    intro hx
    rw [hx, hmap₁] at hy
    obtain ⟨e, he, -⟩ := (h₁.mapsOk m map₁ hmap₁).objPageOf_eq.mp hy
    rw [hempty] at he
    cases he
  · refine ⟨fun o obj hobj => ?_, h₁.sound.holds.held_valid, fun m' x hx e he => ?_,
      h₁.sound.holds.kind⟩
    · have hle := h₁.sound.holds.refcnt_le o obj hobj
      have hweigh := Heap.weigh_free (w := entriesOf o) hmap₁
      show ((_ : ℕ) + ((s₁.maps.free m).weigh (entriesOf o) : ℤ)) ≤ _
      omega
    · have hx : (s₁.maps.free m).get? m' = some x := hx
      rw [hget] at hx
      split at hx
      · cases hx
      · exact h₁.sound.holds.entry_valid m' x hx e he
  · refine ⟨h₁.sound.pvInv.exact, fun m' hm' q => ?_⟩
    have hm' : (s₁.maps.free m).get? m' = none := hm'
    rw [hget] at hm'
    split at hm'
    · rename_i heq
      rw [heq]
      exact h₁.pmap_eq_none hmap₁ hempty q
    · exact h₁.sound.pvInv.unused m' hm' q
  · have hx : (s₁.maps.free m).get? m' = some x := hx
    rw [hget] at hx
    split at hx
    · cases hx
    · exact h₁.mapsOk m' x hx
  · show (s₁.maps.free m).get? kmap ≠ none
    rw [hget, if_neg (Ne.symm hm)]
    exact h₁.kernel
  · show (s₁.maps.free m).get? m' = _
    rw [hget]
    split
    · rfl
    · rename_i hne
      exact hother m' hne

/-! ## Mapping an object -/

/-- There is room in the counts for mapping an object, or a copy of it. -/
def RoomToMap (s : State) (o : ObjId) : Option ObjId → Prop
  | some _ => Room s (anonsOf s.objs o)
  | none => ∀ obj ∈ s.objs.get? o, obj.refcnt < 2 ^ 31 - 1

instance (s : State) (o : ObjId) (newobj : Option ObjId) : Decidable (RoomToMap s o newobj) :=
  match newobj with
  | some _ => inferInstanceAs (Decidable (Room s (anonsOf s.objs o)))
  | none => inferInstanceAs (Decidable (∀ obj ∈ s.objs.get? o, obj.refcnt < 2 ^ 31 - 1))

/-- **`vm_map_object`** keeps the invariant. -/
theorem mapObject_spec {vaddr size offset : ℕ} {newobj : Option ObjId} {r : Except ℤ ℕ}
    (h : Inv held s) (hlt : size < 2 ^ 64) (hoffset : pgSize ∣ offset) (haddr : AddrOk vaddr size)
    (hroom : RoomToMap s o newobj)
    (hs : vmMapObject s m o vaddr size offset newobj = some (r, s')) : Inv held s' := by
  obtain ⟨hsize, s₁, hfirst, hinsert⟩ := vmMapObject_cases hs
  have h₁ : Inv (newobj.getD o :: held) s₁ := by
    cases newobj with
    | none =>
        obtain ⟨hsound, hkept⟩ := retain_spec h.sound hroom hfirst
        exact ⟨hkept.maps_eq ▸ hsound, hkept.maps_eq ▸ h.mapsOk, hkept.maps_eq ▸ h.kernel⟩
    | some new =>
        have hroom' : Room s (anonsOf s.objs o ++ []) := by
          rw [List.append_nil]
          exact hroom
        obtain ⟨hsound, hcopied, -⟩ := copy_spec h.sound hroom' hfirst
        exact ⟨hcopied.maps_eq ▸ hsound, hcopied.maps_eq ▸ h.mapsOk, hcopied.maps_eq ▸ h.kernel⟩
  exact (insert_spec h₁ (Nat.dvd_of_mod_eq_zero hsize) hlt hoffset haddr hinsert).1

/-- A map has one more entry, and contents are the same. -/
structure Mapped (m : MapId) (e : Entry) (s s' : State) : Prop where
  bytes_eq : s'.bytes = s.bytes
  anons_eq : s'.anons = s.anons
  other_eq : ∀ o', o' ≠ e.obj → s'.objs.get? o' = s.objs.get? o'
  slot_eq : ∀ page, slotIn s'.objs e.obj page = slotIn s.objs e.obj page
  this : ∃ map vmem, s.maps.get? m = some map ∧
    s'.maps.get? m = some ⟨map.entries ++ [e], vmem⟩
  other : ∀ m', m' ≠ m → s'.maps.get? m' = s.maps.get? m'

/-- An entry that is in a map counts. -/
theorem one_le_entriesOf_mem (hmap : maps.get? m = some map) (he : e ∈ map.entries) :
    1 ≤ maps.weigh (entriesOf e.obj) := by
  calc 1 ≤ entriesOf e.obj map := List.countP_pos_iff.mpr ⟨e, he, decide_eq_true rfl⟩
    _ ≤ maps.weigh (entriesOf e.obj) := Heap.le_weigh hmap

/-- A new object is mapped, and the reference its maker holds is dropped: `vm_allocate` and
`vm_map_fork` do this. -/
theorem mapOwned_spec {vaddr size offset addr : ℕ} {s₂ : State} (h : Inv (o :: held) s)
    (hone : ∃ obj, s.objs.get? o = some obj ∧ obj.refcnt = 1) (hlt : size < 2 ^ 64)
    (hoffset : pgSize ∣ offset) (haddr : AddrOk vaddr size)
    (hmap : vmMapObject s m o vaddr size offset none = some (.ok addr, s₂))
    (hrel : vmObjectRelease s₂ o = some s') :
    Inv held s' ∧ Mapped m ⟨addr, addr + size, offset, o⟩ s s' ∧
      (vaddr ≠ vaddrMax → addr = vaddr) := by
  obtain ⟨hsize, s₁, hretain, hinsert⟩ := vmMapObject_cases hmap
  have hroom : ∀ obj, s.objs.get? o = some obj → obj.refcnt < 2 ^ 31 - 1 := by
    intro obj hobj
    obtain ⟨obj', hobj', hrefcnt⟩ := hone
    obtain rfl := Option.some.inj (hobj.symm.trans hobj')
    rw [hrefcnt]
    norm_num
  obtain ⟨hsound₁, hkept₁⟩ := retain_spec h.sound hroom hretain
  have h₁ : Inv (o :: o :: held) s₁ :=
    ⟨hkept₁.maps_eq ▸ hsound₁, hkept₁.maps_eq ▸ h.mapsOk, hkept₁.maps_eq ▸ h.kernel⟩
  obtain ⟨h₂, hok⟩ := insert_spec h₁ (Nat.dvd_of_mod_eq_zero hsize) hlt hoffset haddr hinsert
  obtain ⟨hexact, map, vmem, hget, hs₂⟩ := hok addr rfl
  have hthis : s₂.maps.get? m = some ⟨map.entries ++ [⟨addr, addr + size, offset, o⟩], vmem⟩ := by
    rw [hs₂]
    exact (Heap.get?_set hget _ m).trans (if_pos rfl)
  have hmapped : 1 ≤ s₂.maps.weigh (entriesOf o) :=
    one_le_entriesOf_mem (e := ⟨addr, addr + size, offset, o⟩) hthis
      (List.mem_append_right _ List.mem_cons_self)
  obtain ⟨hsound', hkept⟩ := release_spec h₂.sound hrel
  obtain ⟨obj₂, hobj₂, rfl⟩ := release_mapped h₂.sound hmapped hrel
  obtain ⟨obj, hobj, rfl⟩ := vmObjectRetain_eq hretain
  refine ⟨⟨hsound', h₂.mapsOk, h₂.kernel⟩, ⟨?_, ?_, fun o' ho' => ?_, fun page => ?_, ?_, ?_⟩, hexact⟩
  · rw [hs₂]
    rfl
  · rw [hs₂]
    rfl
  · rw [hkept.other_eq o' ho', hs₂]
    exact hkept₁.other_eq o' ho'
  · have hne : (setObj s₂ o { obj₂ with refcnt := decr 32 obj₂.refcnt }).objs.get? o ≠ none := by
      show (s₂.objs.set o _).get? o ≠ none
      rw [Heap.get?_set hobj₂, if_pos rfl]
      simp
    have hne₁ : (setObj s o { obj with refcnt := incr 32 obj.refcnt }).objs.get? o ≠ none := by
      show (s.objs.set o _).get? o ≠ none
      rw [Heap.get?_set hobj, if_pos rfl]
      simp
    rw [hkept.slot_eq hne page, hs₂]
    exact hkept₁.slot_eq hne₁ page
  · exact ⟨map, vmem, hget, hthis⟩
  · intro m' hm'
    show s₂.maps.get? m' = _
    rw [hs₂]
    exact (Heap.get?_set hget _ m').trans (if_neg hm')

/-- **`vm_allocate`** maps a new object without pages, or keeps it to no use. -/
theorem allocate_spec {vaddr size : ℕ} {r : Except ℤ ℕ} (h : Inv held s) (hlt : size < 2 ^ 64)
    (haddr : AddrOk vaddr size) (hs : vmAllocate s m o vaddr size = some (r, s')) :
    Inv held s' ∧ ∀ addr, r = .ok addr → (vaddr ≠ vaddrMax → addr = vaddr) ∧
      s.objs.get? o = none ∧ ∃ s₁, Kept o s s₁ ∧ (∀ page, slotIn s₁.objs o page = none) ∧
      Mapped m ⟨addr, addr + size, 0, o⟩ s₁ s' := by
  obtain ⟨s₁, s₂, hnew, hmap, hrel⟩ := vmAllocate_cases hs
  obtain ⟨hsound₁, hkept₁, hfresh, obj, hobj, hrefcnt, hslots⟩ := aobjNew_spec h.sound hnew
  have h₁ : Inv (o :: held) s₁ :=
    ⟨hkept₁.maps_eq ▸ hsound₁, hkept₁.maps_eq ▸ h.mapsOk, hkept₁.maps_eq ▸ h.kernel⟩
  -- the object is released either way; refused, that was its last reference
  cases r with
  | error n =>
      have hroom : RoomToMap s₁ o none := by
        intro obj' hobj'
        obtain rfl := Option.some.inj (hobj.symm.trans hobj')
        rw [hrefcnt]
        norm_num
      have h₂ := mapObject_spec h₁ hlt (Nat.dvd_zero _) haddr hroom hmap
      obtain ⟨hsound', hkept⟩ := release_spec h₂.sound hrel
      exact ⟨⟨hkept.maps_eq ▸ hsound', hkept.maps_eq ▸ h₂.mapsOk, hkept.maps_eq ▸ h₂.kernel⟩, by simp⟩
  | ok addr =>
      obtain ⟨h', hmapped, hexact⟩ :=
        mapOwned_spec h₁ ⟨obj, hobj, hrefcnt⟩ hlt (Nat.dvd_zero _) haddr hmap hrel
      refine ⟨h', fun addr' heq => ?_⟩
      cases heq
      refine ⟨hexact, hfresh, s₁, hkept₁, fun page => ?_, hmapped⟩
      rw [slotIn, hobj]
      show (obj.slots[page]?).join = none
      rw [hslots]
      rfl

/-! ## Forks -/

/-- What `vm_map_fork` does at one entry: the new map has the entry, over a new object with the slots
of the old one. -/
structure Forked (newmap : MapId) (e : Entry) (newobj : ObjId) (s s' : State) : Prop where
  bytes_eq : s'.bytes = s.bytes
  anon_page : ∀ a x, s'.anons.get? a = some x → ∃ y, s.anons.get? a = some y ∧
    x.physpage = y.physpage
  fresh : s.objs.get? newobj = none
  other_eq : ∀ o', o' ≠ newobj → s'.objs.get? o' = s.objs.get? o'
  slot_eq : ∀ page, slotIn s'.objs newobj page = slotIn s.objs e.obj page
  this : ∃ map vmem, s.maps.get? newmap = some map ∧
    s'.maps.get? newmap = some ⟨map.entries ++ [{ e with obj := newobj }], vmem⟩
  other : ∀ m', m' ≠ newmap → s'.maps.get? m' = s.maps.get? m'

/-- The entries of a map, one after the other. -/
inductive ForkRun (held : List ObjId) (newmap : MapId) : State → List Entry → State → Prop
  | nil {s : State} (h : Inv held s) : ForkRun held newmap s [] s
  | cons {s s₁ s' : State} {e : Entry} {es : List Entry} {newobj : ObjId} (h : Inv held s)
      (hfork : Forked newmap e newobj s s₁) (hrest : ForkRun held newmap s₁ es s') :
      ForkRun held newmap s (e :: es) s'

theorem ForkRun.inv_start {newmap : MapId} {es : List Entry} (h : ForkRun held newmap s es s') :
    Inv held s := by
  cases h with
  | nil h => exact h
  | cons h _ _ => exact h

theorem ForkRun.inv {newmap : MapId} {es : List Entry} (h : ForkRun held newmap s es s') :
    Inv held s' := by
  induction h with
  | nil h => exact h
  | cons _ _ _ ih => exact ih

/-- The size of an entry. -/
theorem EntryOk.sub64_eq (hok : EntryOk userBase e) : sub64 e.stop e.start = e.stop - e.start := by
  have hlt := hok.nonempty
  have hhi := hok.le_hi
  unfold userBase userSize at hhi
  exact Scalux.sub64_eq hlt.le (by omega)

/-- An entry can be mapped again where it is. -/
theorem EntryOk.addrOk (hok : EntryOk userBase e) :
    AddrOk e.start (e.stop - e.start) ∧ e.start ≠ vaddrMax ∧ e.stop - e.start < 2 ^ 64 := by
  have hlt := hok.nonempty
  have hhi := hok.le_hi
  unfold userBase userSize at hhi
  unfold vaddrMax
  exact ⟨.inr ⟨hok.start_dvd, by omega⟩, by omega, by omega⟩

/-- `vm_map_fork` at one entry. -/
theorem forkEntry_spec {newmap : MapId} {newobj : ObjId} {l : List AnonId} (h : Inv held s)
    (hok : EntryOk userBase e) (hroom : Room s (anonsOf s.objs e.obj ++ l))
    (hs : forkEntry newmap s e newobj = some s') :
    Inv held s' ∧ Forked newmap e newobj s s' ∧ Room s' l := by
  obtain ⟨s₁, addr, s₂, hcopy, hmap, hrel⟩ := forkEntry_cases hs
  obtain ⟨hsound₁, hcopied, hroom₁⟩ := copy_spec h.sound hroom hcopy
  have h₁ : Inv (newobj :: held) s₁ :=
    ⟨hcopied.maps_eq ▸ hsound₁, hcopied.maps_eq ▸ h.mapsOk, hcopied.maps_eq ▸ h.kernel⟩
  obtain ⟨haddr, hne, hlt⟩ := hok.addrOk
  rw [hok.sub64_eq] at hmap
  obtain ⟨h', hmapped, hexact⟩ :=
    mapOwned_spec h₁ hcopied.refcnt_eq hlt hok.offset_dvd haddr hmap hrel
  -- the copy is entered at the very range of the original
  have hentry : (⟨addr, addr + (e.stop - e.start), e.offset, newobj⟩ : Entry)
      = { e with obj := newobj } := by
    rw [hexact hne, Nat.add_sub_cancel' hok.nonempty.le]
  rw [hentry] at hmapped
  refine ⟨h', ⟨hmapped.bytes_eq.trans hcopied.bytes_eq, ?_, hcopied.fresh, ?_, ?_, ?_, ?_⟩, ?_⟩
  · intro a x hx
    rw [hmapped.anons_eq] at hx
    exact hcopied.anon_page a x hx
  · exact fun o' ho' => (hmapped.other_eq o' ho').trans (hcopied.other_eq o' ho')
  · exact fun page => (hmapped.slot_eq page).trans (hcopied.slot_eq page)
  · rw [← hcopied.maps_eq]
    exact hmapped.this
  · rw [← hcopied.maps_eq]
    exact hmapped.other
  · intro a ha anon hanon
    rw [hmapped.anons_eq] at hanon
    exact hroom₁ a ha anon hanon

/-- `vm_map_fork`'s loop. -/
theorem forkEntries_spec {newmap : MapId} {es : List Entry} {os : List ObjId} (h : Inv held s)
    (hok : ∀ e ∈ es, EntryOk userBase e) (hobj : ∀ e ∈ es, s.objs.get? e.obj ≠ none)
    (hroom : Room s (es.flatMap fun e => anonsOf s.objs e.obj))
    (hs : forkEntries newmap s es os = some s') : ForkRun held newmap s es s' := by
  induction es generalizing s os with
  | nil =>
      obtain rfl : s = s' := Option.some.inj hs
      exact .nil h
  | cons e es ih =>
      cases os with
      | nil => cases hs
      | cons newobj os =>
          obtain ⟨s₁, hone, hs⟩ := Option.bind_eq_some_iff.mp hs
          rw [List.flatMap_cons] at hroom
          obtain ⟨h₁, hforked, hroom₁⟩ := forkEntry_spec h (hok e List.mem_cons_self) hroom hone
          -- the objects of the other entries are as they were
          have hsame : ∀ e' ∈ es, s₁.objs.get? e'.obj = s.objs.get? e'.obj := by
            intro e' he'
            refine hforked.other_eq _ fun heq => ?_
            exact hobj e' (List.mem_cons_of_mem e he') (heq ▸ hforked.fresh)
          have hflat : (es.flatMap fun e' => anonsOf s₁.objs e'.obj)
              = es.flatMap fun e' => anonsOf s.objs e'.obj := by
            refine List.flatMap_congr fun e' he' => ?_
            rw [anonsOf, anonsOf, hsame e' he']
          refine .cons h hforked (ih h₁ (fun e' he' => hok e' (List.mem_cons_of_mem e he'))
            (fun e' he' => ?_) (hflat ▸ hroom₁) hs)
          rw [hsame e' he']
          exact hobj e' (List.mem_cons_of_mem e he')

/-- There is room in the counts for copying every object of a map. -/
def RoomToFork (s : State) (m : MapId) : Prop :=
  ∀ map ∈ s.maps.get? m, Room s (map.entries.flatMap fun e => anonsOf s.objs e.obj)

instance (s : State) (m : MapId) : Decidable (RoomToFork s m) :=
  inferInstanceAs (Decidable (∀ map ∈ s.maps.get? m,
    Room s (map.entries.flatMap fun e => anonsOf s.objs e.obj)))

/-- **`vm_map_fork`** makes a map and goes through the entries of the old one. -/
theorem fork_spec {newmap : MapId} {newobjs : List ObjId} {pool : List Vmem.Tag} (h : Inv held s)
    (hpool : pool.Nodup) (hroom : RoomToFork s m)
    (hs : vmMapFork s m newmap newobjs pool = some s') :
    Inv held s' ∧ ∀ map, s.maps.get? m = some map → m ≠ kmap →
      ∃ vmem maps, s.maps.alloc newmap ⟨[], vmem⟩ = some maps ∧
        ForkRun held newmap { s with maps := maps } map.entries s' := by
  obtain ⟨s₁, hnew, hcases⟩ := vmMapFork_cases hs
  obtain ⟨h₁, vmem, maps, ha, rfl⟩ := mapNew_spec h hpool hnew
  rcases hcases with ⟨hm, rfl⟩ | ⟨hm, map, hmap, hfork⟩
  · exact ⟨h₁, fun map _ hne => absurd hm hne⟩
  have hmap : maps.get? m = some map := hmap
  have hlo : mapLo m = userBase := if_neg hm
  -- the entries of the map are forked one by one, each object with its own copy
  have hrun : ForkRun held newmap { s with maps := maps } map.entries s' := by
    refine forkEntries_spec h₁ (fun e he => ?_) (fun e he => ?_) ?_ hfork
    · exact hlo ▸ (h₁.mapsOk m map hmap).entry_ok e he
    · obtain ⟨obj, hobj⟩ := h₁.sound.holds.entry_valid m map hmap e he
      rw [hobj]
      simp
    · rw [Heap.get?_alloc ha] at hmap
      split at hmap
      · cases hmap
        exact nofun
      · exact hroom map hmap
  refine ⟨hrun.inv, fun map' hmap' _ => ⟨vmem, maps, ha, ?_⟩⟩
  -- the new map was not in use before
  have hne : m ≠ newmap := by
    rintro rfl
    rw [Heap.get?_of_alloc ha] at hmap'
    cases hmap'
  rw [Heap.get?_alloc ha, if_neg hne] at hmap
  obtain rfl := Option.some.inj (hmap.symm.trans hmap')
  exact hrun

/-! ## Faults -/

/-- The anon at an address is shared. -/
def sharedAt (s : State) (m : MapId) (v : ℕ) : Bool :=
  ((objPage s m v).bind fun x => (slotIn s.objs x.1 x.2).bind s.anons.get?).any
    fun anon => 1 < anon.refcnt

/-- The other mappings of the page of an object that an address has: those on record for its physical
page whose entry has the same page of the same object. -/
def otherMappings (s : State) (m : MapId) (v : ℕ) : List (MapId × ℕ) :=
  ((slotPage s m v).elim [] s.pv).filter fun x =>
    objPage s x.1 x.2 = objPage s m v ∧ pvKey x ≠ (m, pteIndex v)

/-- If the anon at an address is shared, no other mapping shows the slot it is in. -/
def CowAlone (s : State) (m : MapId) (v : ℕ) : Prop :=
  sharedAt s m v = true → otherMappings s m v = []

instance (s : State) (m : MapId) (v : ℕ) : Decidable (CowAlone s m v) :=
  inferInstanceAs (Decidable (_ → _))

/-- The flags of a trap say what the page tables have. -/
theorem sampleFlags_cases {write : Bool} {flags : FaultFlags}
    (h : sampleFlags s m v write = some flags) :
    flags.write = write ∧
      (flags.present = false → s.pmap (mapFor m v) (pteIndex v) = none) ∧
      (flags.present = true → ∃ pte, s.pmap (mapFor m v) (pteIndex v) = some pte) := by
  unfold sampleFlags at h
  split at h
  · rename_i hnone
    cases h
    exact ⟨rfl, fun _ => hnone, by simp⟩
  · rename_i pte hpte
    split at h
    · rename_i hw
      cases h
      exact ⟨hw.1.symm, by simp, fun _ => ⟨pte, hpte⟩⟩
    · cases h

/-- Growing the slots of an object keeps the invariants and the contents. -/
theorem sound_grow {obj : Object} {slots : List (Option AnonId)} {page : ℕ}
    (h : Sound maps held s) (hobj : s.objs.get? o = some obj)
    (hgrow : amapAnonAt obj.slots page = some slots) :
    Sound maps held (setObj s o { obj with slots := slots }) ∧
      ∀ o' page' off, content (setObj s o { obj with slots := slots }) o' page' off
        = content s o' page' off := by
  have hsame := sameSlots_grow hgrow
  refine ⟨⟨(refs_setObj h.refs hobj hsame).congr rfl rfl, ptes_setObj h.ptes hobj hsame,
    holds_setSlot h.holds hobj slots, h.pvInv.congr rfl rfl fun _ hm => hm⟩, fun o' page' off => ?_⟩
  unfold content
  have hslot : slotIn (setObj s o { obj with slots := slots }).objs o' page'
      = slotIn s.objs o' page' := slotIn_setObj hobj hsame o' page'
  rw [hslot]
  rfl

/-- **`vm_fault`** with flags that were sampled just before. -/
theorem fault_spec {write : Bool} {flags : FaultFlags} (h : Inv held s)
    (hflags : sampleFlags s m v write = some flags)
    (halone : write = true → CowAlone s (mapFor m v) v)
    (hs : vmFault s m v flags a p = some (0, s')) :
    Inv held s' ∧ Faulted (mapFor m v) v write s s' := by
  obtain ⟨hwrite, habsent, hpresent⟩ := sampleFlags_cases hflags
  obtain ⟨map, e, hmap, hentry, hfault⟩ := vmFault_cases hs
  obtain ⟨obj, slots, hobj, hgrow, hcase⟩ := faultAobj_cases hfault
  set v' := pgRoundDown v with hv'
  have hidx : pteIndex v' = pteIndex v := pteIndex_pgRoundDown v
  obtain ⟨he, hhas⟩ := (h.mapsOk _ map hmap).mapEntryForAddr_eq.mp hentry
  have hop : objPage s (mapFor m v) v = some (e.obj, e.page v) := by
    rw [objPage, objPageIn_eq, hmap]
    exact (h.mapsOk _ map hmap).objPageOf_eq.mpr ⟨e, he, hhas, rfl, rfl⟩
  have hop' : objPageIn s.maps (mapFor m v) v' = some (e.obj, e.page v) :=
    objPageIn_pgRoundDown h.mapsOk hop
  obtain ⟨hsound₁, hcontent₁⟩ := sound_grow h.sound hobj hgrow
  have hslots : ∀ i : ℕ, (slots[i]?).join = slotIn s.objs e.obj i := by
    intro i
    rw [amapAnonAt_join hgrow i, slotIn, hobj]
    rfl
  have hobj₁ : (setObj s e.obj { obj with slots := slots }).objs.get? e.obj
      = some { obj with slots := slots } := (Heap.get?_set hobj _ e.obj).trans (if_pos rfl)
  -- the page table entry shows the slot
  have hslot : ∀ pte, s.pmap (mapFor m v) (pteIndex v') = some pte → ∃ old anon,
      (slots[e.page v]?).join = some old ∧ s.anons.get? old = some anon ∧
        anon.physpage = pte.page := by
    intro pte hpte
    rw [hidx] at hpte
    obtain ⟨old, anon, hold, hanon, hpage, -⟩ := h.pte_shows hpte hop
    exact ⟨old, anon, (hslots _).trans hold, hanon, hpage⟩
  -- another mapping of the slot would be on record for the page of the anon
  have halone' : flags.write = true → ∀ old anon, (slots[e.page v]?).join = some old →
      s.anons.get? old = some anon → 1 < anon.refcnt →
      ∀ x ∈ s.pv anon.physpage, objPageIn s.maps x.1 x.2 = some (e.obj, e.page v) →
        x.1 = mapFor m v ∧ pteIndex x.2 = pteIndex v' := by
    intro hw old anon hold hanon hshared x hx hxop
    rw [hslots] at hold
    have hsharedAt : sharedAt s (mapFor m v) v = true := by
      rw [sharedAt, hop, Option.bind_some, hold, Option.bind_some, hanon]
      exact decide_eq_true hshared
    have hempty := halone (hwrite ▸ hw) hsharedAt
    have hpage : slotPage s (mapFor m v) v = some anon.physpage := by
      unfold slotPage
      simp only [hop, hold, hanon, Option.bind_eq_bind, Option.bind_some, Option.pure_def]
    rw [otherMappings, hpage, Option.elim_some, List.filter_eq_nil_iff] at hempty
    have hnot := hempty x hx
    rw [decide_eq_true_eq, not_and, not_not] at hnot
    have hkey := hnot (hxop.trans hop.symm)
    rw [hidx]
    exact ⟨(Prod.mk.inj hkey).1, (Prod.mk.inj hkey).2⟩
  obtain ⟨hsound, hfaulted⟩ := faultCase_spec hsound₁ hmap hobj₁ (amapAnonAt_lt hgrow) hop'
    (pgRoundDown_mod v) (fun hflag => hidx ▸ habsent hflag)
    (fun hflag => hidx ▸ hpresent hflag) hslot halone' hcase
  refine ⟨⟨hfaulted.maps_eq ▸ hsound, hfaulted.maps_eq ▸ h.mapsOk, hfaulted.maps_eq ▸ h.kernel⟩,
    hfaulted.maps_eq, fun o' page' off => (hfaulted.content_eq o' page' off).trans
      (hcontent₁ o' page' off), ?_⟩
  rw [← hwrite, ← hidx]
  exact hfaulted.pte

end Scalux.Vm
