import Scalux.Vm.AnonCounts

/-! # Copying objects

`vm_object_copy` on objects that `vm_aobj_new`, faults and other copies have made.  `vm_aobj_new` makes an
amap without a table of chunks, and the first fault allocates one.  `amap_copy` asks `kmem_alloc` for a
table of the size that the old one has; of an amap that has none yet the size is 0, which `_kmem_alloc`
asserts not to be asked for.

* **`copy_ok`**: an object with a table is copied, slot by slot.
* **`object_copy_iff`**: every object of a run can be copied, and the loop of `vm_map_fork` does not stop
  at a copy, if and only if every object has a table. -/

namespace Scalux.Vm

variable {s s' : State} {m : MapId} {o newobj : ObjId} {a : AnonId} {p : Page} {v : ℕ} {F : List Page}
  {obj : Object} {flags : FaultFlags} {t t' : Sys} {e : Entry}

/-- The steps that make objects and fill their slots. -/
def Builds (_ : Sys) : ObjAction → Prop
  | .vmAobjNew .. | .vmObjectCopy .. | .fault .. => True
  | .vmObjectRetain _ | .vmObjectRelease _ => False

instance (t : Sys) : (x : ObjAction) → Decidable (Builds t x)
  | .vmAobjNew .. | .vmObjectCopy .. | .fault .. => .isTrue trivial
  | .vmObjectRetain _ | .vmObjectRelease _ => .isFalse id

/-- Every object can be copied: `vm_object_copy` returns an object of the same size with the same anons,
and the loop of `vm_map_fork` does not stop at the copy of an object, whatever entries it has gone through
before. -/
structure Copyable (s : State) : Prop where
  copies : ∀ o obj newobj, s.objs.get? o = some obj → s.objs.get? newobj = none →
    ∃ s' obj', vmObjectCopy s o newobj = some s' ∧ s'.objs.get? newobj = some obj' ∧
      obj'.size = obj.size ∧ ∀ page, slotIn s'.objs newobj page = slotIn s.objs o page
  forks : ∀ newmap pool s₁ done newobjs s₂ e newobj, vmMapNew s newmap pool = some s₁ →
    (∀ e' ∈ e :: done, s.objs.get? e'.obj ≠ none) →
    forkEntries newmap s₁ done newobjs = some s₂ → s₂.objs.get? newobj = none →
    vmObjectCopy s₂ e.obj newobj ≠ none

/-- Objects are anonymous, and the anons in their slots are there. -/
structure SlotsLive (s : State) : Prop where
  anonymous : ∀ o obj, s.objs.get? o = some obj → obj.type = .kVMObjAnon
  live : ∀ o obj, s.objs.get? o = some obj → ∀ a, some a ∈ obj.slots → s.anons.get? a ≠ none

/-! ## One copy -/

/-- `amap_copy` of one anon leaves the objects and the set of anons. -/
theorem anonShare_frame (hs : anonShare s a = some s') : s'.objs = s.objs ∧
    ∀ b, s'.anons.get? b = none ↔ s.anons.get? b = none := by
  obtain ⟨anon, hanon, rfl⟩ := anonShare_eq hs
  obtain ⟨f, hf, -⟩ := foldl_reenter_eq
    (s := setAnon s a { anon with refcnt := incr 24 anon.refcnt }) (p := anon.physpage)
    ((setAnon s a { anon with refcnt := incr 24 anon.refcnt }).pv anon.physpage)
  rw [pmapReenterAllReadonly, hf]
  exact ⟨rfl, Heap.get?_set_eq_none s.anons a _⟩

/-- `amap_copy` goes through the slots of anons that are there. -/
theorem share_ok {l : List AnonId} (hlive : ∀ a ∈ l, s.anons.get? a ≠ none) :
    ∃ s', l.foldlM anonShare s = some s' ∧ s'.objs = s.objs ∧
      ∀ b, s'.anons.get? b = none ↔ s.anons.get? b = none := by
  induction l generalizing s with
  | nil => exact ⟨s, rfl, rfl, fun _ => Iff.rfl⟩
  | cons a l ih =>
      obtain ⟨anon, hanon⟩ := Option.ne_none_iff_exists'.mp (hlive a List.mem_cons_self)
      obtain ⟨s₁, hs₁⟩ : ∃ s₁, anonShare s a = some s₁ := by
        unfold anonShare
        rw [hanon]
        exact ⟨_, rfl⟩
      obtain ⟨hobjs₁, hanons₁⟩ := anonShare_frame hs₁
      have hlive₁ : ∀ b ∈ l, s₁.anons.get? b ≠ none := fun b hb =>
        mt (hanons₁ b).mp (hlive b (List.mem_cons_of_mem a hb))
      obtain ⟨s', hs', hobjs', hanons'⟩ := ih hlive₁
      refine ⟨s', ?_, hobjs'.trans hobjs₁, fun b => (hanons' b).trans (hanons₁ b)⟩
      rw [List.foldlM_cons, hs₁]
      exact hs'

/-- **`vm_object_copy`** of an object that has slots. -/
theorem copy_ok (h : SlotsLive s) (hobj : s.objs.get? o = some obj) (hslots : obj.slots ≠ [])
    (hnew : s.objs.get? newobj = none) : ∃ s', vmObjectCopy s o newobj = some s' ∧
      (∀ o', s'.objs.get? o' = if o' = newobj then some { obj with refcnt := 1 }
        else s.objs.get? o') ∧
      ∀ b, s'.anons.get? b = none ↔ s.anons.get? b = none := by
  have hlive : ∀ a ∈ obj.slots.reduceOption, s.anons.get? a ≠ none := fun a ha =>
    h.live o obj hobj a (List.reduceOption_mem_iff.mp ha)
  obtain ⟨s₁, hs₁, hobjs₁, hanons₁⟩ := share_ok hlive
  obtain ⟨objs, halloc⟩ : ∃ objs, s₁.objs.alloc newobj { obj with refcnt := 1 } = some objs := by
    rw [hobjs₁]
    exact Heap.exists_alloc hnew _
  refine ⟨{ s₁ with objs := objs }, ?_, fun o' => ?_, hanons₁⟩
  · unfold vmObjectCopy amapCopy
    rw [hobj, Option.bind_eq_bind, Option.bind_some, if_pos (h.anonymous o obj hobj), if_pos hslots,
      hs₁, Option.bind_eq_bind, Option.bind_some, halloc]
    rfl
  · show objs.get? o' = _
    rw [Heap.get?_alloc halloc, hobjs₁]

/-- `vm_object_copy` of an object without slots trips the assertion of `_kmem_alloc`. -/
theorem copy_stops (hobj : s.objs.get? o = some obj) (hslots : obj.slots = []) :
    vmObjectCopy s o newobj = none := by
  unfold vmObjectCopy amapCopy
  rw [hobj, Option.bind_eq_bind, Option.bind_some, hslots]
  split <;> rfl

/-! ## Runs -/

/-- Slots that are filled with anons that are there. -/
theorem SlotsLive.setSlots (h : SlotsLive s) (hobj : s.objs.get? o = some obj)
    {slots : List (Option AnonId)} (hobjs : s'.objs = s.objs.set o { obj with slots := slots })
    (hanons : ∀ b, s.anons.get? b ≠ none → s'.anons.get? b ≠ none)
    (hslots : ∀ b, some b ∈ slots → s'.anons.get? b ≠ none) : SlotsLive s' := by
  have hget := Heap.get?_set hobj { obj with slots := slots }
  constructor
  · intro o' x hx
    rw [hobjs, hget] at hx
    split at hx
    · cases hx
      exact h.anonymous o obj hobj
    · exact h.anonymous o' x hx
  · intro o' x hx b hb
    rw [hobjs, hget] at hx
    split at hx
    · cases hx
      exact hslots b hb
    · exact hanons b (h.live o' x hx b hb)

/-- A slot is filled with a new anon. -/
theorem SlotsLive.fill (h : SlotsLive s) (hobj : s.objs.get? o = some obj) {page : ℕ} {x : Anon}
    {base anons : Heap Anon} (hbase : ∀ b, s.anons.get? b ≠ none → base.get? b ≠ none)
    (ha : base.alloc a x = some anons)
    (hobjs : s'.objs = s.objs.set o { obj with slots := obj.slots.set page (some a) })
    (hanons : s'.anons = anons) : SlotsLive s' := by
  subst hanons
  have hkeeps : ∀ b, s.anons.get? b ≠ none → s'.anons.get? b ≠ none := fun b hb => by
    rw [Heap.get?_alloc ha]
    split
    · simp
    · exact hbase b hb
  refine h.setSlots hobj hobjs hkeeps fun b hb => ?_
  rcases List.mem_or_eq_of_mem_set hb with hb | hb
  · exact hkeeps b (h.live o obj hobj b hb)
  · cases hb
    rw [Heap.get?_alloc ha, if_pos rfl]
    simp

/-- **A fault** puts an anon into a slot that it has made, if any. -/
theorem fault_live {voff : ℕ} {r : ℤ} (h : SlotsLive s)
    (hs : faultAobj s m o v voff flags a p = some (r, s')) : SlotsLive s' := by
  obtain ⟨obj, slots, hobj, hgrow, hcase⟩ := faultAobj_result hs
  -- growing adds empty slots only
  have hlive : ∀ b, some b ∈ slots → s.anons.get? b ≠ none := by
    intro b hb
    have hcount := (sameSlots_grow hgrow).count_eq b
    rw [← List.count_pos_iff] at hb
    refine h.live o obj hobj b (List.count_pos_iff.mp ?_)
    exact Nat.lt_of_lt_of_eq hb hcount
  have hgrown : SlotsLive (setObj s o { obj with slots := slots }) :=
    h.setSlots hobj rfl (fun _ hb => hb) hlive
  rcases hcase with rfl | hcase
  · exact hgrown
  have hobj' : (setObj s o { obj with slots := slots }).objs.get? o
      = some { obj with slots := slots } := (Heap.get?_set hobj _ o).trans (if_pos rfl)
  cases hcase with
  | read old anon hslot hanon hshared hpresent hwrite => exact ⟨hgrown.anonymous, hgrown.live⟩
  | reenter old anon hslot hanon hsole hpresent => exact ⟨hgrown.anonymous, hgrown.live⟩
  | enter old anon hslot hanon hsole hpresent => exact ⟨hgrown.anonymous, hgrown.live⟩
  | zero hslot s₁ hnew =>
      obtain ⟨-, anons, ha, rfl⟩ := anonNew_eq hnew
      exact hgrown.fill hobj' (fun _ hb => hb) ha rfl rfl
  | copy old anon hslot hanon hshared hwrite s₁ s₂ hcopy hunenter =>
      obtain ⟨-, anons, ha, rfl⟩ := anonCopy_eq hcopy
      -- the old anon keeps its place on the heap with one reference less
      have hbase := fun b (hb : s.anons.get? b ≠ none) =>
        mt (Heap.get?_set_eq_none s.anons old { anon with refcnt := decr 24 anon.refcnt } b).mp hb
      split at hunenter
      · obtain ⟨f, g, rfl, -⟩ := pmapUnenter_frame hunenter
        exact hgrown.fill hobj' hbase ha rfl rfl
      · subst hunenter
        exact hgrown.fill hobj' hbase ha rfl rfl

/-- A new object whose anons are there. -/
theorem SlotsLive.allocObj (h : SlotsLive s) (new : Object) (htype : new.type = .kVMObjAnon)
    (hlive : ∀ b, some b ∈ new.slots → s.anons.get? b ≠ none)
    (hobjs : ∀ o', s'.objs.get? o' = if o' = o then some new else s.objs.get? o')
    (hanons : ∀ b, s'.anons.get? b = none ↔ s.anons.get? b = none) : SlotsLive s' := by
  constructor
  · intro o' x hx
    rw [hobjs] at hx
    split at hx
    · cases hx
      exact htype
    · exact h.anonymous o' x hx
  · intro o' x hx b hb
    rw [hobjs] at hx
    refine mt (hanons b).mp ?_
    split at hx
    · cases hx
      exact hlive b hb
    · exact h.live o' x hx b hb

/-- **`vm_object_copy`**: what it has copied, if it returns. -/
theorem SlotsLive.copy (h : SlotsLive s) (hs : vmObjectCopy s o newobj = some s') :
    SlotsLive s' ∧ ∃ obj, s.objs.get? o = some obj ∧ obj.slots ≠ [] ∧
      ∀ o', s'.objs.get? o' = if o' = newobj then some { obj with refcnt := 1 }
        else s.objs.get? o' := by
  obtain ⟨obj, s₁, objs, hobj, hshare, halloc, rfl⟩ := vmObjectCopy_eq hs
  have hslots : obj.slots ≠ [] := by
    intro hnil
    rw [copy_stops hobj hnil] at hs
    cases hs
  have hnew : s.objs.get? newobj = none := by
    have hobjs : s₁.objs = s.objs := foldlM_invariant (P := fun x => x.objs = s.objs) hshare rfl
      fun _ _ _ _ hx hstep => (anonShare_frame hstep).1.trans hx
    rw [← hobjs]
    exact Heap.get?_of_alloc halloc
  obtain ⟨s', hs', hobjs, hanons⟩ := copy_ok h hobj hslots hnew
  obtain rfl := Option.some.inj (hs.symm.trans hs')
  exact ⟨h.allocObj { obj with refcnt := 1 } (h.anonymous o obj hobj) (h.live o obj hobj) hobjs hanons,
    obj, hobj, hslots, hobjs⟩

/-- **One step** of a run that makes objects. -/
theorem slotsLive_step {x : ObjAction} (h : SlotsLive t.st) (hb : Builds t x)
    (hs : objStep t x = some t') : SlotsLive t'.st := by
  cases x with
  | vmAobjNew o size =>
      obtain ⟨st, hst, hs⟩ := Option.bind_eq_some_iff.mp hs
      cases hs
      obtain ⟨objs, ha, rfl⟩ := vmAobjNew_eq hst
      exact h.allocObj _ rfl (by simp) (Heap.get?_alloc ha) fun _ => Iff.rfl
  | vmObjectRetain o => exact hb.elim
  | vmObjectRelease o => exact hb.elim
  | vmObjectCopy o newobj =>
      obtain ⟨st, hst, hs⟩ := Option.bind_eq_some_iff.mp hs
      cases hs
      exact (h.copy hst).1
  | fault m o v voff flags a p =>
      obtain ⟨⟨r, st⟩, hst, hs⟩ := Option.bind_eq_some_iff.mp hs
      cases hs
      exact fault_live h hst

/-- Without objects no slot refers to an anon. -/
theorem NoObjects.slotsLive (h : NoObjects F t) : SlotsLive t.st where
  anonymous o obj hobj := by rw [h.objs_eq] at hobj; cases hobj
  live o obj hobj := by rw [h.objs_eq] at hobj; cases hobj

/-! ## The loop of `vm_map_fork` -/

/-- Every object has a table of chunks. -/
def Tabled (s : State) : Prop := ∀ o obj, s.objs.get? o = some obj → obj.slots ≠ []

/-- What the loop keeps, for the objects of the entries that are still to come. -/
structure Forkable (live : List ObjId) (s : State) : Prop where
  slots : SlotsLive s
  tabled : Tabled s
  there : ∀ o ∈ live, s.objs.get? o ≠ none

/-- What can be forked depends on the objects and the anons. -/
theorem Forkable.congr {live : List ObjId} (h : Forkable live s) (hobjs : s'.objs = s.objs)
    (hanons : s'.anons = s.anons) : Forkable live s' where
  slots := ⟨hobjs ▸ h.slots.anonymous, hobjs ▸ hanons ▸ h.slots.live⟩
  tabled := by
    unfold Tabled
    rw [hobjs]
    exact h.tabled
  there := hobjs ▸ h.there

/-- An object changes and keeps its type and its slots. -/
theorem Forkable.setObj {live : List ObjId} (h : Forkable live s) (obj' : Object)
    (hobj : s.objs.get? o = some obj) (htype : obj'.type = obj.type) (hslots : obj'.slots = obj.slots)
    (hobjs : s'.objs = s.objs.set o obj') (hanons : s'.anons = s.anons) : Forkable live s' := by
  have hget := Heap.get?_set hobj obj'
  -- every object of the new state has the slots of one of the old state
  have hback : ∀ o' x, s'.objs.get? o' = some x → ∃ y, s.objs.get? o' = some y ∧ x.type = y.type ∧
      x.slots = y.slots := by
    intro o' x hx
    rw [hobjs, hget] at hx
    split at hx
    · rename_i ho
      cases hx
      exact ⟨obj, ho ▸ hobj, htype, hslots⟩
    · exact ⟨x, hx, rfl, rfl⟩
  refine ⟨⟨fun o' x hx => ?_, fun o' x hx b hb => ?_⟩, fun o' x hx => ?_, fun o' ho' => ?_⟩
  · obtain ⟨y, hy, hxy, -⟩ := hback o' x hx
    exact hxy.trans (h.slots.anonymous o' y hy)
  · obtain ⟨y, hy, -, hxy⟩ := hback o' x hx
    rw [hanons]
    exact h.slots.live o' y hy b (hxy ▸ hb)
  · obtain ⟨y, hy, -, hxy⟩ := hback o' x hx
    rw [hxy]
    exact h.tabled o' y hy
  · rw [hobjs]
    exact mt (Heap.get?_set_eq_none s.objs o obj' o').mp (h.there o' ho')

/-- **One round of the loop.** -/
theorem Forkable.forkEntry {live : List ObjId} {newmap : MapId} (h : Forkable live s)
    (hs : forkEntry newmap s e newobj = some s') : Forkable live s' := by
  obtain ⟨s₁, addr, s₂, hcopy, hmap, hrelease⟩ := forkEntry_cases hs
  obtain ⟨hlive₁, obj, hobj, hslots, hobjs₁⟩ := h.slots.copy hcopy
  have h₁ : Forkable live s₁ := by
    refine ⟨hlive₁, fun o' x hx => ?_, fun o' ho' => ?_⟩
    · rw [hobjs₁] at hx
      split at hx
      · cases hx
        exact hslots
      · exact h.tabled o' x hx
    · rw [hobjs₁]
      split
      · simp
      · exact h.there o' ho'
  -- the copy is retained, mapped and released
  obtain ⟨-, s₃, hretain, hinsert⟩ := vmMapObject_cases hmap
  obtain ⟨new, hnew, rfl⟩ := vmObjectRetain_eq hretain
  obtain ⟨map, vmem, -, -, rfl⟩ := mapInsert_cases hinsert
  have hone : new.refcnt = 1 := by
    rw [hobjs₁, if_pos rfl] at hnew
    cases hnew
    rfl
  have h₃ : Forkable live (Vm.setObj s₁ newobj { new with refcnt := incr 32 new.refcnt }) :=
    h₁.setObj { new with refcnt := incr 32 new.refcnt } hnew rfl rfl rfl rfl
  obtain ⟨x, hx, hcases⟩ := vmObjectRelease_cases hrelease
  have hx' : x = { new with refcnt := incr 32 new.refcnt } :=
    Option.some.inj (hx.symm.trans ((Heap.get?_set hnew _ newobj).trans (if_pos rfl)))
  have hpos : 0 < decr 32 x.refcnt := by
    rw [hx', hone]
    show 0 < decr 32 (incr 32 1)
    decide
  rcases hcases with ⟨-, rfl⟩ | ⟨hle, -⟩
  · exact h₃.setObj { x with refcnt := decr 32 x.refcnt } hx rfl rfl rfl rfl
  · exact absurd hpos (Int.not_lt.mpr hle)

/-- The rounds of the loop. -/
theorem Forkable.forkEntries {live : List ObjId} {newmap : MapId} {es : List Entry} {os : List ObjId}
    (h : Forkable live s) (hs : forkEntries newmap s es os = some s') : Forkable live s' := by
  induction es generalizing s os with
  | nil =>
      cases hs
      exact h
  | cons e es ih =>
      cases os with
      | nil => cases hs
      | cons o os =>
          obtain ⟨s₁, hone, hs⟩ := Option.bind_eq_some_iff.mp hs
          exact ih (h.forkEntry hone) hs

/-- **Copies.** In every state that is made from no objects by `vm_aobj_new`, faults and
`vm_object_copy`, each object can be copied and the loop of `vm_map_fork` never stops at a copy, if and
only if each object has a table of chunks: it, or one that it is a copy of, has had a fault. -/
theorem object_copy_iff {t₀ : Sys} (h₀ : NoObjects F t₀) (h : objMachine.Reach Builds t₀ t) :
    Copyable t.st ↔ ∀ o obj, t.st.objs.get? o = some obj → obj.slots ≠ [] := by
  have hlive : SlotsLive t.st :=
    h.invariant (I := fun t => SlotsLive t.st) h₀.slotsLive fun _ _ _ hi hc hs => slotsLive_step hi hc hs
  constructor
  -- an object without a slot: `kmem_alloc` of no bytes stops the copy
  · intro hcopy o obj hobj hnil
    obtain ⟨newobj, hnew⟩ := t.st.objs.exists_fresh
    obtain ⟨s', -, hs', -⟩ := hcopy.copies o obj newobj hobj hnew
    rw [copy_stops hobj hnil] at hs'
    cases hs'
  · intro htabled
    constructor
    · intro o obj newobj hobj hnew
      obtain ⟨s', hs', hobjs, -⟩ := copy_ok hlive hobj (htabled o obj hobj) hnew
      have hcopied := (hobjs newobj).trans (if_pos rfl)
      refine ⟨s', _, hs', hcopied, rfl, fun page => ?_⟩
      unfold slotIn
      rw [hcopied, hobj]
      rfl
    · intro newmap pool s₁ done newobjs s₂ e newobj hmap hthere hdone hnew
      -- a new map changes neither objects nor anons
      have hframe : s₁.objs = t.st.objs ∧ s₁.anons = t.st.anons := by
        obtain ⟨vmem, maps, -, -, rfl⟩ := vmMapNew_eq hmap
        exact ⟨rfl, rfl⟩
      have hthere' : ∀ o ∈ [e.obj], t.st.objs.get? o ≠ none := fun o ho =>
        List.mem_singleton.mp ho ▸ hthere e List.mem_cons_self
      have hfork : Forkable [e.obj] t.st := ⟨hlive, htabled, hthere'⟩
      have hend := (hfork.congr hframe.1 hframe.2).forkEntries hdone
      obtain ⟨obj, hobj⟩ := Option.ne_none_iff_exists'.mp (hend.there e.obj List.mem_cons_self)
      obtain ⟨s', hs', -⟩ := copy_ok hend.slots hobj (hend.tabled e.obj obj hobj) hnew
      rw [hs']
      simp

/-- A page of an object is shared by a copy, which a fault then makes one of its own for. -/
def copiedRun : List ObjAction :=
  [.vmAobjNew 0 0x1000, .fault 1 0 0x2000 0 ⟨false, true⟩ 0 0, .vmObjectCopy 0 1,
    .fault 2 1 0x2000 0 ⟨false, true⟩ 1 1]

/-- An object with slots is copied. -/
theorem object_copy_iff_faulted : ∃ t, objMachine.exec noObjects copiedRun = some t ∧
    (Copyable t.st ↔ ∀ o obj, t.st.objs.get? o = some obj → obj.slots ≠ []) := by
  have hrun : (objMachine.exec noObjects copiedRun).isSome = true := by decide
  obtain ⟨t, ht⟩ := Option.isSome_iff_exists.mp hrun
  exact ⟨t, ht, object_copy_iff noObjects_start (Machine.reach_of_exec
    (c := fun t x => decide (Builds t x)) (fun _ _ hc => of_decide_eq_true hc) (by decide) ht)⟩

/-- An object without a fault cannot be copied. -/
theorem object_copy_stops : ¬ ∀ (F : List Page) (t₀ t : Sys), NoObjects F t₀ →
    objMachine.Reach Builds t₀ t → Copyable t.st := by
  intro h
  obtain ⟨t, hnew, hobj⟩ : ∃ t, objStep noObjects (.vmAobjNew 0 0x1000) = some t ∧
      t.st.objs.get? 0 = some ⟨1, .kVMObjAnon, 0x1000, none, []⟩ := ⟨_, rfl, rfl⟩
  have hcopy := h _ _ t noObjects_start
    (Machine.Reach.step .init (show Builds noObjects (.vmAobjNew 0 0x1000) from trivial) hnew)
  obtain ⟨newobj, hnone⟩ := t.st.objs.exists_fresh
  obtain ⟨s', -, hs', -⟩ := hcopy.copies 0 _ newobj hobj hnone
  rw [copy_stops hobj rfl] at hs'
  cases hs'

end Scalux.Vm
