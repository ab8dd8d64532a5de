import Scalux.Kern.VmemSearch
import Scalux.Vm.MapArena

/-! # Requests for addresses that fail

`vm_map_object` takes a reference to the object, or copies it, before it asks the arena for addresses;
where the arena has none it returns the error and leaves the reference or the copy behind ("TODO: free
copy if necessary?").  `vm_allocate` drops the reference it holds itself, so its object stays with the
one that `vm_map_object` has left, and it returns zero in any case.

* **`mapObject_error`**, **`allocate_error`**: what a request that fails leaves.
* **`map_failure_iff`**: failures are atomic and reported exactly where there are none. -/

namespace Scalux.Vm

open Vmem (view vmemXalloc fitAddr freelist eResourceExhausted)

variable {s s' : State} {m : MapId} {o : ObjId} {vaddr size offset : ℕ} {newobj : Option ObjId}
  {map : Map} {r : Except ℤ ℕ}

/-! ## The properties -/

/-- The arena of a map refuses the request of `vm_map_object` with an error code. -/
def Refused (map : Map) (vaddr size : ℕ) (code : ℤ) : Prop :=
  ∃ vmem, vmemXalloc none map.vmem size 0 0 (if vaddr ≠ vaddrMax then vaddr else 0) 0
    ⟨decide (vaddr ≠ vaddrMax)⟩ = some (.error code, vmem)

/-- A request of `vm_map_object` that the arena refuses is reported, and leaves the entries of the map
and the count of the object as they were, and no copy. -/
def FailsAtomically (s : State) (m : MapId) (o : ObjId) (vaddr size offset : ℕ)
    (newobj : Option ObjId) : Prop :=
  ∀ map code r s', s.maps.get? m = some map → Refused map vaddr size code →
    vmMapObject s m o vaddr size offset newobj = some (r, s') →
    r = .error code ∧ code < 0 ∧ (s'.maps.get? m).map Map.entries = some map.entries ∧
      (s'.objs.get? o).map Object.refcnt = (s.objs.get? o).map Object.refcnt ∧
      ∀ n ∈ newobj, s'.objs.get? n = none

/-- What `vm_allocate` returns, and the address it leaves in `*vaddrp`; an error of `vm_map_object` is
dropped. -/
def vmAllocateReturn (s : State) (m : MapId) (o : ObjId) (vaddr size : ℕ) :
    Option (ℤ × ℕ × State) := do
  let (r, s) ← vmAllocate s m o vaddr size
  match r with
  | .error _ => return (0, vaddr, s)
  | .ok addr => return (0, addr, s)

/-- A request of `vm_allocate` that the arena refuses is reported, and the object it has made is gone;
and it returns zero only if an entry covers the range. -/
def AllocateReports (s : State) (m : MapId) (o : ObjId) (vaddr size : ℕ) : Prop :=
  ∀ map ret vaddr' s', s.maps.get? m = some map →
    vmAllocateReturn s m o vaddr size = some (ret, vaddr', s') →
    (∀ code, Refused map vaddr size code → ret = code ∧ code < 0 ∧ s'.objs.get? o = none) ∧
    (ret = 0 → ∃ map', s'.maps.get? m = some map' ∧
      ∃ e ∈ map'.entries, e.start ≤ vaddr' ∧ vaddr' + size ≤ e.stop)

/-- A free segment of a searched class passes the test of `vmem_xalloc`. -/
def Served (map : Map) (vaddr size : ℕ) : Prop :=
  ∃ f ∈ view map.vmem, f.type = .kVMemSegFree ∧ freelist size ≤ freelist f.size ∧
    fitAddr f size (if vaddr ≠ vaddrMax then vaddr else 0) ⟨decide (vaddr ≠ vaddrMax)⟩ ≠ none

/-! ## What a request leaves -/

/-- The arena of a map refuses what it does not serve. -/
theorem MapOk.error_iff {lo : ℕ} {vmem : Vmem.Arena Unit} (hok : MapOk lo map)
    (hx : vmemXalloc none map.vmem size 0 0 (if vaddr ≠ vaddrMax then vaddr else 0) 0
      ⟨decide (vaddr ≠ vaddrMax)⟩ = some (r, vmem)) :
    r = .error (-eResourceExhausted) ↔ ¬ Served map vaddr size := by
  obtain ⟨live, hinv, -⟩ := hok.arena
  have hwords : ∀ g ∈ view map.vmem, g.type = .kVMemSegFree → 0 < g.size ∧ g.size < 2 ^ 64 := by
    intro g hg hfree
    have hw := hinv.tiled.words hg hfree
    exact ⟨hw.1, hw.2.1⟩
  rw [Vmem.xalloc_error_iff hinv.linked hwords hx]
  constructor
  · rintro hall ⟨f, hf, hfree, hclass, hfit⟩
    exact hfit (hall f hf hfree hclass)
  · intro hnot f hf hfree hclass
    by_contra hfit
    exact hnot ⟨f, hf, hfree, hclass, hfit⟩

theorem incr_ne (n : ℕ) (k : ℤ) : incr n k ≠ k := by
  unfold incr
  split
  · rename_i h
    have : (0 : ℤ) < 2 ^ (n - 1) := by positivity
    omega
  · omega

/-- **`vm_map_object` where the arena refuses**: the reference, or the copy, is left. -/
theorem mapObject_error {code : ℤ}
    (h : vmMapObject s m o vaddr size offset newobj = some (.error code, s')) :
    match newobj with
    | none => ∃ obj, s.objs.get? o = some obj ∧
        s'.objs.get? o = some { obj with refcnt := incr 32 obj.refcnt }
    | some n => ∃ obj : Object, s'.objs.get? n = some { obj with refcnt := 1 } := by
  obtain ⟨-, s₁, hobj, hins⟩ := vmMapObject_cases h
  obtain ⟨map, vmem, -, -, rfl⟩ := mapInsert_cases hins
  cases newobj with
  | none =>
      obtain ⟨obj, hget, rfl⟩ := vmObjectRetain_eq hobj
      refine ⟨obj, hget, ?_⟩
      show (s.objs.set o _).get? o = _
      rw [Heap.get?_set hget, if_pos rfl]
  | some n =>
      obtain ⟨obj, s₂, objs, -, -, halloc, rfl⟩ := vmObjectCopy_eq hobj
      refine ⟨obj, ?_⟩
      show objs.get? n = _
      rw [Heap.get?_alloc halloc, if_pos rfl]

/-- **`vm_allocate` where the arena refuses**: the object is left with one reference. -/
theorem allocate_error {code : ℤ} (h : vmAllocate s m o vaddr size = some (.error code, s')) :
    ∃ obj, s'.objs.get? o = some obj ∧ obj.refcnt = 1 := by
  obtain ⟨s₁, s₂, hnew, hmapobj, hrel⟩ := vmAllocate_cases h
  obtain ⟨objs, halloc, rfl⟩ := vmAobjNew_eq hnew
  obtain ⟨obj, hget, hget₂⟩ := mapObject_error hmapobj
  have hobj : objs.get? o = some ⟨1, .kVMObjAnon, size, none, []⟩ := by
    rw [Heap.get?_alloc halloc, if_pos rfl]
  obtain rfl := Option.some.inj (hobj.symm.trans hget)
  have htwo : incr 32 1 = 2 := by decide
  have hone : decr 32 2 = 1 := by decide
  dsimp only at hget₂
  rw [htwo] at hget₂
  obtain ⟨obj, hget₃, ⟨-, rfl⟩ | ⟨hle, -⟩⟩ := vmObjectRelease_cases hrel
  all_goals obtain rfl := Option.some.inj (hget₂.symm.trans hget₃)
  · refine ⟨⟨decr 32 2, .kVMObjAnon, size, none, []⟩, ?_, hone⟩
    show (s₂.objs.set o _).get? o = _
    rw [Heap.get?_set hget₂, if_pos rfl]
  · rw [hone] at hle
    omega

/-- **`vm_allocate` where the arena serves**: the map has a new entry at the address. -/
theorem allocate_ok {addr : ℕ} (hmap : s.maps.get? m = some map)
    (h : vmAllocate s m o vaddr size = some (.ok addr, s')) :
    ∃ vmem, vmemXalloc none map.vmem size 0 0 (if vaddr ≠ vaddrMax then vaddr else 0) 0
        ⟨decide (vaddr ≠ vaddrMax)⟩ = some (.ok addr, vmem) ∧
      s'.maps.get? m = some ⟨map.entries ++ [⟨addr, add64 addr size, 0, o⟩], vmem⟩ := by
  obtain ⟨s₁, s₂, hnew, hmapobj, hrel⟩ := vmAllocate_cases h
  obtain ⟨map₁, vmem, hmap₁, hx, hmaps⟩ := vmMapObject_maps hmapobj
  have hmap₂ : s₁.maps.get? m = some map := vmAobjNew_maps hnew ▸ hmap
  obtain rfl := Option.some.inj (hmap₂.symm.trans hmap₁)
  refine ⟨vmem, hx, ?_⟩
  rw [vmObjectRelease_maps hrel, hmaps, Heap.get?_set hmap₁, if_pos rfl]
  rfl

/-- What `vm_allocate` asks for is what it hands to the arena. -/
theorem allocate_request (hmap : s.maps.get? m = some map)
    (h : vmAllocate s m o vaddr size = some (r, s')) :
    size % pgSize = 0 ∧ ∃ vmem, vmemXalloc none map.vmem size 0 0
      (if vaddr ≠ vaddrMax then vaddr else 0) 0 ⟨decide (vaddr ≠ vaddrMax)⟩ = some (r, vmem) := by
  obtain ⟨s₁, s₂, hnew, hmapobj, -⟩ := vmAllocate_cases h
  obtain ⟨map₁, vmem, hmap₁, hx, -⟩ := vmMapObject_maps hmapobj
  have hmap₂ : s₁.maps.get? m = some map := vmAobjNew_maps hnew ▸ hmap
  obtain rfl := Option.some.inj (hmap₂.symm.trans hmap₁)
  exact ⟨(vmMapObject_cases hmapobj).1, vmem, hx⟩

/-! ## The results -/

/-- An error of the arena is the only one. -/
theorem error_eq {code : ℤ} {vmem : Vmem.Arena Unit} {lo : ℕ} (hok : MapOk lo map)
    (hx : vmemXalloc none map.vmem size 0 0 (if vaddr ≠ vaddrMax then vaddr else 0) 0
      ⟨decide (vaddr ≠ vaddrMax)⟩ = some (.error code, vmem)) : code = -eResourceExhausted := by
  obtain ⟨live, hinv, -⟩ := hok.arena
  exact (Vmem.vmemXalloc_spec hinv.linked hx).2.2.2.1

/-- `vm_map_object`: failures are atomic where there are none. -/
theorem failsAtomically_iff {lo : ℕ} (hmap : s.maps.get? m = some map) (hok : MapOk lo map)
    (h : vmMapObject s m o vaddr size offset newobj = some (r, s')) :
    FailsAtomically s m o vaddr size offset newobj ↔ Served map vaddr size := by
  obtain ⟨map₁, vmem, hmap₁, hx, -⟩ := vmMapObject_maps h
  obtain rfl := Option.some.inj (hmap.symm.trans hmap₁)
  have hiff := hok.error_iff hx
  -- on a refusal the reference, or the copy of the object, stays behind
  constructor
  · intro hatomic
    by_contra hserved
    obtain rfl := hiff.mpr hserved
    obtain ⟨-, -, -, hrefcnt, hcopy⟩ := hatomic map _ _ s' hmap ⟨vmem, hx⟩ h
    have hleft := mapObject_error h
    cases newobj with
    | none =>
        obtain ⟨obj, hobj, hobj'⟩ := hleft
        rw [hobj, hobj', Option.map_some, Option.map_some, Option.some.injEq] at hrefcnt
        exact incr_ne 32 _ hrefcnt
    | some n =>
        obtain ⟨obj, hobj⟩ := hleft
        rw [hcopy n rfl] at hobj
        cases hobj
  · intro hserved map₂ code r' s₂ hmap₂ hrefused
    obtain rfl := Option.some.inj (hmap.symm.trans hmap₂)
    obtain ⟨vmem₂, hx₂⟩ := hrefused
    obtain rfl := error_eq hok hx₂
    exact ((hok.error_iff hx₂).mp rfl hserved).elim

/-- A new entry covers the range asked for unless its end wraps. -/
theorem covers_iff {addr : ℕ} {vmem : Vmem.Arena Unit} (hok : MapOk (mapLo m) map) (hsize : size < 2 ^ 64)
    (hpages : size % pgSize = 0)
    (hx : vmemXalloc none map.vmem size 0 0 (if vaddr ≠ vaddrMax then vaddr else 0) 0
      ⟨decide (vaddr ≠ vaddrMax)⟩ = some (.ok addr, vmem)) :
    (∃ e ∈ map.entries ++ [⟨addr, add64 addr size, 0, o⟩], e.start ≤ addr ∧ addr + size ≤ e.stop) ↔
      RequestOk vaddr size := by
  have htop := mapLo_top m
  by_cases hexact : vaddr = vaddrMax
  · -- wherever there is room: the range is in the span, away from the top
    rw [if_neg (not_not_intro hexact)] at hx
    obtain ⟨-, -, hnew⟩ := xalloc_spec hok (Nat.dvd_of_mod_eq_zero hpages) (Nat.dvd_zero _)
      (by omega) hx
    obtain ⟨hsum, -⟩ := hnew 0 o (Nat.dvd_zero _)
    refine iff_of_true ⟨_, List.mem_append_right _ List.mem_cons_self, le_rfl, ?_⟩ (.inl hexact)
    exact hsum.ge
  -- an exact request is served at its own address
  · have haddr : addr = vaddr := by
      obtain ⟨live, hinv, -⟩ := hok.arena
      obtain ⟨-, -, -, hres⟩ := Vmem.vmemXalloc_spec hinv.linked hx
      obtain ⟨L, f, R, -, -, -, hfit, -⟩ := hres.split
      rw [if_pos hexact] at hfit
      refine (Vmem.fitAddr_eq hfit).resolve_right fun hcon => ?_
      exact hexact (of_decide_eq_false hcon.2 |> not_not.mp)
    subst haddr
    constructor
    · rintro ⟨e, he, -, hstop⟩
      refine .inr ?_
      -- the end of an old entry is a number of the machine, the end of the new one is the wrapped sum
      rcases List.mem_append.mp he with he | he
      · have := (hok.entry_ok e he).le_hi
        omega
      · rw [List.mem_singleton.mp he] at hstop
        have : add64 addr size < 2 ^ 64 := Nat.mod_lt _ (by decide)
        exact lt_of_le_of_lt hstop this
    · intro hreq
      have hlt := hreq.resolve_left hexact
      refine ⟨_, List.mem_append_right _ List.mem_cons_self, le_rfl, ?_⟩
      show addr + size ≤ add64 addr size
      rw [add64_eq hlt]

/-- `vm_allocate`: failures are reported where there are none, and the range is covered where its end
does not wrap. -/
theorem allocateReports_iff (hmap : s.maps.get? m = some map) (hok : MapOk (mapLo m) map)
    (hsize : size < 2 ^ 64) (h : vmAllocate s m o vaddr size = some (r, s')) :
    AllocateReports s m o vaddr size ↔ Served map vaddr size ∧ RequestOk vaddr size := by
  obtain ⟨hpages, vmem, hx⟩ := allocate_request hmap h
  have hiff := hok.error_iff hx
  cases r with
  | error code =>
      obtain rfl := error_eq hok hx
      have hserved : ¬ Served map vaddr size := hiff.mp rfl
      -- refused, and 0 is returned all the same
      refine iff_of_false (fun hrep => ?_) fun hboth => hserved hboth.1
      have hret : vmAllocateReturn s m o vaddr size = some (0, vaddr, s') := by
        rw [vmAllocateReturn, h]
        rfl
      obtain ⟨-, -, hgone⟩ := (hrep map 0 vaddr s' hmap hret).1 _ ⟨vmem, hx⟩
      obtain ⟨obj, hobj, -⟩ := allocate_error h
      rw [hgone] at hobj
      cases hobj
  | ok addr =>
      have hserved : Served map vaddr size := by
        by_contra hnot
        cases hiff.mpr hnot
      obtain ⟨vmem₁, -, hmap'⟩ := allocate_ok hmap h
      have hret : vmAllocateReturn s m o vaddr size = some (0, addr, s') := by
        rw [vmAllocateReturn, h]
        rfl
      -- served: what is left to decide is whether the new entry covers the request
      rw [← covers_iff (o := o) hok hsize hpages hx]
      constructor
      · intro hrep
        obtain ⟨map', hget, hcover⟩ := (hrep map 0 addr s' hmap hret).2 rfl
        obtain rfl := Option.some.inj (hmap'.symm.trans hget)
        exact ⟨hserved, hcover⟩
      · rintro ⟨-, hcover⟩ map₂ ret vaddr' s₂ hmap₂ hret₂
        obtain rfl := Option.some.inj (hmap.symm.trans hmap₂)
        rw [hret] at hret₂
        cases hret₂
        refine ⟨fun code hrefused => ?_, fun _ => ⟨_, hmap', hcover⟩⟩
        obtain ⟨vmem₂, hx₂⟩ := hrefused
        rw [hx] at hx₂
        cases hx₂

/-- **Failures.** In every state, for every map in order and every call that returns: `vm_map_object`
fails atomically exactly if the arena serves the request, so that it does not fail; and `vm_allocate`
reports failures, and covers the range where it returns zero, exactly if the arena serves the request and
the end of a range asked for does not wrap. -/
theorem map_failure_iff (hmap : s.maps.get? m = some map) (hok : MapOk (mapLo m) map)
    (hsize : size < 2 ^ 64) :
    (∀ offset newobj r s', vmMapObject s m o vaddr size offset newobj = some (r, s') →
      (FailsAtomically s m o vaddr size offset newobj ↔ Served map vaddr size)) ∧
    (∀ r s', vmAllocate s m o vaddr size = some (r, s') →
      (AllocateReports s m o vaddr size ↔ Served map vaddr size ∧ RequestOk vaddr size)) :=
  ⟨fun _ _ _ _ h => failsAtomically_iff hmap hok h, fun _ _ h => allocateReports_iff hmap hok hsize h⟩

/-- A map with a page at `0x2000`, and tags for one more request. -/
def onePage : List Action :=
  [.call (.vmMapNew 1 [0, 1]), .call (.segRefill 1 [2, 3]), .call (.vmAllocate 1 0 0x2000 0x1000),
    .call (.segRefill 1 [4, 5])]

/-- The map is in order. -/
theorem mapOk_onePage {t : Sys} (ht : machine.exec bootSys onePage = some t)
    (hmap : t.st.maps.get? 1 = some map) : MapOk (mapLo 1) map :=
  (inv_reach boot_bootSys (Machine.reach_of_exec (c := fun t x => decide (StepOk t x))
    (fun _ _ hc => of_decide_eq_true hc) (by decide) ht)).mapsOk 1 map hmap

/-- A second page at `0x4000`. -/
theorem map_failure_iff_second :
    ∃ t map, machine.exec bootSys onePage = some t ∧ t.st.maps.get? 1 = some map ∧
      (vmAllocate t.st 1 1 0x4000 0x1000).isSome = true ∧
      AllocateReports t.st 1 1 0x4000 0x1000 := by
  have hrun : (machine.exec bootSys onePage).map (fun t =>
      ((t.st.maps.get? 1).map fun map => view map.vmem, (vmAllocate t.st 1 1 0x4000 0x1000).isSome))
      = some (some [⟨.kVMemSegSpan, userBase, userSize⟩, ⟨.kVMemSegFree, 0x1000, 0x1000⟩,
          ⟨.kVMemSegAllocated, 0x2000, 0x1000⟩, ⟨.kVMemSegFree, 0x3000, userSize - 0x2000⟩], true) := by
    decide
  obtain ⟨t, ht, hval⟩ := Option.map_eq_some_iff.mp hrun
  obtain ⟨hmap, hret⟩ := Prod.mk.inj hval
  obtain ⟨map, hmap, hview⟩ := Option.map_eq_some_iff.mp hmap
  obtain ⟨⟨r, s'⟩, hs⟩ := Option.isSome_iff_exists.mp hret
  refine ⟨t, map, ht, hmap, hret, ?_⟩
  refine ((map_failure_iff hmap (mapOk_onePage ht hmap) (by decide)).2 r s' hs).mpr ⟨?_, .inr (by decide)⟩
  refine ⟨⟨.kVMemSegFree, 0x3000, userSize - 0x2000⟩, ?_, rfl, by decide, by decide⟩
  rw [hview]
  simp

/-- **A failure that is not reported.** The page at `0x2000` is asked for again: `vm_allocate` returns
zero, and its object is left with one reference that nobody holds. -/
theorem allocate_leaks :
    ¬ ∀ (s : State) (m : MapId) (map : Map) (o : ObjId) (vaddr size : ℕ), s.maps.get? m = some map →
      MapOk (mapLo m) map → vaddr + size < 2 ^ 64 →
      (∀ offset newobj, FailsAtomically s m o vaddr size offset newobj) ∧
        AllocateReports s m o vaddr size := by
  intro h
  -- the page at 0x2000 is mapped already, and the second call for it returns 0
  have hrun : (machine.exec bootSys onePage).map (fun t =>
      (t.st.maps.get? 1).bind fun map =>
        (vmemXalloc none map.vmem 0x1000 0 0 0x2000 0 ⟨true⟩).bind fun x =>
          match x.1 with
          | .error code => (vmAllocateReturn t.st 1 1 0x2000 0x1000).map fun y => (code, y.1, y.2.1)
          | .ok _ => none)
      = some (some (-eResourceExhausted, 0, 0x2000)) := by decide
  obtain ⟨t, ht, hval⟩ := Option.map_eq_some_iff.mp hrun
  obtain ⟨map, hmap, hval⟩ := Option.bind_eq_some_iff.mp hval
  obtain ⟨⟨r, vmem⟩, hx, hval⟩ := Option.bind_eq_some_iff.mp hval
  cases r with
  | ok addr => cases hval
  | error code =>
      obtain ⟨⟨ret, vaddr', s'⟩, hret, hcodes⟩ := Option.map_eq_some_iff.mp hval
      simp only [Prod.mk.injEq] at hcodes
      obtain ⟨hcode, hzero, -⟩ := hcodes
      obtain ⟨-, hrep⟩ := h t.st 1 map 1 0x2000 0x1000 hmap (mapOk_onePage ht hmap) (by decide)
      obtain ⟨heq, hneg, -⟩ := (hrep map ret vaddr' s' hmap hret).1 code ⟨vmem, hx⟩
      omega

end Scalux.Vm
