import Scalux.Vm.MapCalls

/-! # Mappings and objects stay in step

Threads that read and write memory, and calls, one after the other.  An access that the page tables
do not allow traps, and `vm_fault` runs before anything else does; then the access goes through.

`fault_aobj` replaces the anon in a slot when a shared anon is written, and touches the page table
entry of the address that trapped and no other.  If the object is mapped at a second address and that
mapping is present, it keeps the old page: it shows what the object no longer has.

* **`mapping_coherent`**: in every run that never writes a shared page of an object while another
  mapping of the page is present, every page table entry shows the slot of its entry.
* **`mapping_stale`**: an object mapped twice, copied, and written through one of the mappings. -/

namespace Scalux.Vm

variable {s s' : State} {m : MapId} {o : ObjId} {a : AnonId} {p : Page} {v : ℕ} {t t' : Sys}
  {held : List ObjId} {c : Call}

/-! ## Calls -/

instance (vaddr size : ℕ) : Decidable (AddrOk vaddr size) := inferInstanceAs (Decidable (_ ∨ _))

/-- What a caller has to promise: an address to map at is a page away from the top of the address
space, and a count that goes up is not at its maximum. -/
def CallOk (t : Sys) : Call → Prop
  | .vmObjectRetain o => RoomToMap t.st o none
  | .vmObjectCopy o newobj => RoomToMap t.st o (some newobj)
  | .vmMapObject _ o vaddr size _ newobj => AddrOk vaddr size ∧ RoomToMap t.st o newobj
  | .vmAllocate _ _ vaddr size => AddrOk vaddr size
  | .vmMapFork m _ _ _ => RoomToFork t.st m
  | _ => True

instance (t : Sys) : (c : Call) → Decidable (CallOk t c)
  | .vmObjectRetain o => inferInstanceAs (Decidable (RoomToMap t.st o none))
  | .vmObjectCopy o newobj => inferInstanceAs (Decidable (RoomToMap t.st o (some newobj)))
  | .vmMapObject _ o vaddr size _ newobj =>
      inferInstanceAs (Decidable (AddrOk vaddr size ∧ RoomToMap t.st o newobj))
  | .vmAllocate _ _ vaddr size => inferInstanceAs (Decidable (AddrOk vaddr size))
  | .vmMapFork m _ _ _ => inferInstanceAs (Decidable (RoomToFork t.st m))
  | .segRefill .. => inferInstanceAs (Decidable True)
  | .kheapAlloc .. => inferInstanceAs (Decidable True)
  | .kheapFree .. => inferInstanceAs (Decidable True)
  | .vmMapNew .. => inferInstanceAs (Decidable True)
  | .vmAobjNew .. => inferInstanceAs (Decidable True)
  | .vmObjectRelease .. => inferInstanceAs (Decidable True)
  | .vmDeallocate .. => inferInstanceAs (Decidable True)

/-- The order of the references held does not matter. -/
theorem Inv.perm {held' : List ObjId} (h : Inv held s) (hp : held.Perm held') : Inv held' s where
  sound :=
    { refs := h.sound.refs
      ptes := h.sound.ptes
      pvInv := h.sound.pvInv
      holds :=
        { refcnt_le := fun o obj hobj => hp.count_eq o ▸ h.sound.holds.refcnt_le o obj hobj
          held_valid := fun o ho => h.sound.holds.held_valid o (hp.mem_iff.mpr ho)
          entry_valid := h.sound.holds.entry_valid
          kind := h.sound.holds.kind } }
  mapsOk := h.mapsOk
  kernel := h.kernel

/-- What does not change the maps keeps the part of the invariant about them. -/
theorem Inv.of_sound {held' : List ObjId} (h : Inv held s) (hmaps : s'.maps = s.maps)
    (hsound : Sound s.maps held' s') : Inv held' s' :=
  ⟨hmaps ▸ hsound, hmaps ▸ h.mapsOk, hmaps ▸ h.kernel⟩

/-- **Every call keeps the invariant.** -/
theorem inv_call (h : Inv t.held t.st) (hok : CallOk t c) (hs : call t c = some t') :
    Inv t'.held t'.st := by
  cases call_cases hs with
  -- tags for the arena of a map, no segment changes
  | segRefill m pool map hmap hpool =>
      have hmapOk := h.mapsOk m map hmap
      obtain ⟨live, hinv, hlive⟩ := hmapOk.arena
      exact inv_setVmem h hmap ⟨⟨live, Vmem.inv_withPool hinv hpool, hlive⟩, hmapOk.quantized,
        hmapOk.entry_ok, hmapOk.apart⟩
  | kheapAlloc npages hsize map addr vmem hmap hx =>
      have hlt : 0 + npages * pgSize < 2 ^ 64 := by omega
      exact inv_setVmem h hmap (xalloc_spec (h.mapsOk kmap map hmap) (Nat.dvd_mul_left _ _)
        (Nat.dvd_zero _) hlt hx).1
  | kheapFree addr map n vmem hmap hother hx =>
      exact inv_setVmem h hmap
        (xfree_spec (h.mapsOk kmap map hmap) hx (List.Sublist.refl _) hother)
  | vmMapNew m pool hpool st hst => exact (mapNew_spec h hpool hst).1
  | vmAobjNew o size st hst =>
      obtain ⟨hsound, hkept, -⟩ := aobjNew_spec h.sound hst
      exact h.of_sound hkept.maps_eq hsound
  | vmObjectRetain o st hst =>
      obtain ⟨hsound, hkept⟩ := retain_spec h.sound hok hst
      exact h.of_sound hkept.maps_eq hsound
  -- the reference that is given up is one of those held
  | vmObjectRelease o hheld st hst =>
      have h' := h.perm (List.perm_cons_erase hheld)
      obtain ⟨hsound, hkept⟩ := release_spec h'.sound hst
      exact h.of_sound hkept.maps_eq hsound
  | vmObjectCopy o newobj st hst =>
      have hroom : Room t.st (anonsOf t.st.objs o ++ []) := by
        rw [List.append_nil]
        exact hok
      obtain ⟨hsound, hcopied, -⟩ := copy_spec h.sound hroom hst
      exact h.of_sound hcopied.maps_eq hsound
  | vmMapObject m o vaddr size offset newobj _ hsize _ halign r st hst =>
      exact mapObject_spec h hsize (Nat.dvd_of_mod_eq_zero halign) hok.1 hok.2 hst
  | vmAllocate m o vaddr size _ hsize r st hst => exact (allocate_spec h hsize hok hst).1
  | vmDeallocate m start size _ _ st hst =>
      have hmap : ∃ map, t.st.maps.get? m = some map := by
        unfold vmDeallocate at hst
        obtain ⟨map, hmap, -⟩ := Option.bind_eq_some_iff.mp hst
        exact ⟨map, hmap⟩
      obtain ⟨map, hmap⟩ := hmap
      exact (deallocate_spec h hmap hst).1
  | vmMapFork m newmap newobjs pool hpool st hst => exact (fork_spec h hpool hok hst).1

/-! ## Accesses -/

/-- An address of a user map or of the kernel heap that the processor can translate. -/
def canonical (v : ℕ) : Bool := v < 2 ^ 47 || (kheapBase ≤ v && v < 2 ^ 64)

/-- An access traps if the page tables do not allow it, and `vm_fault` handles the trap. -/
def touch (s : State) (m : MapId) (v : ℕ) (write : Bool) (a : AnonId) (p : Page) : Option State :=
  match sampleFlags s m v write with
  | none => some s
  | some flags => do
      let (r, s) ← vmFault s m v flags a p
      if r = 0 then some s else none

/-- The byte that a read through the page tables returns. -/
def load (s : State) (m : MapId) (v : ℕ) : Option UInt8 :=
  (s.pmap (mapFor m v) (pteIndex v)).map fun pte => s.bytes pte.page (v % pgSize)

/-- Assigning a byte of a page. -/
def setByte (s : State) (p : Page) (off : ℕ) (b : UInt8) : State :=
  { s with bytes := Function.update s.bytes p (Function.update (s.bytes p) off b) }

/-- A write through the page tables. -/
def store (s : State) (m : MapId) (v : ℕ) (b : UInt8) : Option State := do
  let pte ← s.pmap (mapFor m v) (pteIndex v)
  if pte.write then some (setByte s pte.page (v % pgSize) b) else none

/-- A call, an access with the byte it reads or writes and the anon and page a trap may take, or the
release of a map. -/
inductive Action
  | call (c : Call)
  | read (m : MapId) (v : ℕ) (b : UInt8) (a : AnonId) (p : Page)
  | write (m : MapId) (v : ℕ) (b : UInt8) (a : AnonId) (p : Page)
  | vmMapRelease (m : MapId)
  deriving DecidableEq, Repr

/-- One step.  A read is of the byte that it returns; the kernel's map is never released. -/
def step (t : Sys) : Action → Option Sys
  | .call c => call t c
  | .read m v b a p =>
      if canonical v then do
        let st ← touch t.st m v false a p
        let x ← load st m v
        if x = b then some ⟨st, t.held⟩ else none
      else none
  | .write m v b a p =>
      if canonical v then do
        let st ← touch t.st m v true a p
        let st ← store st m v b
        return ⟨st, t.held⟩
      else none
  | .vmMapRelease m =>
      if m ≠ kmap then do
        let st ← vmMapRelease t.st m
        return ⟨st, t.held⟩
      else none

/-- Accesses and calls in any order. -/
def machine : Machine Sys Action := ⟨step⟩

/-- **What a step does.** -/
inductive Step (t : Sys) : Action → Sys → Prop
  | call (c : Call) (t' : Sys) (h : call t c = some t') : Step t (.call c) t'
  | read (m : MapId) (v : ℕ) (b : UInt8) (a : AnonId) (p : Page) (st : State)
      (hv : canonical v = true) (htouch : touch t.st m v false a p = some st)
      (hload : load st m v = some b) : Step t (.read m v b a p) ⟨st, t.held⟩
  | write (m : MapId) (v : ℕ) (b : UInt8) (a : AnonId) (p : Page) (st st' : State)
      (hv : canonical v = true) (htouch : touch t.st m v true a p = some st)
      (hstore : store st m v b = some st') : Step t (.write m v b a p) ⟨st', t.held⟩
  | vmMapRelease (m : MapId) (st : State) (hm : m ≠ kmap) (h : vmMapRelease t.st m = some st) :
      Step t (.vmMapRelease m) ⟨st, t.held⟩

theorem step_cases {x : Action} (hs : step t x = some t') : Step t x t' := by
  cases x with
  | call c => exact .call c t' hs
  | read m v b a p =>
      rw [step] at hs
      split at hs
      · rename_i hv
        obtain ⟨st, htouch, hs⟩ := Option.bind_eq_some_iff.mp hs
        obtain ⟨x, hload, hs⟩ := Option.bind_eq_some_iff.mp hs
        split at hs
        · rename_i hx
          cases hs
          exact .read m v b a p st hv htouch (hx ▸ hload)
        · cases hs
      · cases hs
  | write m v b a p =>
      rw [step] at hs
      split at hs
      · obtain ⟨st, htouch, hs⟩ := Option.bind_eq_some_iff.mp hs
        obtain ⟨st', hstore, hs⟩ := Option.bind_eq_some_iff.mp hs
        cases hs
        exact .write m v b a p st st' ‹_› htouch hstore
      · cases hs
  | vmMapRelease m =>
      rw [step] at hs
      split at hs
      · obtain ⟨st, hst, hs⟩ := Option.bind_eq_some_iff.mp hs
        cases hs
        exact .vmMapRelease m st ‹_› hst
      · cases hs

/-- An access that traps is handled by a fault, and one that does not changes nothing. -/
theorem touch_cases {write : Bool} (h : touch s m v write a p = some s') :
    (sampleFlags s m v write = none ∧ s' = s) ∨
      ∃ flags, sampleFlags s m v write = some flags ∧ vmFault s m v flags a p = some (0, s') := by
  unfold touch at h
  split at h
  · rename_i hnone
    exact .inl ⟨hnone, (Option.some.inj h).symm⟩
  · rename_i flags hflags
    obtain ⟨⟨r, s₁⟩, hfault, h⟩ := Option.bind_eq_some_iff.mp h
    dsimp only at h
    split at h
    · rename_i hr
      cases h
      exact .inr ⟨flags, hflags, hr ▸ hfault⟩
    · cases h

/-- An access that does not trap finds a page table entry it can go through. -/
theorem pte_of_sampleFlags {write : Bool} (h : sampleFlags s m v write = none) :
    ∃ pte, s.pmap (mapFor m v) (pteIndex v) = some pte ∧ (write = true → pte.write = true) := by
  unfold sampleFlags at h
  split at h
  · cases h
  · rename_i pte hpte
    refine ⟨pte, hpte, fun hw => ?_⟩
    by_contra hne
    rw [if_pos ⟨hw, hne⟩] at h
    cases h

/-- **An access** keeps the invariant, changes no contents, and goes through afterwards. -/
theorem touch_spec {write : Bool} (h : Inv held s)
    (halone : write = true → CowAlone s (mapFor m v) v)
    (hs : touch s m v write a p = some s') :
    Inv held s' ∧ Faulted (mapFor m v) v write s s' := by
  rcases touch_cases hs with ⟨hnone, rfl⟩ | ⟨flags, hflags, hfault⟩
  · exact ⟨h, rfl, fun _ _ _ => rfl, pte_of_sampleFlags hnone⟩
  · exact fault_spec h hflags halone hfault

/-- A write through the page tables changes the bytes of a page, and nothing else. -/
theorem store_eq {b : UInt8} (h : store s m v b = some s') :
    ∃ pte, s.pmap (mapFor m v) (pteIndex v) = some pte ∧ pte.write = true ∧
      s' = setByte s pte.page (v % pgSize) b := by
  unfold store at h
  obtain ⟨pte, hpte, h⟩ := Option.bind_eq_some_iff.mp h
  split at h
  · exact ⟨pte, hpte, ‹_›, (Option.some.inj h).symm⟩
  · cases h

/-- The invariant does not depend on the contents of pages. -/
theorem Inv.setByte (h : Inv held s) (off : ℕ) (b : UInt8) : Inv held (setByte s p off b) :=
  ⟨⟨h.sound.refs.congr rfl rfl, h.sound.ptes, h.sound.holds, h.sound.pvInv.congr rfl rfl
    fun _ hm => hm⟩, h.mapsOk, h.kernel⟩

/-- The condition on a step: what a caller promises, and that no write is to a shared page of an
object while another mapping of that page is present. -/
def StepOk (t : Sys) : Action → Prop
  | .call c => CallOk t c
  | .write m v _ _ _ => CowAlone t.st (mapFor m v) v
  | _ => True

instance (t : Sys) : (x : Action) → Decidable (StepOk t x)
  | .call c => inferInstanceAs (Decidable (CallOk t c))
  | .write m v _ _ _ => inferInstanceAs (Decidable (CowAlone t.st (mapFor m v) v))
  | .read .. => inferInstanceAs (Decidable True)
  | .vmMapRelease .. => inferInstanceAs (Decidable True)

/-- **Every step keeps the invariant.** -/
theorem inv_step {x : Action} (h : Inv t.held t.st) (hok : StepOk t x) (hs : step t x = some t') :
    Inv t'.held t'.st := by
  cases step_cases hs with
  | call c _ hcall => exact inv_call h hok hcall
  | read m v b a p st hv htouch hload =>
      exact (touch_spec h (fun hw => absurd hw Bool.false_ne_true) htouch).1
  | write m v b a p st st' hv htouch hstore =>
      obtain ⟨pte, -, -, rfl⟩ := store_eq hstore
      exact (touch_spec h (fun _ => hok) htouch).1.setByte _ b
  | vmMapRelease m st hm hst => exact (mapRelease_spec h hm hst).1

/-- The invariant holds after boot. -/
theorem Boot.inv (h : Boot t) : Inv t.held t.st := by
  obtain ⟨seg, pool, vmem, hpool, hinit, hkmap⟩ := h.kmap_eq
  obtain ⟨hinv, hq⟩ := @Vmem.quantized_init _ _ _ _ pgSize _ _ _ hpool (by decide) (by decide)
    (by decide) (by decide) hinit
  have hnoanon : ∀ a x, t.st.anons.get? a ≠ some x := by
    intro a x hx
    rw [h.anons_eq] at hx
    cases hx
  have hnoobj : ∀ o x, t.st.objs.get? o ≠ some x := by
    intro o x hx
    rw [h.objs_eq] at hx
    cases hx
  -- at boot there is the map of the kernel only, without an entry
  have hmaps : ∀ m map, t.st.maps.get? m = some map → m = kmap ∧ map = ⟨[], vmem⟩ := by
    intro m map hmap
    obtain rfl := h.maps_eq m (by rw [hmap]; simp)
    exact ⟨rfl, Option.some.inj (hmap.symm.trans hkmap)⟩
  refine ⟨⟨⟨?_, ?_, by simp, ?_, ?_, h.freeq_nodup, ?_⟩, ?_, ⟨?_, ?_, ?_, ?_⟩, h.pvInv⟩, ?_, ?_⟩
  · exact fun a x hx => absurd hx (hnoanon a x)
  · exact fun o x _ hx => absurd hx (hnoobj o x)
  · exact fun a _ x _ hx => absurd hx (hnoanon a x)
  · exact fun a x hx => absurd hx (hnoanon a x)
  · exact fun a x hx => absurd hx (hnoanon a x)
  · intro p x hx
    rw [h.pv_eq] at hx
    cases hx
  · exact fun o x hx => absurd hx (hnoobj o x)
  · rw [h.held_eq]
    simp
  · intro m map hmap e he
    obtain ⟨-, rfl⟩ := hmaps m map hmap
    cases he
  · exact fun o x hx => absurd hx (hnoobj o x)
  · intro m map hmap
    obtain ⟨rfl, rfl⟩ := hmaps m map hmap
    exact ⟨⟨[], hinv, by simp⟩, hq, by simp, .nil⟩
  · rw [hkmap]
    simp

/-! ## Coherence -/

/-- Every page table entry for a page of an entry shows the page of the anon in the slot of the
entry's object, and is writable only if the anon has one reference; two mappings of one page of an
object show the same bytes; and no page table entry shows a free page. -/
structure Coherent (s : State) : Prop where
  shows : ∀ m map e v pte, s.maps.get? m = some map → e ∈ map.entries → e.Has v →
    s.pmap m (pteIndex v) = some pte → ∃ a anon, slotIn s.objs e.obj (e.page v) = some a ∧
      s.anons.get? a = some anon ∧ anon.physpage = pte.page ∧ (pte.write = true → anon.refcnt = 1)
  same_bytes : ∀ m₁ v₁ pte₁ m₂ v₂ pte₂ x, objPage s m₁ v₁ = some x → objPage s m₂ v₂ = some x →
    s.pmap m₁ (pteIndex v₁) = some pte₁ → s.pmap m₂ (pteIndex v₂) = some pte₂ →
    s.bytes pte₁.page = s.bytes pte₂.page
  not_free : ∀ m q pte, s.pmap m q = some pte → pte.page ∉ s.freeq

/-- The invariant says that page tables are coherent. -/
theorem Inv.coherent (h : Inv held s) : Coherent s where
  shows m map e v pte hmap he hhas hpte := by
    have hop : objPage s m v = some (e.obj, e.page v) := by
      rw [objPage, objPageIn_eq, hmap]
      exact (h.mapsOk m map hmap).objPageOf_eq.mpr ⟨e, he, hhas, rfl, rfl⟩
    exact h.pte_shows hpte hop
  same_bytes m₁ v₁ pte₁ m₂ v₂ pte₂ x h₁ h₂ hpte₁ hpte₂ := by
    obtain ⟨a₁, anon₁, hslot₁, hanon₁, hpage₁, -⟩ := h.pte_shows hpte₁ h₁
    obtain ⟨a₂, anon₂, hslot₂, hanon₂, hpage₂, -⟩ := h.pte_shows hpte₂ h₂
    obtain rfl := Option.some.inj (hslot₁.symm.trans hslot₂)
    obtain rfl := Option.some.inj (hanon₁.symm.trans hanon₂)
    rw [← hpage₁, ← hpage₂]
  not_free m q pte hpte := h.page_used hpte

/-- The invariant holds in every run from boot whose steps all meet the condition. -/
theorem inv_reach {t₀ t : Sys} (h₀ : Boot t₀) (h : machine.Reach StepOk t₀ t) : Inv t.held t.st :=
  h.invariant (I := fun t => Inv t.held t.st) h₀.inv fun _ _ _ hi hok hs => inv_step hi hok hs

/-- **Mappings are coherent.** In every run from boot whose steps all meet the condition. -/
theorem mapping_coherent {t₀ t : Sys} (h₀ : Boot t₀) (h : machine.Reach StepOk t₀ t) :
    Coherent t.st :=
  (inv_reach h₀ h).coherent

/-- A map with a page of an object at `0x2000` and the same page at `0x4000`, both mapped in. -/
def mappedTwice : List Action :=
  [.call (.vmMapNew 1 [0, 1]), .call (.vmAobjNew 0 0x1000), .call (.segRefill 1 [2, 3]),
    .call (.vmMapObject 1 0 0x2000 0x1000 0 none), .call (.segRefill 1 [4, 5]),
    .call (.vmMapObject 1 0 0x4000 0x1000 0 none), .write 1 0x2000 7 0 0, .read 1 0x4000 7 0 0]

/-- The object is copied, the first mapping removed, and the page written through the second. -/
theorem mapping_coherent_unmapped :
    ∃ t, machine.exec bootSys (mappedTwice ++ [.call (.vmObjectCopy 0 1),
        .call (.vmDeallocate 1 0x2000 0x1000), .write 1 0x4000 8 1 1]) = some t ∧
      t.st.pmap 1 (pteIndex 0x4000) = some ⟨1, true⟩ ∧ Coherent t.st := by
  have hrun : (machine.exec bootSys (mappedTwice ++ [.call (.vmObjectCopy 0 1),
      .call (.vmDeallocate 1 0x2000 0x1000), .write 1 0x4000 8 1 1])).map
        (fun t => t.st.pmap 1 (pteIndex 0x4000)) = some (some ⟨1, true⟩) := by decide
  obtain ⟨t, ht, hpte⟩ := Option.map_eq_some_iff.mp hrun
  refine ⟨t, ht, hpte, ?_⟩
  exact mapping_coherent boot_bootSys (Machine.reach_of_exec (c := fun t x => decide (StepOk t x))
    (fun _ _ hc => of_decide_eq_true hc) (by decide) ht)

/-- **A stale mapping.** The object is copied and then written through the first of its two mappings:
the second one still maps the old page, which the object no longer has. -/
theorem mapping_stale :
    ¬ ∀ t₀ t : Sys, Boot t₀ → machine.Reachable t₀ t → Coherent t.st := by
  intro h
  have hrun : (machine.exec bootSys (mappedTwice ++ [.call (.vmObjectCopy 0 1),
      .write 1 0x2000 8 1 1])).map (fun t =>
        ([0x2000, 0x4000].map fun v => (t.st.pmap 1 (pteIndex v), objPage t.st 1 v),
          t.st.bytes 1 0, t.st.bytes 0 0))
      = some ([(some ⟨1, true⟩, some (0, 0)), (some ⟨0, false⟩, some (0, 0))], 8, 7) := by decide
  obtain ⟨t, ht, hval⟩ := Option.map_eq_some_iff.mp hrun
  simp only [List.map_cons, List.map_nil, Prod.mk.injEq, List.cons.injEq, and_true] at hval
  obtain ⟨⟨⟨hpte₁, hop₁⟩, hpte₂, hop₂⟩, hb₁, hb₀⟩ := hval
  have hcoherent := h _ t boot_bootSys (Machine.reachable_of_exec ht)
  have hbytes := hcoherent.same_bytes 1 0x2000 _ 1 0x4000 _ _ hop₁ hop₂ hpte₁ hpte₂
  have heq : t.st.bytes 1 0 = t.st.bytes 0 0 := congrFun hbytes 0
  rw [hb₁, hb₀] at heq
  cases heq

end Scalux.Vm
