import Scalux.Vm.Refs

/-! # The counts of anons and objects

Objects that are made, copied, faulted on, retained and released in any order, whatever the page
tables hold: `Refs` does not mention these, so here a fault may be for any map, at any address and
with any flags.

An anon and its page live as long as a slot refers to the anon.  The account of the pages is an
equation between sets (`Owned.pages`): the pages that were free at the start are the free ones and
those of the anons, so a page is free again exactly when its anon is gone.

The counts are machine integers.  An anon's 24 bits hold as long as there are fewer than `2 ^ 23`
objects, because an object has an anon in one slot at most (`Counted.once`); an object's 32 bits hold
as long as fewer than `2 ^ 31` references to it are held.

* **`anon_counts_exact`**: with that many objects and references, the counts are exact.
* **`anon_counts_overflow`**: with more references, an object is freed while references are held. -/

namespace Scalux.Vm

variable {s s' : State} {m : MapId} {o : ObjId} {a : AnonId} {p : Page} {v : ℕ} {F : List Page}
  {objs : Heap Object} {extra : List AnonId}

/-! ## Anons and their pages -/

/-- Every anon is referred to and is the owner of its page, and the pages `F` are the free ones and
those that anons own. -/
structure Owned (F : List Page) (s : State) : Prop where
  pos : ∀ a x, s.anons.get? a = some x → 0 < x.refcnt
  owner : ∀ a x, s.anons.get? a = some x → s.pageAnon x.physpage = some a
  pages : ∀ p, p ∈ F ↔ p ∈ s.freeq ∨ ∃ a x, s.anons.get? a = some x ∧ x.physpage = p

/-- The owners depend on the anons and the free pages. -/
theorem Owned.congr (h : Owned F s) (hanons : s'.anons = s.anons) (hfreeq : s'.freeq = s.freeq)
    (howner : s'.pageAnon = s.pageAnon) : Owned F s' where
  pos := hanons ▸ h.pos
  owner := hanons ▸ howner ▸ h.owner
  pages := hanons ▸ hfreeq ▸ h.pages

/-- The count of an anon is assigned. -/
theorem Owned.setRefcnt {anon : Anon} {r : ℤ} (h : Owned F s) (hanon : s.anons.get? a = some anon)
    (hr : 0 < r) : Owned F (setAnon s a { anon with refcnt := r }) := by
  have hget := get?_setRefcnt hanon r
  constructor
  case pos =>
    intro b x hx
    rw [hget] at hx
    split at hx
    · cases hx
      exact hr
    · exact h.pos b x hx
  case owner =>
    intro b x hx
    rw [hget] at hx
    split at hx
    · rename_i hb
      cases hx
      rw [hb]
      exact h.owner a anon hanon
    · exact h.owner b x hx
  -- a page belongs to the same anon, whatever its count
  case pages =>
    intro p
    refine (h.pages p).trans (or_congr_right ⟨?_, ?_⟩)
    · rintro ⟨b, x, hx, hp⟩
      by_cases hb : b = a
      · refine ⟨b, _, (hget b).trans (if_pos hb), ?_⟩
        rw [hb, hanon] at hx
        cases hx
        exact hp
      · exact ⟨b, x, ((hget b).trans (if_neg hb)).trans hx, hp⟩
    · rintro ⟨b, x, hx, hp⟩
      rw [hget] at hx
      split at hx
      · cases hx
        exact ⟨a, anon, hanon, hp⟩
      · exact ⟨b, x, hx, hp⟩

/-- An anon goes with its page. -/
theorem Owned.free {anon : Anon} (h : Owned F s) (hanon : s.anons.get? a = some anon) :
    Owned F { s with freeq := anon.physpage :: s.freeq, anons := s.anons.free a } := by
  have hback : ∀ b x, (s.anons.free a).get? b = some x → s.anons.get? b = some x := by
    intro b x hx
    rw [Heap.get?_free] at hx
    split at hx
    · cases hx
    · exact hx
  constructor
  case pos => exact fun b x hx => h.pos b x (hback b x hx)
  case owner => exact fun b x hx => h.owner b x (hback b x hx)
  case pages =>
    intro p
    rw [h.pages p]
    constructor
    · rintro (hp | ⟨b, x, hx, rfl⟩)
      · exact .inl (List.mem_cons_of_mem _ hp)
      -- the page of the freed anon is on the free queue now, the others keep their owner
      · by_cases hb : b = a
        · rw [hb, hanon] at hx
          cases hx
          exact .inl List.mem_cons_self
        · exact .inr ⟨b, x, ((Heap.get?_free _ a b).trans (if_neg hb)).trans hx, rfl⟩
    · rintro (hp | ⟨b, x, hx, rfl⟩)
      · rcases List.mem_cons.mp hp with rfl | hp
        · exact .inr ⟨a, anon, hanon, rfl⟩
        · exact .inl hp
      · exact .inr ⟨b, x, hback b x hx, rfl⟩

/-- A new anon takes a free page. -/
theorem Owned.newAnon {anons : Heap Anon} (h : Owned F s) (hr : Refs objs extra s)
    (hfree : p ∈ s.freeq) (ha : s.anons.alloc a ⟨1, true, p⟩ = some anons)
    (bytes : Page → ℕ → UInt8) :
    Owned F { s with
      freeq := s.freeq.erase p
      bytes := bytes
      anons := anons
      pageAnon := Function.update s.pageAnon p (some a) } := by
  have hget := Heap.get?_alloc ha
  have hnew : anons.get? a = some ⟨1, true, p⟩ := (hget a).trans (if_pos rfl)
  -- the anons are the old ones and `a`
  have hback : ∀ b x, anons.get? b = some x → b = a ∧ x = ⟨1, true, p⟩ ∨ s.anons.get? b = some x := by
    intro b x hx
    rw [hget] at hx
    split at hx
    · rename_i hb
      cases hx
      exact .inl ⟨hb, rfl⟩
    · exact .inr hx
  have hforth : ∀ b x, s.anons.get? b = some x → anons.get? b = some x := by
    intro b x hx
    rw [hget, if_neg, hx]
    rintro rfl
    rw [Heap.get?_of_alloc ha] at hx
    cases hx
  constructor
  case pos =>
    intro b x hx
    rcases hback b x hx with ⟨-, rfl⟩ | hx
    · exact Int.one_pos
    · exact h.pos b x hx
  case owner =>
    intro b x hx
    rcases hback b x hx with ⟨rfl, rfl⟩ | hx
    · exact Function.update_self ..
    · have hne : x.physpage ≠ p := fun heq => hr.page_used b x hx (heq ▸ hfree)
      show Function.update s.pageAnon p (some a) x.physpage = some b
      rw [Function.update_of_ne hne]
      exact h.owner b x hx
  -- the page leaves the free queue and becomes the page of `a`
  case pages =>
    intro q
    show _ ↔ q ∈ s.freeq.erase p ∨ ∃ b x, anons.get? b = some x ∧ x.physpage = q
    rw [h.pages q, hr.free_nodup.mem_erase_iff]
    constructor
    · rintro (hq | ⟨b, x, hx, rfl⟩)
      · by_cases hqp : q = p
        · exact .inr ⟨a, _, hnew, hqp.symm⟩
        · exact .inl ⟨hqp, hq⟩
      · exact .inr ⟨b, x, hforth b x hx, rfl⟩
    · rintro (⟨-, hq⟩ | ⟨b, x, hx, rfl⟩)
      · exact .inl hq
      · rcases hback b x hx with ⟨-, rfl⟩ | hx
        · exact .inl hfree
        · exact .inr ⟨b, x, hx, rfl⟩

/-! ## Releasing and sharing the anons of an object -/

/-- `anon_release` of a reference that is in flight finds its anon, and frees it with the last
reference. -/
theorem owned_anonRelease (h : Owned F s) (hr : Refs objs (a :: extra) s) :
    ∃ s', anonRelease s a = some s' ∧ Owned F s' ∧ s'.objs = s.objs := by
  obtain ⟨anon, hanon⟩ := hr.extra_valid a List.mem_cons_self
  unfold anonRelease
  rw [hanon]
  dsimp only [Option.bind_eq_bind, Option.bind_some]
  split
  · rename_i hpos
    exact ⟨_, rfl, h.setRefcnt hanon hpos, rfl⟩
  · rw [if_pos (hr.resident a anon hanon)]
    exact ⟨_, rfl, h.free hanon, rfl⟩

/-- `amap_release` of references in flight. -/
theorem owned_release {l : List AnonId} (h : Owned F s) (hr : Refs objs (l ++ extra) s) :
    ∃ s', l.foldlM anonRelease s = some s' ∧ Refs objs extra s' ∧ Owned F s' ∧ s'.objs = s.objs := by
  induction l generalizing s with
  | nil => exact ⟨s, rfl, hr, h, rfl⟩
  | cons a l ih =>
      obtain ⟨s₁, hs₁, h₁, hobjs₁⟩ := owned_anonRelease h hr
      obtain ⟨s', hs', hr', h', hobjs'⟩ := ih h₁ (hr.anonRelease hs₁)
      refine ⟨s', ?_, hr', h', hobjs'.trans hobjs₁⟩
      rw [List.foldlM_cons, hs₁]
      exact hs'

/-- `amap_copy` of one anon. -/
theorem owned_anonShare (h : Owned F s) (hs : anonShare s a = some s') {l : List AnonId}
    (hroom : Room s (a :: l)) : Owned F s' ∧ s'.objs = s.objs := by
  obtain ⟨anon, hanon, rfl⟩ := anonShare_eq hs
  have hpos := h.pos a anon hanon
  have hlt := hroom a List.mem_cons_self anon hanon
  rw [List.count_cons_self] at hlt
  rw [incr_of_lt (by omega)]
  have h₁ := h.setRefcnt hanon (r := anon.refcnt + 1) (by omega)
  obtain ⟨f, hf, -⟩ := foldl_reenter_eq
    (s := setAnon s a { anon with refcnt := anon.refcnt + 1 }) (p := anon.physpage)
    ((setAnon s a { anon with refcnt := anon.refcnt + 1 }).pv anon.physpage)
  rw [pmapReenterAllReadonly, hf]
  exact ⟨h₁.congr rfl rfl rfl, rfl⟩

/-- `amap_copy` puts the references in a list in flight. -/
theorem owned_share {l : List AnonId} (h : Owned F s) (hr : Refs objs extra s) (hroom : Room s l)
    (hs : l.foldlM anonShare s = some s') :
    Refs objs (l ++ extra) s' ∧ Owned F s' ∧ s'.objs = s.objs := by
  induction l generalizing s extra with
  | nil =>
      obtain rfl : s = s' := Option.some.inj hs
      exact ⟨hr, h, rfl⟩
  | cons a l ih =>
      rw [List.foldlM_cons] at hs
      obtain ⟨s₁, hs₁, hs⟩ := Option.bind_eq_some_iff.mp hs
      obtain ⟨h₁, hobjs₁⟩ := owned_anonShare h hs₁ hroom
      obtain ⟨hr₁, hroom₁⟩ := hr.anonShare hroom hs₁
      obtain ⟨hr', h', hobjs'⟩ := ih h₁ hr₁ hroom₁ hs
      exact ⟨hr'.perm List.perm_middle, h', hobjs'.trans hobjs₁⟩

/-! ## Objects -/

/-- The invariant: the counts of anons and objects are what refers to them, and an object has an anon
in at most one slot. -/
structure Counted (F : List Page) (t : Sys) : Prop where
  refs : Refs t.st.objs [] t.st
  owned : Owned F t.st
  once : ∀ o obj, t.st.objs.get? o = some obj → ∀ a, countIn a obj ≤ 1
  kind : ∀ o obj, t.st.objs.get? o = some obj → obj.type = .kVMObjAnon ∧ obj.parent = none
  refcnt_eq : ∀ o obj, t.st.objs.get? o = some obj → obj.refcnt = t.held.count o
  held_iff : ∀ o, o ∈ t.held ↔ ∃ obj, t.st.objs.get? o = some obj

variable {t t' : Sys} {held : List ObjId} {obj obj' : Object} {page : ℕ} {flags : FaultFlags}

/-- One object is new or has changed, and the references to the others are as before. -/
theorem Counted.put (h : Counted F t)
    (hget : ∀ o', s.objs.get? o' = if o' = o then some obj' else t.st.objs.get? o')
    (hr : Refs s.objs [] s) (howned : Owned F s) (honce : ∀ a, countIn a obj' ≤ 1)
    (hkind : obj'.type = .kVMObjAnon ∧ obj'.parent = none) (hrefcnt : obj'.refcnt = held.count o)
    (hheld : ∀ o', o' ≠ o → held.count o' = t.held.count o') (hmem : o ∈ held) :
    Counted F ⟨s, held⟩ := by
  constructor
  case refs => exact hr
  case owned => exact howned
  case once =>
    intro o' x hx
    rw [hget] at hx
    split at hx
    · cases hx
      exact honce
    · exact h.once o' x hx
  case kind =>
    intro o' x hx
    rw [hget] at hx
    split at hx
    · cases hx
      exact hkind
    · exact h.kind o' x hx
  case refcnt_eq =>
    intro o' x hx
    rw [hget] at hx
    split at hx
    · rename_i ho
      cases hx
      rw [ho]
      exact hrefcnt
    · rename_i ho
      dsimp only
      rw [hheld o' ho]
      exact h.refcnt_eq o' x hx
  -- `o` is held and exists, of the other objects nothing changes
  case held_iff =>
    intro o'
    dsimp only
    rw [hget]
    split
    · rename_i ho
      rw [ho]
      exact iff_of_true hmem ⟨obj', rfl⟩
    · rename_i ho
      rw [← h.held_iff o', ← List.count_pos_iff, hheld o' ho, List.count_pos_iff]

/-- An object changes and keeps its count. -/
theorem Counted.setObj (h : Counted F t) (hobj : t.st.objs.get? o = some obj)
    (hobjs : s.objs = t.st.objs.set o obj') (hr : Refs s.objs [] s) (howned : Owned F s)
    (honce : ∀ a, countIn a obj' ≤ 1) (htype : obj'.type = obj.type)
    (hparent : obj'.parent = obj.parent)
    (hrefcnt : obj'.refcnt = held.count o) (hheld : ∀ o', o' ≠ o → held.count o' = t.held.count o')
    (hmem : o ∈ held) : Counted F ⟨s, held⟩ := by
  have hget : ∀ o', s.objs.get? o' = if o' = o then some obj' else t.st.objs.get? o' := by
    intro o'
    rw [hobjs]
    exact Heap.get?_set hobj obj' o'
  have hkind := h.kind o obj hobj
  rw [← htype, ← hparent] at hkind
  exact h.put hget hr howned honce hkind hrefcnt hheld hmem

/-- A fault leaves the references to objects as they are. -/
theorem Counted.setSlots (h : Counted F t) (hobj : t.st.objs.get? o = some obj)
    {slots : List (Option AnonId)} (hobjs : s.objs = t.st.objs.set o { obj with slots := slots })
    (hr : Refs s.objs [] s) (howned : Owned F s) (honce : ∀ a, slots.count (some a) ≤ 1) :
    Counted F ⟨s, t.held⟩ :=
  h.setObj hobj hobjs hr howned honce rfl rfl (h.refcnt_eq o obj hobj) (fun _ _ => rfl)
    ((h.held_iff o).mpr ⟨obj, hobj⟩)

/-- The counts do not depend on page tables. -/
theorem Counted.congr (h : Counted F t) (hobjs : s.objs = t.st.objs) (hanons : s.anons = t.st.anons)
    (hfreeq : s.freeq = t.st.freeq) (howner : s.pageAnon = t.st.pageAnon) :
    Counted F ⟨s, t.held⟩ where
  refs := by
    dsimp only
    rw [hobjs]
    exact h.refs.congr hanons hfreeq
  owned := h.owned.congr hanons hfreeq howner
  once := hobjs.symm ▸ h.once
  kind := hobjs.symm ▸ h.kind
  refcnt_eq := hobjs.symm ▸ h.refcnt_eq
  held_iff := hobjs.symm ▸ h.held_iff

/-- An anon that no slot holds is put into one. -/
theorem count_set_le {slots : List (Option AnonId)} (honce : ∀ b, slots.count (some b) ≤ 1)
    (ha : some a ∉ slots) (hlen : page < slots.length) (b : AnonId) :
    (slots.set page (some a)).count (some b) ≤ 1 := by
  rw [List.count_set hlen]
  by_cases hb : a = b
  · subst hb
    rw [List.count_eq_zero.mpr ha, if_pos BEq.rfl]
    omega
  · rw [if_neg (c := (some a == some b) = true) (by simpa using hb)]
    have := honce b
    omega

/-! ## Faults -/

/-- What `fault_aobj` returns: the object with its slots grown, or one of the cases of a page that is
mapped. -/
theorem faultAobj_result {voff : ℕ} {r : ℤ} (h : faultAobj s m o v voff flags a p = some (r, s')) :
    ∃ obj slots, s.objs.get? o = some obj ∧ amapAnonAt obj.slots (voff / pgSize) = some slots ∧
      (s' = setObj s o { obj with slots := slots } ∨
        FaultCase (setObj s o { obj with slots := slots }) m o { obj with slots := slots } v
          (voff / pgSize) flags a p s') := by
  -- a fault that fails has only grown the amap
  by_cases hr : r = 0
  · obtain ⟨obj, slots, hobj, hslots, hcase⟩ := faultAobj_cases (hr ▸ h)
    exact ⟨obj, slots, hobj, hslots, .inr hcase⟩
  · unfold faultAobj at h
    obtain ⟨obj, hobj, h⟩ := Option.bind_eq_some_iff.mp h
    obtain ⟨slots, hslots, h⟩ := Option.bind_eq_some_iff.mp h
    refine ⟨obj, slots, hobj, hslots, .inl ?_⟩
    dsimp only at h
    split at h
    · obtain ⟨anon, -, h⟩ := Option.bind_eq_some_iff.mp h
      split at h
      · split at h
        · obtain ⟨s₁, -, h⟩ := Option.bind_eq_some_iff.mp h
          exact absurd (Prod.mk.inj (Option.some.inj h)).1.symm hr
        · obtain ⟨s₁, -, h⟩ := Option.bind_eq_some_iff.mp h
          exact absurd (Prod.mk.inj (Option.some.inj h)).1.symm hr
      · split at h
        · cases h
        · exact (Prod.mk.inj (Option.some.inj h)).2.symm
    · split at h
      · exact (Prod.mk.inj (Option.some.inj h)).2.symm
      · obtain ⟨s₁, -, h⟩ := Option.bind_eq_some_iff.mp h
        exact absurd (Prod.mk.inj (Option.some.inj h)).1.symm hr

/-- A new anon in an empty slot. -/
theorem counted_zero (h : Counted F t) (hobj : t.st.objs.get? o = some obj)
    (hlen : page < obj.slots.length) (hslot : (obj.slots[page]?).join = none)
    (hnew : anonNew t.st a p = some s) : Counted F ⟨setSlot s o obj page a, t.held⟩ := by
  obtain ⟨hfree, anons, ha, rfl⟩ := anonNew_eq hnew
  have hr := refs_newAnon (Function.update t.st.bytes p fun _ => 0) h.refs hfree ha
  have hr' := refs_fillSlot hr hobj (slot_of_join hlen hslot)
  refine h.setSlots hobj rfl (hr'.congr rfl rfl)
    ((h.owned.newAnon h.refs hfree ha t.st.bytes).congr rfl rfl rfl)
    (count_set_le (h.once o obj hobj) ?_ hlen)
  intro hmem
  obtain ⟨x, hx⟩ := h.refs.slot_valid o obj a hobj hmem
  rw [Heap.get?_of_alloc ha] at hx
  cases hx

/-- A copy of a shared anon in its slot. -/
theorem counted_copy {old : AnonId} {anon : Anon} (h : Counted F t)
    (hobj : t.st.objs.get? o = some obj) (hlen : page < obj.slots.length)
    (hslot : (obj.slots[page]?).join = some old) (hanon : t.st.anons.get? old = some anon)
    (hshared : 1 < anon.refcnt)
    (hcopy : anonCopy (setAnon t.st old { anon with refcnt := decr 24 anon.refcnt }) anon a p
      = some s) : Counted F ⟨setSlot s o obj page a, t.held⟩ := by
  have hdecr : decr 24 anon.refcnt = anon.refcnt - 1 := decr_of_pos (by omega)
  rw [hdecr] at hcopy
  obtain ⟨hfree, anons, ha, rfl⟩ := anonCopy_eq hcopy
  have hfree : p ∈ t.st.freeq := hfree
  have hcount := h.refs.refcnt_eq old anon hanon
  have hr := refs_copySlot h.refs hobj (slot_of_join hlen hslot) hanon hfree ha t.st.bytes
  -- while the copy is made the slot's reference to the old anon is already dropped
  have hr₁ := refs_setRefcnt (r := anon.refcnt - 1) (l := [])
    (refs_emptySlot h.refs hobj (slot_of_join hlen hslot)) hanon ?_
    (fun b hb => (List.count_cons_of_ne (Ne.symm hb)).symm) (by simp)
  · have howned := (h.owned.setRefcnt hanon (r := anon.refcnt - 1) (by omega)).newAnon hr₁ hfree ha
      t.st.bytes
    refine h.setSlots hobj rfl (hr.congr rfl rfl) (howned.congr rfl rfl rfl)
      (count_set_le (h.once o obj hobj) ?_ hlen)
    intro hmem
    obtain ⟨x, hx⟩ := h.refs.slot_valid o obj a hobj hmem
    have hfresh := Heap.get?_of_alloc ha
    rw [get?_setRefcnt hanon] at hfresh
    split at hfresh
    · cases hfresh
    · rw [hfresh] at hx
      cases hx
  · have hempty := (refs_emptySlot h.refs hobj (slot_of_join hlen hslot)).refcnt_eq old anon hanon
    rw [List.count_cons_self, List.count_nil] at hempty
    rw [List.count_nil]
    omega

/-- **`fault_aobj`** keeps the counts. -/
theorem counted_fault {voff : ℕ} {r : ℤ} (h : Counted F t)
    (hs : faultAobj t.st m o v voff flags a p = some (r, s)) : Counted F ⟨s, t.held⟩ := by
  obtain ⟨obj, slots, hobj, hgrow, hcase⟩ := faultAobj_result hs
  have hsame := sameSlots_grow hgrow
  have hlen := amapAnonAt_lt hgrow
  have hgrown : Counted F ⟨setObj t.st o { obj with slots := slots }, t.held⟩ := by
    refine h.setSlots hobj rfl ((refs_setObj h.refs hobj hsame).congr rfl rfl)
      (h.owned.congr rfl rfl rfl) fun b => ?_
    have hcount : slots.count (some b) = countIn b obj := hsame.count_eq b
    rw [hcount]
    exact h.once o obj hobj b
  have hobj' : (setObj t.st o { obj with slots := slots }).objs.get? o
      = some { obj with slots := slots } := (Heap.get?_set hobj _ o).trans (if_pos rfl)
  rcases hcase with rfl | hcase
  · exact hgrown
  -- entering a page changes no count; the zero-fill and the copy put an anon into the slot
  cases hcase with
  | read old anon => exact hgrown.congr rfl rfl rfl rfl
  | enter old anon => exact hgrown.congr rfl rfl rfl rfl
  | reenter old anon => exact hgrown.congr rfl rfl rfl rfl
  | zero hslot s₁ hnew => exact (counted_zero hgrown hobj' hlen hslot hnew).congr rfl rfl rfl rfl
  | copy old anon hslot hanon hshared hwrite s₁ s₂ hcopy hunenter =>
      have hcopied := counted_copy hgrown hobj' hlen hslot hanon hshared hcopy
      split at hunenter
      · obtain ⟨f, g, rfl, -⟩ := pmapUnenter_frame hunenter
        exact hcopied.congr rfl rfl rfl rfl
      · subst hunenter
        exact hcopied.congr rfl rfl rfl rfl

/-! ## The calls -/

/-- `vm_aobj_new`, `vm_object_copy`: a new object has one reference. -/
theorem Counted.allocObj (h : Counted F t) (ha : t.st.objs.alloc o obj = some objs)
    (hobjs : s.objs = objs) (hr : Refs objs [] s) (howned : Owned F s)
    (honce : ∀ a, countIn a obj ≤ 1) (hkind : obj.type = .kVMObjAnon ∧ obj.parent = none)
    (hrefcnt : obj.refcnt = 1) : Counted F ⟨s, o :: t.held⟩ := by
  subst hobjs
  have hget := Heap.get?_alloc ha
  have hfresh : o ∉ t.held := by
    intro hmem
    obtain ⟨x, hx⟩ := (h.held_iff o).mp hmem
    rw [Heap.get?_of_alloc ha] at hx
    cases hx
  have hone : obj.refcnt = (o :: t.held).count o := by
    rw [List.count_cons_self, List.count_eq_zero.mpr hfresh, hrefcnt]
    rfl
  exact h.put hget hr howned honce hkind hone (fun o' ho => List.count_cons_of_ne (Ne.symm ho))
    List.mem_cons_self

/-- An anon has at most as many references as there are objects. -/
theorem Counted.weigh_le (h : Counted F t) (a : AnonId) :
    t.st.objs.weigh (countIn a) ≤ t.st.objs.size :=
  Heap.weigh_le_size fun o obj hobj => h.once o obj hobj a

/-- **`vm_object_copy`**, if fewer than `2 ^ 23` objects are live with the copy. -/
theorem counted_copyObj {newobj : ObjId} (h : Counted F t) (hroom : t.st.objs.size + 1 < 2 ^ 23)
    (hs : vmObjectCopy t.st o newobj = some s) : Counted F ⟨s, newobj :: t.held⟩ := by
  obtain ⟨obj, s₁, objs, hobj, hshare, ha, rfl⟩ := vmObjectCopy_eq hs
  have hRoom : Room t.st obj.slots.reduceOption := by
    intro a ha anon hanon
    have hle := h.weigh_le a
    have hcount := h.refs.refcnt_eq a anon hanon
    have honce := h.once o obj hobj a
    rw [List.count_nil] at hcount
    rw [count_reduceOption]
    unfold countIn at honce
    omega
  obtain ⟨hr₁, howned₁, hobjs₁⟩ := owned_share h.owned h.refs hRoom hshare
  rw [hobjs₁] at ha
  have hr₁ : Refs t.st.objs (({ obj with refcnt := 1 } : Object).slots.reduceOption ++ []) s₁ := hr₁
  exact h.allocObj ha rfl ((refs_allocObj hr₁ ha).congr rfl rfl) (howned₁.congr rfl rfl rfl)
    (h.once o obj hobj) (h.kind o obj hobj) rfl

/-- `vm_object_release` of a reference that is held is not a fault of any kind, and keeps the
counts. -/
theorem counted_release (h : Counted F t) (ho : o ∈ t.held) :
    ∃ s, vmObjectRelease t.st o = some s ∧ Counted F ⟨s, t.held.erase o⟩ := by
  obtain ⟨obj, hobj⟩ := (h.held_iff o).mp ho
  have hpos : 0 < t.held.count o := List.count_pos_iff.mpr ho
  have hrefcnt := h.refcnt_eq o obj hobj
  have hdecr : decr 32 obj.refcnt = obj.refcnt - 1 := decr_of_pos (by omega)
  have herase : ∀ o', o' ≠ o → (t.held.erase o).count o' = t.held.count o' :=
    fun o' ho' => List.count_erase_of_ne ho'
  have hself := List.count_erase_self (a := o) (l := t.held)
  unfold vmObjectRelease
  rw [hobj]
  dsimp only [Option.bind_eq_bind, Option.bind_some]
  rw [hdecr]
  split
  · rename_i hlive
    -- other references remain, only the count changes
    have hsame : SameSlots obj { obj with refcnt := obj.refcnt - 1 } := ⟨fun _ => rfl, fun _ => rfl⟩
    refine ⟨_, rfl, h.setObj hobj rfl ((refs_setObj h.refs hobj hsame).congr rfl rfl)
      (h.owned.congr rfl rfl rfl) (h.once o obj hobj) rfl rfl ?_ herase ?_⟩
    · show obj.refcnt - 1 = _
      omega
    · rw [← List.count_pos_iff]
      omega
  · -- the last reference: the slots go, and then the object
    rename_i hlast
    rw [if_pos (h.kind o obj hobj).1]
    obtain ⟨s₁, hs₁, hr₁, howned₁, hobjs₁⟩ := owned_release h.owned (refs_freeObj h.refs hobj)
    rw [amapRelease, hs₁]
    have hget : ∀ o', (s₁.objs.free o).get? o' = if o' = o then none else t.st.objs.get? o' := by
      intro o'
      rw [hobjs₁, Heap.get?_free]
    have hback : ∀ o' x, (s₁.objs.free o).get? o' = some x → o' ≠ o ∧ t.st.objs.get? o' = some x := by
      intro o' x hx
      rw [hget] at hx
      split at hx
      · cases hx
      · exact ⟨‹_›, hx⟩
    refine ⟨_, rfl, ?_, howned₁.congr rfl rfl rfl, fun o' x hx => h.once o' x (hback o' x hx).2,
      fun o' x hx => h.kind o' x (hback o' x hx).2, fun o' x hx => ?_, fun o' => ?_⟩
    · show Refs (s₁.objs.free o) [] _
      rw [hobjs₁]
      exact hr₁.congr rfl rfl
    · obtain ⟨hne, hx⟩ := hback o' x hx
      show _ = ((t.held.erase o).count o' : ℤ)
      rw [herase o' hne]
      exact h.refcnt_eq o' x hx
    · show o' ∈ t.held.erase o ↔ ∃ x, (s₁.objs.free o).get? o' = some x
      rw [hget]
      split
      · rename_i heq
        refine iff_of_false (fun hmem => ?_) (by simp)
        rw [heq, ← List.count_pos_iff] at hmem
        omega
      · rename_i hne
        rw [← h.held_iff o', List.mem_erase_of_ne hne]

/-! ## Whole runs -/

/-- What happens to objects. -/
inductive ObjAction
  | vmAobjNew (o : ObjId) (size : ℕ)
  | vmObjectRetain (o : ObjId)
  | vmObjectRelease (o : ObjId)
  | vmObjectCopy (o newobj : ObjId)
  /-- `vm_fault` at an address that an entry with this object maps; a new anon, if there is one, is
  `a` with the page `p`. -/
  | fault (m : MapId) (o : ObjId) (v voff : ℕ) (flags : FaultFlags) (a : AnonId) (p : Page)

/-- One step. -/
def objStep (t : Sys) : ObjAction → Option Sys
  | .vmAobjNew o size => call t (.vmAobjNew o size)
  | .vmObjectRetain o => call t (.vmObjectRetain o)
  | .vmObjectRelease o => call t (.vmObjectRelease o)
  | .vmObjectCopy o newobj => call t (.vmObjectCopy o newobj)
  | .fault m o v voff flags a p => do
      let (_, st) ← faultAobj t.st m o v voff flags a p
      return ⟨st, t.held⟩

/-- The objects of a kernel. -/
def objMachine : Machine Sys ObjAction where
  step := objStep

/-- A `vm_fault` is a fault in the object of its entry, or changes nothing. -/
theorem vmFault_fault {r : ℤ} (h : vmFault s m v flags a p = some (r, s')) :
    s' = s ∨ ∃ m' o v' voff, faultAobj s m' o v' voff flags a p = some (r, s') := by
  unfold vmFault at h
  obtain ⟨map, -, h⟩ := Option.bind_eq_some_iff.mp h
  split at h
  · exact .inl (Prod.mk.inj (Option.some.inj h)).2.symm
  · obtain ⟨obj, -, h⟩ := Option.bind_eq_some_iff.mp h
    split at h
    · exact .inr ⟨_, _, _, _, h⟩
    · exact .inl (Prod.mk.inj (Option.some.inj h)).2.symm

/-- No object and no anon, and the free pages `F`. -/
structure NoObjects (F : List Page) (t : Sys) : Prop where
  objs_eq : ∀ o, t.st.objs.get? o = none
  anons_eq : ∀ a, t.st.anons.get? a = none
  freeq_eq : t.st.freeq = F
  nodup : F.Nodup
  held_eq : t.held = []

/-- Fewer than `2 ^ 23` objects are live, with the one that a step makes. -/
def FewObjects (t : Sys) : ObjAction → Prop
  | .vmAobjNew .. | .vmObjectCopy .. => t.st.objs.size + 1 < 2 ^ 23
  | _ => True

/-- Fewer than `2 ^ 31` references to an object are held, with the one that a step takes. -/
def FewRefs (t : Sys) : ObjAction → Prop
  | .vmObjectRetain o => t.held.count o + 1 < 2 ^ 31
  | _ => True

instance (t : Sys) : (x : ObjAction) → Decidable (FewObjects t x ∧ FewRefs t x)
  | .vmAobjNew .. => inferInstanceAs (Decidable (t.st.objs.size + 1 < 2 ^ 23 ∧ True))
  | .vmObjectCopy .. => inferInstanceAs (Decidable (t.st.objs.size + 1 < 2 ^ 23 ∧ True))
  | .vmObjectRetain o => inferInstanceAs (Decidable (True ∧ t.held.count o + 1 < 2 ^ 31))
  | .vmObjectRelease _ => inferInstanceAs (Decidable (True ∧ True))
  | .fault .. => inferInstanceAs (Decidable (True ∧ True))

/-- What the counts promise in one state; `F` are the pages that were free at the start. -/
structure ExactCounts (F : List Page) (t : Sys) : Prop where
  /-- The count of an anon is the number of slots that point to it. -/
  refcnt_eq : ∀ a x, t.st.anons.get? a = some x → x.refcnt = t.st.objs.weigh (countIn a)
  owner : ∀ a x, t.st.anons.get? a = some x → t.st.pageAnon x.physpage = some a
  page_inj : ∀ a b x y, t.st.anons.get? a = some x → t.st.anons.get? b = some y →
    x.physpage = y.physpage → a = b
  /-- An anon lives as long as a slot points to it. -/
  live_iff : ∀ a, (∃ x, t.st.anons.get? a = some x) ↔ ∃ o page, slotIn t.st.objs o page = some a
  /-- A page is free as long as no anon has it, and free once. -/
  free_iff : ∀ p, p ∈ t.st.freeq ↔ p ∈ F ∧ ∀ a x, t.st.anons.get? a = some x → x.physpage ≠ p
  free_once : t.st.freeq.Nodup
  /-- A reference that is held is one to a live object, and its release finds every anon alive. -/
  held_live : ∀ o ∈ t.held, ∃ obj, t.st.objs.get? o = some obj
  release_ok : ∀ o ∈ t.held, (vmObjectRelease t.st o).isSome = true

/-- The invariant at the start. -/
theorem counted_start (h : NoObjects F t) : Counted F t where
  refs :=
    -- without anons and objects there is nothing to count
    { refcnt_eq := fun a x hx => by rw [h.anons_eq] at hx; cases hx
      slot_valid := fun o obj a hobj => by rw [h.objs_eq] at hobj; cases hobj
      extra_valid := by simp
      page_inj := fun a b x y hx => by rw [h.anons_eq] at hx; cases hx
      page_used := fun a x hx => by rw [h.anons_eq] at hx; cases hx
      free_nodup := h.freeq_eq.symm ▸ h.nodup
      resident := fun a x hx => by rw [h.anons_eq] at hx; cases hx }
  owned :=
    { pos := fun a x hx => by rw [h.anons_eq] at hx; cases hx
      owner := fun a x hx => by rw [h.anons_eq] at hx; cases hx
      pages := fun p => by
        rw [h.freeq_eq]
        refine ⟨.inl, fun hp => hp.resolve_right ?_⟩
        rintro ⟨a, x, hx, -⟩
        rw [h.anons_eq] at hx
        cases hx }
  once o obj hobj := by rw [h.objs_eq] at hobj; cases hobj
  kind o obj hobj := by rw [h.objs_eq] at hobj; cases hobj
  refcnt_eq o obj hobj := by rw [h.objs_eq] at hobj; cases hobj
  held_iff o := by
    rw [h.held_eq]
    refine iff_of_false (by simp) ?_
    rintro ⟨obj, hobj⟩
    rw [h.objs_eq] at hobj
    cases hobj

/-- An anon is referred to by a slot. -/
theorem Counted.exists_slot (h : Counted F t) {x : Anon} (hx : t.st.anons.get? a = some x) :
    ∃ o page, slotIn t.st.objs o page = some a := by
  have hpos := h.owned.pos a x hx
  have hcount := h.refs.refcnt_eq a x hx
  rw [List.count_nil] at hcount
  by_contra hno
  have hzero : t.st.objs.weigh (countIn a) = 0 := by
    refine Heap.weigh_eq_zero fun o obj hobj => List.count_eq_zero.mpr fun hmem => hno ?_
    obtain ⟨page, hpage, hslot⟩ := List.mem_iff_getElem.mp hmem
    refine ⟨o, page, ?_⟩
    rw [slotIn, hobj]
    show (obj.slots[page]?).join = some a
    rw [List.getElem?_eq_getElem hpage, hslot]
    rfl
  omega

/-- The invariant implies what is to be shown. -/
theorem Counted.exactCounts (h : Counted F t) : ExactCounts F t where
  refcnt_eq a x hx := by
    rw [h.refs.refcnt_eq a x hx, List.count_nil]
    omega
  owner := h.owned.owner
  page_inj := h.refs.page_inj
  -- an anon is live while some slot refers to it, as nothing else does
  live_iff a := by
    constructor
    · rintro ⟨x, hx⟩
      exact h.exists_slot hx
    · rintro ⟨o, page, hslot⟩
      obtain ⟨obj, hobj, hmem⟩ := mem_slots_of_slotIn hslot
      exact h.refs.slot_valid o obj a hobj hmem
  free_iff p := by
    constructor
    · intro hp
      refine ⟨(h.owned.pages p).mpr (.inl hp), fun a x hx heq => ?_⟩
      exact h.refs.page_used a x hx (heq ▸ hp)
    · rintro ⟨hp, hno⟩
      exact ((h.owned.pages p).mp hp).resolve_right fun ⟨a, x, hx, heq⟩ => hno a x hx heq
  free_once := h.refs.free_nodup
  held_live o ho := (h.held_iff o).mp ho
  release_ok o ho := by
    obtain ⟨s, hs, -⟩ := counted_release h ho
    rw [hs]
    rfl

/-- Every step keeps the counts exact, while they have room. -/
theorem counted_step {x : ObjAction} (h : Counted F t) (hobjects : FewObjects t x)
    (hrefs : FewRefs t x) (hs : objStep t x = some t') : Counted F t' := by
  cases x with
  -- a new object has no slot, so it counts nothing
  | vmAobjNew o size =>
      rw [objStep, call] at hs
      obtain ⟨st, hst, hs⟩ := Option.bind_eq_some_iff.mp hs
      obtain ⟨objs, ha, rfl⟩ := vmAobjNew_eq hst
      cases hs
      have hr : Refs t.st.objs
          ((⟨1, .kVMObjAnon, size, none, []⟩ : Object).slots.reduceOption ++ []) t.st := h.refs
      exact h.allocObj ha rfl ((refs_allocObj hr ha).congr rfl rfl) (h.owned.congr rfl rfl rfl)
        (fun _ => Nat.zero_le _) ⟨rfl, rfl⟩ rfl
  | vmObjectRetain o =>
      rw [objStep, call] at hs
      obtain ⟨st, hst, hs⟩ := Option.bind_eq_some_iff.mp hs
      obtain ⟨obj, hobj, rfl⟩ := vmObjectRetain_eq hst
      cases hs
      have hrefcnt := h.refcnt_eq o obj hobj
      have hlt : t.held.count o + 1 < 2 ^ 31 := hrefs
      -- the count is an `int`, which the condition on the run keeps from overflowing
      have hincr : incr 32 obj.refcnt = obj.refcnt + 1 := by
        unfold incr
        rw [if_neg]
        have : (2 : ℤ) ^ (32 - 1) = 2 ^ 31 := by norm_num
        omega
      rw [hincr]
      have hsame : SameSlots obj { obj with refcnt := obj.refcnt + 1 } :=
        ⟨fun _ => rfl, fun _ => rfl⟩
      refine h.setObj hobj rfl ((refs_setObj h.refs hobj hsame).congr rfl rfl)
        (h.owned.congr rfl rfl rfl) (h.once o obj hobj) rfl rfl ?_
        (fun o' ho' => List.count_cons_of_ne (Ne.symm ho')) List.mem_cons_self
      rw [List.count_cons_self, hrefcnt]
      rfl
  | vmObjectRelease o =>
      rw [objStep, call] at hs
      split at hs
      · rename_i ho
        obtain ⟨st, hst, hs⟩ := Option.bind_eq_some_iff.mp hs
        cases hs
        obtain ⟨s, hs', hcounted⟩ := counted_release h ho
        obtain rfl := Option.some.inj (hst.symm.trans hs')
        exact hcounted
      · cases hs
  | vmObjectCopy o newobj =>
      rw [objStep, call] at hs
      obtain ⟨st, hst, hs⟩ := Option.bind_eq_some_iff.mp hs
      cases hs
      exact counted_copyObj h hobjects hst
  | fault m o v voff flags a p =>
      rw [objStep] at hs
      obtain ⟨⟨r, st⟩, hst, hs⟩ := Option.bind_eq_some_iff.mp hs
      cases hs
      exact counted_fault h hst

/-- **The counts of anons are exact.** In every run of `vm_aobj_new`, faults, `vm_object_copy`,
`vm_object_retain` and `vm_object_release` with fewer than `2 ^ 23` live objects and fewer than
`2 ^ 31` references to each. -/
theorem anon_counts_exact {t₀ : Sys} (h₀ : NoObjects F t₀)
    (h : objMachine.Reach (fun t x => FewObjects t x ∧ FewRefs t x) t₀ t) : ExactCounts F t :=
  (h.invariant (counted_start h₀) fun _ _ _ hi hc hs =>
    counted_step hi hc.1 hc.2 hs).exactCounts

/-- Eight free pages. -/
def noObjects : Sys := ⟨{ bootSys.st with maps := Heap.empty }, []⟩

/-- The example has no objects at the start. -/
theorem noObjects_start : NoObjects (List.range 8) noObjects where
  objs_eq _ := rfl
  anons_eq _ := rfl
  freeq_eq := rfl
  nodup := List.nodup_range
  held_eq := rfl

/-- A page of an object is shared by a copy, copied by a write to the copy, and both objects go. -/
def sharedRun : List ObjAction :=
  [.vmAobjNew 0 0x1000, .fault 1 0 0x2000 0 ⟨false, true⟩ 0 0, .vmObjectCopy 0 1,
    .fault 2 1 0x2000 0 ⟨false, true⟩ 1 1, .vmObjectRetain 1, .vmObjectRelease 0,
    .vmObjectRelease 1]

/-- The counts are exact after a page was shared by a copy and both objects are gone. -/
theorem anon_counts_exact_shared :
    ∃ t, objMachine.exec noObjects sharedRun = some t ∧ ExactCounts (List.range 8) t := by
  have hrun : (objMachine.exec noObjects sharedRun).isSome = true := by decide
  obtain ⟨t, ht⟩ := Option.isSome_iff_exists.mp hrun
  exact ⟨t, ht, anon_counts_exact noObjects_start (Machine.reach_of_exec
    (c := fun t x => decide (FewObjects t x ∧ FewRefs t x)) (fun _ _ hc => of_decide_eq_true hc)
    (by decide) ht)⟩

/-- `vm_object_retain` of an object in use. -/
theorem objStep_retain (hobj : t.st.objs.get? o = some obj) :
    ∃ t', objStep t (.vmObjectRetain o) = some t' ∧ t'.held = o :: t.held ∧
      t'.st.objs.get? o = some { obj with refcnt := incr 32 obj.refcnt } := by
  refine ⟨⟨setObj t.st o { obj with refcnt := incr 32 obj.refcnt }, o :: t.held⟩, ?_, rfl, ?_⟩
  · rw [objStep, call, vmObjectRetain, hobj]
    rfl
  · exact (Heap.get?_set hobj _ o).trans (if_pos rfl)

/-- `vm_object_release` of an object without pages whose count drops to zero or less. -/
theorem objStep_release (hobj : t.st.objs.get? o = some obj) (ho : o ∈ t.held)
    (htype : obj.type = .kVMObjAnon) (hslots : obj.slots = []) (hlast : decr 32 obj.refcnt ≤ 0) :
    ∃ t', objStep t (.vmObjectRelease o) = some t' ∧ t'.held = t.held.erase o ∧
      t'.st.objs.get? o = none := by
  refine ⟨⟨{ t.st with objs := t.st.objs.free o }, t.held.erase o⟩, ?_, rfl, ?_⟩
  · rw [objStep, call, if_pos ho, vmObjectRelease, hobj]
    dsimp only [Option.bind_eq_bind, Option.bind_some]
    rw [if_neg (not_lt.mpr hlast), if_pos htype, hslots]
    rfl
  · exact (Heap.get?_free _ o o).trans (if_pos rfl)

/-- `n` references more. -/
theorem reach_retain (hobj : t.st.objs.get? o = some obj) (n : ℕ) (hn : obj.refcnt + n < 2 ^ 31) :
    ∃ t', objMachine.Reach FewObjects t t' ∧ t'.held = List.replicate n o ++ t.held ∧
      t'.st.objs.get? o = some { obj with refcnt := obj.refcnt + n } := by
  induction n with
  | zero => exact ⟨t, .init, rfl, by rw [hobj, Int.natCast_zero, Int.add_zero]⟩
  | succ n ih =>
      obtain ⟨t₁, hreach, hheld, hobj₁⟩ := ih (by omega)
      obtain ⟨t₂, hstep, hheld₂, hobj₂⟩ := objStep_retain hobj₁
      refine ⟨t₂, hreach.step (a := .vmObjectRetain o) trivial hstep, ?_, ?_⟩
      · rw [hheld₂, hheld]
        rfl
      · have hincr : incr 32 (obj.refcnt + n) = obj.refcnt + (n + 1 : ℕ) := by
          unfold incr
          rw [if_neg]
          · omega
          · have : (2 : ℤ) ^ (32 - 1) = 2 ^ 31 := by norm_num
            omega
        rw [hobj₂, hincr]

/-- **An object that is freed too early.** With `2 ^ 31 + 1` references the count has wrapped, and the
first release frees the object, though `2 ^ 31` references are held. -/
theorem anon_counts_overflow :
    ¬ ∀ (F : List Page) (t₀ t : Sys), NoObjects F t₀ → objMachine.Reach FewObjects t₀ t →
      ExactCounts F t := by
  intro h
  obtain ⟨t₀, hnew, hheld₀, hobj₀⟩ : ∃ t, objStep noObjects (.vmAobjNew 0 0) = some t ∧
      t.held = [0] ∧ t.st.objs.get? 0 = some ⟨1, .kVMObjAnon, 0, none, []⟩ := ⟨_, rfl, rfl, rfl⟩
  have hfew : FewObjects noObjects (.vmAobjNew 0 0) := by
    show noObjects.st.objs.size + 1 < 2 ^ 23
    decide
  -- up to the largest count, past it, and one more
  obtain ⟨t₁, hreach₁, hheld₁, hobj₁⟩ := reach_retain hobj₀ (2 ^ 31 - 2) (by decide)
  obtain ⟨t₂, hstep₂, hheld₂, hobj₂⟩ := objStep_retain hobj₁
  obtain ⟨t₃, hstep₃, hheld₃, hobj₃⟩ := objStep_retain hobj₂
  have hwrapped : decr 32 (incr 32 (incr 32 ((1 : ℤ) + (2 ^ 31 - 2 : ℕ)))) ≤ 0 := by decide
  have hmem₃ : 0 ∈ t₃.held := by
    rw [hheld₃]
    exact List.mem_cons_self
  obtain ⟨t₄, hstep₄, hheld₄, hobj₄⟩ := objStep_release hobj₃ hmem₃ rfl rfl hwrapped
  have hreach : objMachine.Reach FewObjects noObjects t₄ := by
    have hr₁ := (Machine.Reach.step .init hfew hnew).trans hreach₁
    have hr₂ := Machine.Reach.step hr₁ (show FewObjects t₁ (.vmObjectRetain 0) from trivial) hstep₂
    have hr₃ := Machine.Reach.step hr₂ (show FewObjects t₂ (.vmObjectRetain 0) from trivial) hstep₃
    exact hr₃.step (show FewObjects t₃ (.vmObjectRelease 0) from trivial) hstep₄
  have hmem₄ : 0 ∈ t₄.held := by
    rw [hheld₄, hheld₃, List.erase_cons_head, hheld₂]
    exact List.mem_cons_self
  obtain ⟨obj, hobj⟩ := (h _ _ _ noObjects_start hreach).held_live 0 hmem₄
  rw [hobj₄] at hobj
  cases hobj

end Scalux.Vm
