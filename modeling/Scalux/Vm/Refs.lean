import Mathlib.Data.List.ReduceOption
import Scalux.Kern.VmemQuantum
import Scalux.Vm.PvTable

/-! # Reference counts, and what the page tables show

Three invariants of objects and anons, with what the functions on objects and `fault_aobj` do to
them.  They are stated over the heaps of maps and objects rather than over the whole state, because
several functions drop a reference first and unlink the object later.

* **`Refs`**: the reference count of an anon is the number of slots that hold it, and anons own
  distinct pages that are not free.  `extra` are references in flight, in no slot.
* **`Holds`**: the reference count of an object covers its entries and the references held outside.
* **`Ptes`**: a mapping that a `pv_table` records shows the page of the anon in the slot of its
  entry's object, and is writable only if no other slot holds the anon. -/

namespace Scalux.Vm

variable {s s' : State} {m : MapId} {o : ObjId} {a : AnonId} {p : Page} {v : ℕ}
  {maps : Heap Map} {objs : Heap Object} {held : List ObjId} {extra : List AnonId}

/-! ## References to anons -/

/-- The anons in a list of slots, counted. -/
theorem count_reduceOption (slots : List (Option AnonId)) (a : AnonId) :
    slots.reduceOption.count a = slots.count (some a) := by
  induction slots with
  | nil => rfl
  | cons x slots ih =>
      cases x with
      | none =>
          rw [List.reduceOption_cons_of_none, ih, List.count_cons]
          simp
      | some b =>
          rw [List.reduceOption_cons_of_some, List.count_cons, List.count_cons, ih]
          simp

/-- The slots of an object that hold an anon. -/
def countIn (a : AnonId) (obj : Object) : ℕ := obj.slots.count (some a)

/-- The reference counts of anons are exact, and anons own distinct pages in use. -/
structure Refs (objs : Heap Object) (extra : List AnonId) (s : State) : Prop where
  refcnt_eq : ∀ a anon, s.anons.get? a = some anon →
    anon.refcnt = objs.weigh (countIn a) + extra.count a
  slot_valid : ∀ o obj a, objs.get? o = some obj → some a ∈ obj.slots →
    ∃ anon, s.anons.get? a = some anon
  extra_valid : ∀ a ∈ extra, ∃ anon, s.anons.get? a = some anon
  page_inj : ∀ a b x y, s.anons.get? a = some x → s.anons.get? b = some y →
    x.physpage = y.physpage → a = b
  page_used : ∀ a anon, s.anons.get? a = some anon → anon.physpage ∉ s.freeq
  free_nodup : s.freeq.Nodup
  resident : ∀ a anon, s.anons.get? a = some anon → anon.resident = true

/-- What a mapping of the page `p` shows: the anon in a slot of the object of its entry.  It is
writable only if nothing else holds the anon. -/
def Shows (maps : Heap Map) (objs : Heap Object) (s : State) (p : Page) (x : MapId × ℕ) : Prop :=
  ∃ o page a anon, x.2 % pgSize = 0 ∧ objPageIn maps x.1 x.2 = some (o, page) ∧
    slotIn objs o page = some a ∧ s.anons.get? a = some anon ∧ anon.physpage = p ∧
    ∀ pte, s.pmap x.1 (pteIndex x.2) = some pte → pte.write = true → anon.refcnt = 1

/-- Every mapping on record shows what its entry's object has. -/
def Ptes (maps : Heap Map) (objs : Heap Object) (s : State) : Prop :=
  ∀ p, ∀ x ∈ s.pv p, Shows maps objs s p x

/-- What does not change the contents that objects and maps have: pages and maps stay, and anons keep
their pages. -/
structure Frame (s s' : State) : Prop where
  maps_eq : s'.maps = s.maps
  objs_eq : s'.objs = s.objs
  bytes_eq : s'.bytes = s.bytes
  pv_eq : s'.pv = s.pv
  anon_page : ∀ a x, s'.anons.get? a = some x → ∃ y, s.anons.get? a = some y ∧
    x.physpage = y.physpage

/-- Nothing has changed. -/
theorem Frame.refl (s : State) : Frame s s := ⟨rfl, rfl, rfl, rfl, fun _ x hx => ⟨x, hx, rfl⟩⟩

/-- Two changes that keep the frame. -/
theorem Frame.trans {t : State} (h : Frame s s') (h' : Frame s' t) : Frame s t where
  maps_eq := h'.maps_eq.trans h.maps_eq
  objs_eq := h'.objs_eq.trans h.objs_eq
  bytes_eq := h'.bytes_eq.trans h.bytes_eq
  pv_eq := h'.pv_eq.trans h.pv_eq
  anon_page a x hx := by
    obtain ⟨y, hy, hxy⟩ := h'.anon_page a x hx
    obtain ⟨z, hz, hyz⟩ := h.anon_page a y hy
    exact ⟨z, hz, hxy.trans hyz⟩

/-- An anon in a slot is held by its object. -/
theorem mem_slots_of_slotIn {page : ℕ} (h : slotIn objs o page = some a) :
    ∃ obj, objs.get? o = some obj ∧ some a ∈ obj.slots := by
  unfold slotIn at h
  obtain ⟨obj, hobj, hslot⟩ := Option.bind_eq_some_iff.mp h
  exact ⟨obj, hobj, List.mem_of_getElem? (Option.join_eq_some_iff.mp hslot)⟩

/-- An anon in a slot has a positive count. -/
theorem one_le_weigh {page : ℕ} (h : slotIn objs o page = some a) :
    1 ≤ objs.weigh (countIn a) := by
  obtain ⟨obj, hobj, hmem⟩ := mem_slots_of_slotIn h
  calc 1 ≤ countIn a obj := List.count_pos_iff.mpr hmem
    _ ≤ objs.weigh (countIn a) := Heap.le_weigh hobj

/-- The count is one less for `--` on a positive count. -/
theorem decr_of_pos {n : ℕ} {r : ℤ} (hr : 0 < r) : decr n r = r - 1 := by
  unfold decr
  rw [if_neg]
  have : (0 : ℤ) ≤ 2 ^ (n - 1) := by positivity
  omega

/-- The counts do not depend on the rest of the state. -/
theorem Refs.congr (h : Refs objs extra s) (hanons : s'.anons = s.anons) (hfreeq : s'.freeq = s.freeq) :
    Refs objs extra s' where
  refcnt_eq := hanons ▸ h.refcnt_eq
  slot_valid := hanons ▸ h.slot_valid
  extra_valid := hanons ▸ h.extra_valid
  page_inj := hanons ▸ h.page_inj
  page_used := hanons ▸ hfreeq ▸ h.page_used
  free_nodup := hfreeq ▸ h.free_nodup
  resident := hanons ▸ h.resident

/-- The order of the references in flight does not matter. -/
theorem Refs.perm {extra' : List AnonId} (h : Refs objs extra s) (hp : extra.Perm extra') :
    Refs objs extra' s where
  refcnt_eq a anon ha := by rw [h.refcnt_eq a anon ha, hp.count_eq]
  slot_valid := h.slot_valid
  extra_valid a ha := h.extra_valid a (hp.mem_iff.mpr ha)
  page_inj := h.page_inj
  page_used := h.page_used
  free_nodup := h.free_nodup
  resident := h.resident

/-- The anons after the count of one has been assigned. -/
theorem get?_setRefcnt {anon : Anon} (hanon : s.anons.get? a = some anon) (r : ℤ) (b : AnonId) :
    (setAnon s a { anon with refcnt := r }).anons.get? b
      = if b = a then some { anon with refcnt := r } else s.anons.get? b :=
  Heap.get?_set hanon _ b

/-- Assigning a count keeps the anons with their pages. -/
theorem frame_setRefcnt {anon : Anon} (hanon : s.anons.get? a = some anon) (r : ℤ) :
    Frame s (setAnon s a { anon with refcnt := r }) := by
  refine ⟨rfl, rfl, rfl, rfl, fun b x hx => ?_⟩
  rw [get?_setRefcnt hanon] at hx
  split at hx
  · rename_i hb
    cases hx
    exact ⟨anon, hb ▸ hanon, rfl⟩
  · exact ⟨x, hx, rfl⟩

/-- The count of an anon is assigned and the references in flight change with it. -/
theorem refs_setRefcnt {anon : Anon} {l : List AnonId} {r : ℤ} (hr : Refs objs extra s)
    (hanon : s.anons.get? a = some anon) (ha : r = objs.weigh (countIn a) + l.count a)
    (hcount : ∀ b, b ≠ a → l.count b = extra.count b)
    (hvalid : ∀ b ∈ l, b = a ∨ b ∈ extra) :
    Refs objs l (setAnon s a { anon with refcnt := r }) := by
  -- the same anons exist, and their pages are those of before
  have hforth : ∀ b y, s.anons.get? b = some y →
      ∃ x, (setAnon s a { anon with refcnt := r }).anons.get? b = some x := by
    intro b y hy
    rw [get?_setRefcnt hanon]
    split
    · exact ⟨_, rfl⟩
    · exact ⟨y, hy⟩
  have hback := (frame_setRefcnt hanon r).anon_page
  constructor
  case refcnt_eq =>
    intro b x hx
    rw [get?_setRefcnt hanon] at hx
    split at hx
    · rename_i hb
      cases hx
      rw [hb]
      exact ha
    · rename_i hb
      rw [hr.refcnt_eq b x hx, hcount b hb]
  case slot_valid =>
    intro o obj b hobj hb
    obtain ⟨y, hy⟩ := hr.slot_valid o obj b hobj hb
    exact hforth b y hy
  case extra_valid =>
    intro b hb
    rcases hvalid b hb with rfl | hb
    · exact hforth b anon hanon
    · obtain ⟨y, hy⟩ := hr.extra_valid b hb
      exact hforth b y hy
  case page_inj =>
    intro b c x y hx hy hxy
    obtain ⟨x', hx', hpx⟩ := hback b x hx
    obtain ⟨y', hy', hpy⟩ := hback c y hy
    exact hr.page_inj b c x' y' hx' hy' (hpx.symm.trans (hxy.trans hpy))
  case page_used =>
    intro b x hx
    obtain ⟨x', hx', hpx⟩ := hback b x hx
    rw [hpx]
    exact hr.page_used b x' hx'
  case free_nodup => exact hr.free_nodup
  case resident =>
    intro b x hx
    rw [get?_setRefcnt hanon] at hx
    split at hx
    · cases hx
      exact hr.resident a anon hanon
    · exact hr.resident b x hx

/-- The last reference to an anon goes, and with it the anon and its page. -/
theorem refs_free {anon : Anon} (hr : Refs objs (a :: extra) s) (hanon : s.anons.get? a = some anon)
    (hnone : objs.weigh (countIn a) = 0) (hextra : a ∉ extra) :
    Refs objs extra { s with freeq := anon.physpage :: s.freeq, anons := s.anons.free a } := by
  have hget : ∀ b, (s.anons.free a).get? b = if b = a then none else s.anons.get? b :=
    fun b => Heap.get?_free _ _ b
  have hback : ∀ b x, (s.anons.free a).get? b = some x → b ≠ a ∧ s.anons.get? b = some x := by
    intro b x hx
    rw [hget] at hx
    split at hx
    · cases hx
    · exact ⟨‹_›, hx⟩
  have hforth : ∀ b y, b ≠ a → s.anons.get? b = some y → (s.anons.free a).get? b = some y :=
    fun b y hb hy => ((hget b).trans (if_neg hb)).trans hy
  constructor
  case refcnt_eq =>
    intro b x hx
    obtain ⟨hb, hx⟩ := hback b x hx
    rw [hr.refcnt_eq b x hx, List.count_cons_of_ne (Ne.symm hb)]
  case slot_valid =>
    intro o obj b hobj hb
    obtain ⟨y, hy⟩ := hr.slot_valid o obj b hobj hb
    refine ⟨y, hforth b y ?_ hy⟩
    rintro rfl
    have hle := Heap.le_weigh (w := countIn b) hobj
    have hpos : 0 < countIn b obj := List.count_pos_iff.mpr hb
    omega
  case extra_valid =>
    intro b hb
    obtain ⟨y, hy⟩ := hr.extra_valid b (List.mem_cons_of_mem a hb)
    exact ⟨y, hforth b y (fun heq => hextra (heq ▸ hb)) hy⟩
  case page_inj =>
    intro b c x y hx hy hxy
    exact hr.page_inj b c x y (hback b x hx).2 (hback c y hy).2 hxy
  case page_used =>
    intro b x hx
    obtain ⟨hb, hx⟩ := hback b x hx
    show x.physpage ∉ anon.physpage :: s.freeq
    rw [List.mem_cons, not_or]
    exact ⟨fun heq => hb (hr.page_inj b a x anon hx hanon heq), hr.page_used b x hx⟩
  case free_nodup => exact List.nodup_cons.mpr ⟨hr.page_used a anon hanon, hr.free_nodup⟩
  case resident => exact fun b x hx => hr.resident b x (hback b x hx).2

/-- `anon_release` drops the reference in flight; without another the anon goes. -/
theorem Refs.anonRelease_cases (hr : Refs objs (a :: extra) s) (hs : anonRelease s a = some s') :
    ∃ anon, s.anons.get? a = some anon ∧
      anon.refcnt = objs.weigh (countIn a) + extra.count a + 1 ∧
      (1 < anon.refcnt ∧ s' = setAnon s a { anon with refcnt := anon.refcnt - 1 } ∨
        anon.refcnt = 1 ∧ s' = { s with freeq := anon.physpage :: s.freeq, anons := s.anons.free a }) := by
  obtain ⟨anon, hanon, hcases⟩ := Vm.anonRelease_cases hs
  have hcount := hr.refcnt_eq a anon hanon
  rw [List.count_cons_self] at hcount
  have hdecr : decr 24 anon.refcnt = anon.refcnt - 1 := decr_of_pos (by omega)
  rw [hdecr] at hcases
  refine ⟨anon, hanon, by omega, ?_⟩
  rcases hcases with ⟨hpos, rfl⟩ | ⟨hzero, rfl⟩
  · exact .inl ⟨by omega, rfl⟩
  · exact .inr ⟨by omega, rfl⟩

/-- `anon_release` takes back one reference in flight. -/
theorem Refs.anonRelease (hr : Refs objs (a :: extra) s) (hs : anonRelease s a = some s') :
    Refs objs extra s' := by
  obtain ⟨anon, hanon, hcount, ⟨hpos, rfl⟩ | ⟨hone, rfl⟩⟩ := hr.anonRelease_cases hs
  · refine refs_setRefcnt hr hanon (by omega) ?_ fun b hb => .inr (List.mem_cons_of_mem a hb)
    exact fun b hb => (List.count_cons_of_ne (Ne.symm hb)).symm
  · -- the last reference: no slot holds the anon
    refine refs_free hr hanon (by omega) ?_
    rw [← List.count_eq_zero]
    omega

/-- **`anon_release`** takes back one reference in flight, and what the mappings show stays. -/
theorem refs_anonRelease (hr : Refs objs (a :: extra) s) (hp : Ptes maps objs s)
    (hs : anonRelease s a = some s') :
    Refs objs extra s' ∧ Ptes maps objs s' ∧ Frame s s' := by
  refine ⟨hr.anonRelease hs, ?_⟩
  obtain ⟨anon, hanon, hcount, ⟨hpos, rfl⟩ | ⟨hone, rfl⟩⟩ := hr.anonRelease_cases hs
  · refine ⟨?_, frame_setRefcnt hanon _⟩
    intro p x hx
    obtain ⟨o, page, b, banon, halign, hobj, hslot, hb, hpage, hwrite⟩ := hp p x hx
    -- a writable entry means one reference, so it cannot be the anon that keeps one here
    by_cases hba : b = a
    · subst hba
      obtain rfl := Option.some.inj (hanon.symm.trans hb)
      refine ⟨o, page, b, _, halign, hobj, hslot,
        (get?_setRefcnt hanon _ b).trans (if_pos rfl), hpage, ?_⟩
      intro pte hpte hw
      have hone := hwrite pte hpte hw
      omega
    · exact ⟨o, page, b, banon, halign, hobj, hslot,
        ((get?_setRefcnt hanon _ b).trans (if_neg hba)).trans hb, hpage, hwrite⟩
  · refine ⟨?_, rfl, rfl, rfl, rfl, fun b x hx => ?_⟩
    · intro p x hx
      obtain ⟨o, page, b, banon, halign, hobj, hslot, hb, hpage, hwrite⟩ := hp p x hx
      -- no slot holds the anon that is freed, hence no page table entry shows it
      have hba : b ≠ a := by
        rintro rfl
        have := one_le_weigh hslot
        omega
      exact ⟨o, page, b, banon, halign, hobj, hslot,
        ((Heap.get?_free _ a b).trans (if_neg hba)).trans hb, hpage, hwrite⟩
    · have hx : (s.anons.free a).get? b = some x := hx
      rw [Heap.get?_free] at hx
      split at hx
      · cases hx
      · exact ⟨x, hx, rfl⟩

/-- There is room in the counts of the anons for the references in a list. -/
def Room (s : State) (l : List AnonId) : Prop :=
  ∀ a ∈ l, ∀ anon ∈ s.anons.get? a, anon.refcnt + l.count a < 2 ^ 23

instance (s : State) (l : List AnonId) : Decidable (Room s l) :=
  inferInstanceAs (Decidable (∀ a ∈ l, ∀ anon ∈ s.anons.get? a, anon.refcnt + l.count a < 2 ^ 23))

/-- `++` on a count with room. -/
theorem incr_of_lt {r : ℤ} (hr : r + 1 < 2 ^ 23) : incr 24 r = r + 1 := by
  unfold incr
  rw [if_neg]
  have : (2 : ℤ) ^ (24 - 1) = 2 ^ 23 := by norm_num
  omega

/-- `amap_copy` of one anon puts one reference in flight. -/
theorem Refs.anonShare (hr : Refs objs extra s) {l : List AnonId} (hroom : Room s (a :: l))
    (hs : anonShare s a = some s') : Refs objs (a :: extra) s' ∧ Room s' l := by
  obtain ⟨anon, hanon, rfl⟩ := anonShare_eq hs
  have hcount := hr.refcnt_eq a anon hanon
  have hlt := hroom a List.mem_cons_self anon hanon
  rw [List.count_cons_self] at hlt
  rw [incr_of_lt (by omega)]
  -- mapping the page read-only everywhere touches no count
  obtain ⟨f, hf, -⟩ := foldl_reenter_eq
    (s := setAnon s a { anon with refcnt := anon.refcnt + 1 }) (p := anon.physpage)
    ((setAnon s a { anon with refcnt := anon.refcnt + 1 }).pv anon.physpage)
  rw [pmapReenterAllReadonly, hf]
  have hr₁ : Refs objs (a :: extra) (setAnon s a { anon with refcnt := anon.refcnt + 1 }) := by
    refine refs_setRefcnt hr hanon ?_ ?_ fun b hb => List.mem_cons.mp hb
    · rw [List.count_cons_self]
      omega
    · exact fun b hb => List.count_cons_of_ne (Ne.symm hb)
  refine ⟨hr₁.congr rfl rfl, ?_⟩
  intro b hmem x hx
  have hx : (setAnon s a { anon with refcnt := anon.refcnt + 1 }).anons.get? b = some x := hx
  rw [get?_setRefcnt hanon] at hx
  split at hx
  · rename_i hb
    cases hx
    show anon.refcnt + 1 + l.count b < 2 ^ 23
    rw [hb]
    omega
  · rename_i hb
    have := hroom b (List.mem_cons_of_mem a hmem) x hx
    rwa [List.count_cons_of_ne (Ne.symm hb)] at this

/-- **`amap_copy` of one anon** puts one reference in flight, and makes the mappings of the anon's
page read-only. -/
theorem refs_anonShare (hr : Refs objs extra s) (hp : Ptes maps objs s) (hpv : PvExact s)
    {l : List AnonId} (hroom : Room s (a :: l)) (hs : anonShare s a = some s') :
    Refs objs (a :: extra) s' ∧ Ptes maps objs s' ∧ Frame s s' ∧ Room s' l := by
  obtain ⟨hr', hroom'⟩ := hr.anonShare hroom hs
  obtain ⟨anon, hanon, rfl⟩ := anonShare_eq hs
  have hcount := hr.refcnt_eq a anon hanon
  have hlt := hroom a List.mem_cons_self anon hanon
  rw [List.count_cons_self] at hlt
  rw [incr_of_lt (by omega)] at hr' hroom' ⊢
  have hpv₁ : PvExact (setAnon s a { anon with refcnt := anon.refcnt + 1 }) := hpv.congr rfl rfl
  obtain ⟨f, hf, hpmap⟩ := reenterAll_eq hpv₁ anon.physpage
  rw [hf] at hr' hroom' ⊢
  have hframe := frame_setRefcnt hanon (anon.refcnt + 1)
  refine ⟨hr', ?_, ⟨rfl, rfl, rfl, rfl, hframe.anon_page⟩, hroom'⟩
  intro p x hx
  have hat : pageAt s x.1 (pteIndex x.2) = some p := hpv.pageAt_of_mem hx
  obtain ⟨o, page, b, banon, halign, hobj, hslot, hb, hpage, hwrite⟩ := hp p x hx
  by_cases hba : b = a
  · subst hba
    obtain rfl := Option.some.inj (hanon.symm.trans hb)
    refine ⟨o, page, b, _, halign, hobj, hslot, (get?_setRefcnt hanon _ b).trans (if_pos rfl),
      hpage, ?_⟩
    -- the mapping is read-only now
    intro pte hpte hw
    have hpte : f x.1 (pteIndex x.2) = some pte := hpte
    rw [hpmap] at hpte
    have hat₁ : pageAt (setAnon s b { anon with refcnt := anon.refcnt + 1 }) x.1 (pteIndex x.2)
        = some anon.physpage := hpage ▸ hat
    rw [if_pos hat₁] at hpte
    cases hpte
    cases hw
  · refine ⟨o, page, b, banon, halign, hobj, hslot,
      ((get?_setRefcnt hanon _ b).trans (if_neg hba)).trans hb, hpage, ?_⟩
    intro pte hpte hw
    have hpte : f x.1 (pteIndex x.2) = some pte := hpte
    rw [hpmap] at hpte
    have hat₁ : pageAt (setAnon s a { anon with refcnt := anon.refcnt + 1 }) x.1 (pteIndex x.2)
        ≠ some anon.physpage := by
      intro heq
      have hpages : some p = some anon.physpage := hat.symm.trans heq
      exact hba (hr.page_inj b a banon anon hb hanon (hpage.trans (Option.some.inj hpages)))
    rw [if_neg hat₁] at hpte
    exact hwrite pte hpte hw

/-- `amap_release` takes back the references in a list. -/
theorem refs_release {l : List AnonId} (hr : Refs objs (l ++ extra) s) (hp : Ptes maps objs s)
    (hs : l.foldlM anonRelease s = some s') :
    Refs objs extra s' ∧ Ptes maps objs s' ∧ Frame s s' := by
  induction l generalizing s with
  | nil =>
      obtain rfl : s = s' := Option.some.inj hs
      exact ⟨hr, hp, Frame.refl s⟩
  | cons a l ih =>
      rw [List.foldlM_cons] at hs
      obtain ⟨s₁, hs₁, hs⟩ := Option.bind_eq_some_iff.mp hs
      obtain ⟨hr₁, hp₁, hframe₁⟩ := refs_anonRelease hr hp hs₁
      obtain ⟨hr', hp', hframe⟩ := ih hr₁ hp₁ hs
      exact ⟨hr', hp', hframe₁.trans hframe⟩

/-- `amap_copy` puts the references in a list in flight. -/
theorem refs_share {l : List AnonId} (hr : Refs objs extra s) (hp : Ptes maps objs s) (hpv : PvInv s)
    {l' : List AnonId} (hroom : Room s (l ++ l')) (hs : l.foldlM anonShare s = some s') :
    Refs objs (l ++ extra) s' ∧ Ptes maps objs s' ∧ Frame s s' ∧ Room s' l' := by
  induction l generalizing s extra with
  | nil =>
      obtain rfl : s = s' := Option.some.inj hs
      exact ⟨hr, hp, Frame.refl s, hroom⟩
  | cons a l ih =>
      rw [List.foldlM_cons] at hs
      obtain ⟨s₁, hs₁, hs⟩ := Option.bind_eq_some_iff.mp hs
      obtain ⟨hr₁, hp₁, hframe₁, hroom₁⟩ := refs_anonShare hr hp hpv.exact hroom hs₁
      obtain ⟨hr', hp', hframe, hroom'⟩ := ih hr₁ hp₁ (pvInv_anonShare hpv hs₁) hroom₁ hs
      exact ⟨hr'.perm List.perm_middle, hp', hframe₁.trans hframe, hroom'⟩

/-! ## References to objects -/

/-- The entries of a map that map an object. -/
def entriesOf (o : ObjId) (map : Map) : ℕ := map.entries.countP fun e => e.obj = o

/-- The count of an object covers its entries and the references held outside of maps.  It may be
higher: `vm_map_object` keeps the reference if it finds no addresses. -/
structure Holds (maps : Heap Map) (objs : Heap Object) (held : List ObjId) : Prop where
  refcnt_le : ∀ o obj, objs.get? o = some obj →
    (held.count o + maps.weigh (entriesOf o) : ℤ) ≤ obj.refcnt
  held_valid : ∀ o ∈ held, ∃ obj, objs.get? o = some obj
  entry_valid : ∀ m map, maps.get? m = some map → ∀ e ∈ map.entries,
    ∃ obj, objs.get? e.obj = some obj
  kind : ∀ o obj, objs.get? o = some obj → obj.type = .kVMObjAnon ∧ obj.parent = none

/-- Two objects hold the same anons. -/
structure SameSlots (obj obj' : Object) : Prop where
  count_eq : ∀ a, countIn a obj' = countIn a obj
  slot_eq : ∀ i : ℕ, (obj'.slots[i]?).join = (obj.slots[i]?).join

/-- Growing the slots of an object changes nothing. -/
theorem sameSlots_grow {obj : Object} {slots : List (Option AnonId)} {page : ℕ}
    (h : amapAnonAt obj.slots page = some slots) : SameSlots obj { obj with slots := slots } := by
  refine ⟨fun a => ?_, amapAnonAt_join h⟩
  unfold amapAnonAt at h
  dsimp only at h
  split at h
  · cases h
    show List.count (some a) (obj.slots ++ _) = _
    rw [List.count_append, List.count_replicate]
    rfl
  · cases h

section SetObj

variable {obj obj' : Object}

/-- An object with the same slots has the same anons in them. -/
theorem slotIn_setObj (hobj : objs.get? o = some obj) (h : SameSlots obj obj') (o' : ObjId)
    (page : ℕ) : slotIn (objs.set o obj') o' page = slotIn objs o' page := by
  unfold slotIn
  rw [Heap.get?_set hobj]
  by_cases ho : o' = o
  · rw [if_pos ho, ho, hobj]
    exact h.slot_eq page
  · rw [if_neg ho]

/-- An object with the same slots counts for the same references. -/
theorem weigh_setObj (hobj : objs.get? o = some obj) (h : SameSlots obj obj') (a : AnonId) :
    (objs.set o obj').weigh (countIn a) = objs.weigh (countIn a) := by
  have := Heap.weigh_set (w := countIn a) hobj obj'
  rw [h.count_eq] at this
  omega

/-- The references are exact for an object with the same slots. -/
theorem refs_setObj (hr : Refs objs extra s) (hobj : objs.get? o = some obj)
    (h : SameSlots obj obj') : Refs (objs.set o obj') extra s where
  refcnt_eq a anon ha := by rw [weigh_setObj hobj h, hr.refcnt_eq a anon ha]
  slot_valid o' x a hx ha := by
    rw [Heap.get?_set hobj] at hx
    split at hx
    · cases hx
      have hpos : 0 < countIn a obj := h.count_eq a ▸ List.count_pos_iff.mpr ha
      exact hr.slot_valid o obj a hobj (List.count_pos_iff.mp hpos)
    · exact hr.slot_valid o' x a hx ha
  extra_valid := hr.extra_valid
  page_inj := hr.page_inj
  page_used := hr.page_used
  free_nodup := hr.free_nodup
  resident := hr.resident

/-- The entries of the page tables show what they did for an object with the same slots. -/
theorem ptes_setObj (hp : Ptes maps objs s) (hobj : objs.get? o = some obj)
    (h : SameSlots obj obj') : Ptes maps (objs.set o obj') s := by
  intro p x hx
  obtain ⟨o', page, a, anon, halign, hop, hslot, hrest⟩ := hp p x hx
  exact ⟨o', page, a, anon, halign, hop, (slotIn_setObj hobj h o' page).trans hslot, hrest⟩

/-- One object is new or has changed, and the references to the others have not grown. -/
theorem Holds.put {objs' : Heap Object} {held' : List ObjId} (hh : Holds maps objs held)
    (hget : ∀ o', objs'.get? o' = if o' = o then some obj' else objs.get? o')
    (hkind : obj'.type = .kVMObjAnon ∧ obj'.parent = none)
    (hle : (held'.count o + maps.weigh (entriesOf o) : ℤ) ≤ obj'.refcnt)
    (hcount : ∀ o', o' ≠ o → held'.count o' ≤ held.count o')
    (hvalid : ∀ o' ∈ held', o' = o ∨ o' ∈ held) : Holds maps objs' held' := by
  -- no object disappears
  have hforth : ∀ o' x, objs.get? o' = some x → ∃ y, objs'.get? o' = some y := by
    intro o' x hx
    rw [hget]
    split
    · exact ⟨_, rfl⟩
    · exact ⟨x, hx⟩
  constructor
  case refcnt_le =>
    intro o' x hx
    rw [hget] at hx
    split at hx
    · rename_i ho
      cases hx
      rw [ho]
      exact hle
    · rename_i ho
      have := hh.refcnt_le o' x hx
      have := hcount o' ho
      omega
  case held_valid =>
    intro o' ho'
    rcases hvalid o' ho' with rfl | ho'
    · exact ⟨obj', by rw [hget, if_pos rfl]⟩
    · obtain ⟨x, hx⟩ := hh.held_valid o' ho'
      exact hforth o' x hx
  case entry_valid =>
    intro m map hmap e he
    obtain ⟨x, hx⟩ := hh.entry_valid m map hmap e he
    exact hforth e.obj x hx
  case kind =>
    intro o' x hx
    rw [hget] at hx
    split at hx
    · cases hx
      exact hkind
    · exact hh.kind o' x hx

/-- The count of an object is assigned and the references held change with it. -/
theorem holds_setObj {held' : List ObjId} (hh : Holds maps objs held)
    (hobj : objs.get? o = some obj) (htype : obj'.type = obj.type) (hparent : obj'.parent = obj.parent)
    (hle : (held'.count o + maps.weigh (entriesOf o) : ℤ) ≤ obj'.refcnt)
    (hcount : ∀ o', o' ≠ o → held'.count o' ≤ held.count o')
    (hvalid : ∀ o' ∈ held', o' = o ∨ o' ∈ held) : Holds maps (objs.set o obj') held' := by
  have hkind := hh.kind o obj hobj
  rw [← htype, ← hparent] at hkind
  exact hh.put (Heap.get?_set hobj obj') hkind hle hcount hvalid

end SetObj

/-- An object that an address is backed by has an entry. -/
theorem one_le_entriesOf {page : ℕ} (h : objPageIn maps m v = some (o, page)) :
    1 ≤ maps.weigh (entriesOf o) := by
  unfold objPageIn at h
  obtain ⟨map, hmap, h⟩ := Option.bind_eq_some_iff.mp h
  obtain ⟨e, he, h⟩ := Option.bind_eq_some_iff.mp h
  cases h
  calc 1 ≤ entriesOf e.obj map :=
        List.countP_pos_iff.mpr ⟨e, List.mem_of_find?_eq_some he, decide_eq_true rfl⟩
    _ ≤ maps.weigh (entriesOf e.obj) := Heap.le_weigh hmap

/-- An object that nothing holds may be taken out of the heap, its slots then are in flight. -/
theorem refs_freeObj {obj : Object} (hr : Refs objs [] s) (hobj : objs.get? o = some obj) :
    Refs (objs.free o) (obj.slots.reduceOption ++ []) s where
  refcnt_eq a anon ha := by
    rw [hr.refcnt_eq a anon ha, Heap.weigh_free (w := countIn a) hobj, List.append_nil,
      count_reduceOption]
    show ((countIn a obj + _ : ℕ) : ℤ) + _ = _
    rw [List.count_nil, countIn]
    omega
  slot_valid o' x a hx ha := by
    rw [Heap.get?_free] at hx
    split at hx
    · cases hx
    · exact hr.slot_valid o' x a hx ha
  extra_valid a ha := by
    rw [List.append_nil, List.reduceOption_mem_iff] at ha
    exact hr.slot_valid o obj a hobj ha
  page_inj := hr.page_inj
  page_used := hr.page_used
  free_nodup := hr.free_nodup
  resident := hr.resident

/-- Only the object `o` may have changed, and if it is still there it has the slots it had; pages and
maps are the same: what objects contain does not change. -/
structure Kept (o : ObjId) (s s' : State) : Prop where
  maps_eq : s'.maps = s.maps
  bytes_eq : s'.bytes = s.bytes
  pv_eq : s'.pv = s.pv
  anon_page : ∀ a x, s'.anons.get? a = some x → ∃ y, s.anons.get? a = some y ∧
    x.physpage = y.physpage
  other_eq : ∀ o', o' ≠ o → s'.objs.get? o' = s.objs.get? o'
  slot_eq : s'.objs.get? o ≠ none → ∀ page, slotIn s'.objs o page = slotIn s.objs o page

/-- The invariants together, for the entries of the maps `maps`. -/
structure Sound (maps : Heap Map) (held : List ObjId) (s : State) : Prop where
  refs : Refs s.objs [] s
  ptes : Ptes maps s.objs s
  holds : Holds maps s.objs held
  pvInv : PvInv s

/-- **`vm_object_release`** of a reference that is held outside of maps. -/
theorem release_spec (h : Sound maps (o :: held) s) (hs : vmObjectRelease s o = some s') :
    Sound maps held s' ∧ Kept o s s' := by
  have hpv := pvInv_vmObjectRelease h.pvInv hs
  obtain ⟨hr, hp, hh, -⟩ := h
  obtain ⟨obj, hobj, hcases⟩ := vmObjectRelease_cases hs
  have hle := hh.refcnt_le o obj hobj
  rw [List.count_cons_self] at hle
  have hdecr : decr 32 obj.refcnt = obj.refcnt - 1 := decr_of_pos (by omega)
  rw [hdecr] at hcases
  rcases hcases with ⟨hpos, rfl⟩ | ⟨hzero, s₁, hrel, rfl⟩
  -- only the count of the object changes
  · have hsame : SameSlots obj { obj with refcnt := obj.refcnt - 1 } := ⟨fun _ => rfl, fun _ => rfl⟩
    refine ⟨⟨?_, ptes_setObj hp hobj hsame, ?_, hpv⟩, rfl, rfl, rfl, fun a x hx => ⟨x, hx, rfl⟩,
      fun o' ho' => (Heap.get?_set hobj _ o').trans (if_neg ho'),
      fun _ => slotIn_setObj hobj hsame o⟩
    · exact (refs_setObj hr hobj hsame).congr rfl rfl
    · refine holds_setObj hh hobj rfl rfl ?_ ?_ fun o' ho' => .inr (List.mem_cons_of_mem o ho')
      · show (_ : ℤ) ≤ obj.refcnt - 1
        omega
      · exact fun o' ho' => le_of_eq (List.count_cons_of_ne (Ne.symm ho')).symm
  · -- the last reference: no entry maps the object and nobody holds it
    have hnoentry : maps.weigh (entriesOf o) = 0 := by omega
    have hnotheld : o ∉ held := by
      rw [← List.count_eq_zero]
      omega
    have hp₀ : Ptes maps (s.objs.free o) s := by
      intro p x hx
      obtain ⟨o', page, a, anon, halign, hop, hslot, hrest⟩ := hp p x hx
      have hne : o' ≠ o := by
        rintro rfl
        have := one_le_entriesOf hop
        omega
      refine ⟨o', page, a, anon, halign, hop, ?_, hrest⟩
      rw [slotIn, Heap.get?_free, if_neg hne]
      exact hslot
    obtain ⟨hr₁, hp₁, hframe⟩ := refs_release (refs_freeObj hr hobj) hp₀ hrel
    have hobjs : s₁.objs.free o = s.objs.free o := by rw [hframe.objs_eq]
    have hget : ∀ o', (s₁.objs.free o).get? o' = if o' = o then none else s.objs.get? o' := by
      intro o'
      rw [hobjs, Heap.get?_free]
    refine ⟨⟨?_, ?_, ?_, hpv⟩, hframe.maps_eq, hframe.bytes_eq, hframe.pv_eq, hframe.anon_page,
      fun o' ho' => (hget o').trans (if_neg ho'),
      fun hne => absurd ((hget o).trans (if_pos rfl)) hne⟩
    · show Refs (s₁.objs.free o) [] _
      rw [hobjs]
      exact hr₁.congr rfl rfl
    · show Ptes maps (s₁.objs.free o) _
      rw [hobjs]
      exact hp₁
    · show Holds maps (s₁.objs.free o) held
      rw [hobjs]
      constructor
      case refcnt_le =>
        intro o' x hx
        rw [Heap.get?_free] at hx
        split at hx
        · cases hx
        · rename_i hne
          have := hh.refcnt_le o' x hx
          rwa [List.count_cons_of_ne (Ne.symm hne)] at this
      case held_valid =>
        intro o' ho'
        obtain ⟨x, hx⟩ := hh.held_valid o' (List.mem_cons_of_mem o ho')
        have hne : o' ≠ o := fun heq => hnotheld (heq ▸ ho')
        exact ⟨x, by rw [Heap.get?_free, if_neg hne, hx]⟩
      case entry_valid =>
        intro m map hmap e he
        obtain ⟨x, hx⟩ := hh.entry_valid m map hmap e he
        have hne : e.obj ≠ o := by
          intro heq
          have hle := Heap.le_weigh (w := entriesOf o) hmap
          have : 0 < entriesOf o map := List.countP_pos_iff.mpr ⟨e, he, decide_eq_true heq⟩
          omega
        exact ⟨x, by rw [Heap.get?_free, if_neg hne, hx]⟩
      case kind =>
        intro o' x hx
        rw [Heap.get?_free] at hx
        split at hx
        · cases hx
        · exact hh.kind o' x hx

/-- `vm_object_release` of an object that an entry maps drops one reference. -/
theorem release_mapped (h : Sound maps (o :: held) s) (hmapped : 1 ≤ maps.weigh (entriesOf o))
    (hs : vmObjectRelease s o = some s') :
    ∃ obj, s.objs.get? o = some obj ∧ s' = setObj s o { obj with refcnt := decr 32 obj.refcnt } := by
  obtain ⟨obj, hobj, hcases⟩ := vmObjectRelease_cases hs
  refine ⟨obj, hobj, hcases.elim And.right fun hlast => absurd hlast.1 ?_⟩
  have hle := h.holds.refcnt_le o obj hobj
  rw [List.count_cons_self] at hle
  rw [decr_of_pos (by omega)]
  omega

/-- **`vm_object_retain`**, where the count has room. -/
theorem retain_spec (h : Sound maps held s)
    (hroom : ∀ obj, s.objs.get? o = some obj → obj.refcnt < 2 ^ 31 - 1)
    (hs : vmObjectRetain s o = some s') : Sound maps (o :: held) s' ∧ Kept o s s' := by
  have hpv := pvInv_vmObjectRetain h.pvInv hs
  obtain ⟨hr, hp, hh, -⟩ := h
  obtain ⟨obj, hobj, rfl⟩ := vmObjectRetain_eq hs
  -- there is room below 2^31, so the increment does not overflow
  have hincr : incr 32 obj.refcnt = obj.refcnt + 1 := by
    have := hroom obj hobj
    unfold incr
    rw [if_neg]
    have : (2 : ℤ) ^ (32 - 1) = 2 ^ 31 := by norm_num
    omega
  rw [hincr] at hpv ⊢
  have hsame : SameSlots obj { obj with refcnt := obj.refcnt + 1 } := ⟨fun _ => rfl, fun _ => rfl⟩
  refine ⟨⟨(refs_setObj hr hobj hsame).congr rfl rfl, ptes_setObj hp hobj hsame, ?_, hpv⟩, rfl, rfl,
    rfl, fun a x hx => ⟨x, hx, rfl⟩, fun o' ho' => (Heap.get?_set hobj _ o').trans (if_neg ho'),
    fun _ => slotIn_setObj hobj hsame o⟩
  refine holds_setObj hh hobj rfl rfl ?_ ?_ fun o' ho' => List.mem_cons.mp ho'
  · have := hh.refcnt_le o obj hobj
    show (_ : ℤ) ≤ obj.refcnt + 1
    rw [List.count_cons_self]
    omega
  · exact fun o' ho' => le_of_eq (List.count_cons_of_ne (Ne.symm ho'))

section AllocObj

variable {obj : Object} {newobj : ObjId} {objs' : Heap Object}

/-- The slots of the new object are its own, the others are as before. -/
theorem slotIn_allocObj (ha : objs.alloc newobj obj = some objs') (o' : ObjId) (page : ℕ) :
    slotIn objs' o' page
      = if o' = newobj then (obj.slots[page]?).join else slotIn objs o' page := by
  unfold slotIn
  rw [Heap.get?_alloc ha]
  split <;> rfl

/-- A new object takes over the references in flight. -/
theorem refs_allocObj (hr : Refs objs (obj.slots.reduceOption ++ []) s)
    (ha : objs.alloc newobj obj = some objs') : Refs objs' [] s where
  refcnt_eq a anon hanon := by
    rw [hr.refcnt_eq a anon hanon, Heap.weigh_alloc (w := countIn a) ha, List.append_nil,
      count_reduceOption, List.count_nil]
    show _ = ((countIn a obj + _ : ℕ) : ℤ) + _
    rw [countIn]
    omega
  slot_valid o' x a hx hmem := by
    rw [Heap.get?_alloc ha] at hx
    split at hx
    · cases hx
      refine hr.extra_valid a ?_
      rw [List.append_nil, List.reduceOption_mem_iff]
      exact hmem
    · exact hr.slot_valid o' x a hx hmem
  extra_valid := by simp
  page_inj := hr.page_inj
  page_used := hr.page_used
  free_nodup := hr.free_nodup
  resident := hr.resident

/-- The entries of the page tables show what they did, as no entry is of the new object. -/
theorem ptes_allocObj (hp : Ptes maps objs s) (ha : objs.alloc newobj obj = some objs') :
    Ptes maps objs' s := by
  intro p x hx
  obtain ⟨o', page, a, anon, halign, hop, hslot, hrest⟩ := hp p x hx
  refine ⟨o', page, a, anon, halign, hop, ?_, hrest⟩
  have hne : o' ≠ newobj := by
    rintro rfl
    rw [slotIn, Heap.get?_of_alloc ha] at hslot
    cases hslot
  rw [slotIn_allocObj ha, if_neg hne, hslot]

/-- The new object is held once. -/
theorem holds_allocObj (hh : Holds maps objs held) (ha : objs.alloc newobj obj = some objs')
    (hrefcnt : obj.refcnt = 1) (hkind : obj.type = .kVMObjAnon ∧ obj.parent = none) :
    Holds maps objs' (newobj :: held) := by
  have hfresh := Heap.get?_of_alloc ha
  have hheld : held.count newobj = 0 := by
    rw [List.count_eq_zero]
    intro hmem
    obtain ⟨y, hy⟩ := hh.held_valid newobj hmem
    rw [hfresh] at hy
    cases hy
  have hentry : maps.weigh (entriesOf newobj) = 0 := by
    refine Heap.weigh_eq_zero fun m map hmap => List.countP_eq_zero.mpr fun e he heq => ?_
    obtain ⟨y, hy⟩ := hh.entry_valid m map hmap e he
    rw [of_decide_eq_true heq, hfresh] at hy
    cases hy
  refine hh.put (Heap.get?_alloc ha) hkind ?_ (fun o' ho => (List.count_cons_of_ne (Ne.symm ho)).le)
    fun o' ho' => List.mem_cons.mp ho'
  rw [List.count_cons_self, hheld, hentry, hrefcnt]
  decide

end AllocObj

/-- **`vm_aobj_new`** makes an object without pages. -/
theorem aobjNew_spec {size : ℕ} (h : Sound maps held s) (hs : vmAobjNew s o size = some s') :
    Sound maps (o :: held) s' ∧ Kept o s s' ∧ s.objs.get? o = none ∧
      ∃ obj, s'.objs.get? o = some obj ∧ obj.refcnt = 1 ∧ obj.slots = [] := by
  have hpv := pvInv_vmAobjNew h.pvInv hs
  obtain ⟨hr, hp, hh, -⟩ := h
  obtain ⟨objs', ha, rfl⟩ := vmAobjNew_eq hs
  have hr₁ : Refs objs' [] s := refs_allocObj hr ha
  refine ⟨⟨hr₁.congr rfl rfl, ptes_allocObj hp ha, holds_allocObj hh ha rfl ⟨rfl, rfl⟩, hpv⟩,
    ⟨rfl, rfl, rfl, fun a x hx => ⟨x, hx, rfl⟩,
      fun o' ho' => (Heap.get?_alloc ha o').trans (if_neg ho'), fun _ page => ?_⟩,
    Heap.get?_of_alloc ha, _, (Heap.get?_alloc ha o).trans (if_pos rfl), rfl, rfl⟩
  show slotIn objs' o page = _
  rw [slotIn_allocObj ha, if_pos rfl, slotIn, Heap.get?_of_alloc ha]
  rfl

/-- What `vm_object_copy` does to the contents of objects: a new object has the slots of the old one,
and nothing else has changed. -/
structure Copied (o newobj : ObjId) (s s' : State) : Prop where
  maps_eq : s'.maps = s.maps
  bytes_eq : s'.bytes = s.bytes
  pv_eq : s'.pv = s.pv
  anon_page : ∀ a x, s'.anons.get? a = some x → ∃ y, s.anons.get? a = some y ∧
    x.physpage = y.physpage
  fresh : s.objs.get? newobj = none
  other_eq : ∀ o', o' ≠ newobj → s'.objs.get? o' = s.objs.get? o'
  slot_eq : ∀ page, slotIn s'.objs newobj page = slotIn s.objs o page
  refcnt_eq : ∃ obj, s'.objs.get? newobj = some obj ∧ obj.refcnt = 1

/-- The anons in the slots of an object. -/
def anonsOf (objs : Heap Object) (o : ObjId) : List AnonId :=
  (objs.get? o).elim [] fun obj => obj.slots.reduceOption

/-- **`vm_object_copy`**, where the counts have room. -/
theorem copy_spec {newobj : ObjId} {l : List AnonId} (h : Sound maps held s)
    (hroom : Room s (anonsOf s.objs o ++ l)) (hs : vmObjectCopy s o newobj = some s') :
    Sound maps (newobj :: held) s' ∧ Copied o newobj s s' ∧ Room s' l := by
  have hpv := pvInv_vmObjectCopy h.pvInv hs
  obtain ⟨hr, hp, hh, hpv₀⟩ := h
  obtain ⟨obj, s₁, objs', hobj, hshare, ha, rfl⟩ := vmObjectCopy_eq hs
  rw [anonsOf, hobj] at hroom
  obtain ⟨hr₁, hp₁, hframe, hroom₁⟩ := refs_share hr hp hpv₀ hroom hshare
  rw [hframe.objs_eq] at ha
  have hr₂ : Refs s.objs (({ obj with refcnt := 1 } : Object).slots.reduceOption ++ []) s₁ := hr₁
  have hr₃ : Refs objs' [] s₁ := refs_allocObj hr₂ ha
  refine ⟨⟨hr₃.congr rfl rfl, ptes_allocObj hp₁ ha, holds_allocObj hh ha rfl (hh.kind o obj hobj),
    hpv⟩, ⟨hframe.maps_eq, hframe.bytes_eq, hframe.pv_eq, hframe.anon_page, Heap.get?_of_alloc ha,
    fun o' ho' => (Heap.get?_alloc ha o').trans (if_neg ho'), fun page => ?_,
    _, (Heap.get?_alloc ha newobj).trans (if_pos rfl), rfl⟩, hroom₁⟩
  show slotIn objs' newobj page = _
  rw [slotIn_allocObj ha, if_pos rfl, slotIn, hobj]
  rfl

/-! ## Faults -/

section SetSlot

variable {obj : Object} {page : ℕ}

/-- The slot just set, and the others as before. -/
theorem slotIn_setSlot (hobj : objs.get? o = some obj) (hlen : page < obj.slots.length)
    (x : Option AnonId) (o' : ObjId) (page' : ℕ) :
    slotIn (objs.set o { obj with slots := obj.slots.set page x }) o' page'
      = if o' = o ∧ page' = page then x else slotIn objs o' page' := by
  unfold slotIn
  rw [Heap.get?_set hobj]
  by_cases ho : o' = o
  · rw [if_pos ho]
    show ((obj.slots.set page x)[page']?).join = _
    rw [List.getElem?_set]
    by_cases hpage : page' = page
    · rw [if_pos hpage.symm, if_pos hlen, if_pos ⟨ho, hpage⟩]
      rfl
    · rw [if_neg (Ne.symm hpage), if_neg fun h => hpage h.2, ho, hobj]
      rfl
  · rw [if_neg ho, if_neg fun h => ho h.1]

/-- The references in a slot that is assigned. -/
theorem weigh_setSlot (hobj : objs.get? o = some obj) {x y : Option AnonId}
    (hslot : obj.slots[page]? = some x) (b : AnonId) :
    (objs.set o { obj with slots := obj.slots.set page y }).weigh (countIn b)
        + (if x = some b then 1 else 0)
      = objs.weigh (countIn b) + if y = some b then 1 else 0 := by
  obtain ⟨hlen, hx⟩ := List.getElem?_eq_some_iff.mp hslot
  have hset := Heap.weigh_set (w := countIn b) hobj { obj with slots := obj.slots.set page y }
  have hcount : countIn b { obj with slots := obj.slots.set page y }
      = countIn b obj - (if x = some b then 1 else 0) + if y = some b then 1 else 0 := by
    show (obj.slots.set page y).count (some b) = _
    rw [List.count_set hlen, hx]
    simp only [beq_iff_eq]
    rfl
  have hle : (if x = some b then 1 else 0) ≤ countIn b obj := by
    split
    · rename_i hxb
      exact List.count_pos_iff.mpr (hxb ▸ List.mem_of_getElem? hslot)
    · exact Nat.zero_le _
  rw [hcount] at hset
  omega

/-- A slot is assigned, and the references in flight change with it. -/
theorem refs_setSlot {y : Option AnonId} {extra' : List AnonId} (hr : Refs objs extra s)
    (hobj : objs.get? o = some obj)
    (hcount : ∀ b, (objs.set o { obj with slots := obj.slots.set page y }).weigh (countIn b) + extra'.count b =
      objs.weigh (countIn b) + extra.count b)
    (hy : ∀ b, y = some b → ∃ anon, s.anons.get? b = some anon)
    (hvalid : ∀ b ∈ extra', ∃ anon, s.anons.get? b = some anon) :
    Refs (objs.set o { obj with slots := obj.slots.set page y }) extra' s := by
  constructor
  case refcnt_eq =>
    intro b anon hanon
    have hb := hcount b
    rw [hr.refcnt_eq b anon hanon]
    omega
  case slot_valid =>
    intro o' x b hx hb
    rw [Heap.get?_set hobj] at hx
    split at hx
    · cases hx
      -- a slot of the object is the one just set, or as before
      rcases List.mem_or_eq_of_mem_set hb with hb | hb
      · exact hr.slot_valid o obj b hobj hb
      · exact hy b hb.symm
    · exact hr.slot_valid o' x b hx hb
  case extra_valid => exact hvalid
  case page_inj => exact hr.page_inj
  case page_used => exact hr.page_used
  case free_nodup => exact hr.free_nodup
  case resident => exact hr.resident

/-- The anon in a slot is taken out of it. -/
theorem refs_emptySlot (hr : Refs objs extra s) (hobj : objs.get? o = some obj)
    (hslot : obj.slots[page]? = some (some a)) :
    Refs (objs.set o { obj with slots := obj.slots.set page none }) (a :: extra) s := by
  refine refs_setSlot hr hobj (fun b => ?_) (fun b hb => ?_) fun b hb => ?_
  · have hw := weigh_setSlot hobj (y := none) hslot b
    by_cases hb : a = b
    · rw [if_pos (congrArg some hb), if_neg (by simp)] at hw
      rw [hb, List.count_cons_self]
      omega
    · rw [if_neg fun h => hb (Option.some.inj h), if_neg (by simp)] at hw
      rw [List.count_cons_of_ne hb]
      omega
  · cases hb
  · rcases List.mem_cons.mp hb with rfl | hb
    · exact hr.slot_valid o obj b hobj (List.mem_of_getElem? hslot)
    · exact hr.extra_valid b hb

/-- A reference in flight is put into an empty slot. -/
theorem refs_fillSlot (hr : Refs objs (a :: extra) s) (hobj : objs.get? o = some obj)
    (hslot : obj.slots[page]? = some none) :
    Refs (objs.set o { obj with slots := obj.slots.set page (some a) }) extra s := by
  refine refs_setSlot hr hobj (fun b => ?_) (fun b hb => ?_) fun b hb =>
    hr.extra_valid b (List.mem_cons_of_mem a hb)
  · have hw := weigh_setSlot hobj (y := some a) hslot b
    by_cases hb : a = b
    · subst hb
      rw [if_neg (by simp), if_pos rfl] at hw
      rw [List.count_cons_self]
      omega
    · rw [if_neg (by simp), if_neg fun h => hb (Option.some.inj h)] at hw
      rw [List.count_cons_of_ne hb]
      omega
  · rw [← Option.some.inj hb]
    exact hr.extra_valid a List.mem_cons_self

end SetSlot

/-- A new anon takes a free page, and its reference is in flight. -/
theorem refs_newAnon {anons : Heap Anon} (bytes : Page → ℕ → UInt8) (hr : Refs objs extra s)
    (hfree : p ∈ s.freeq) (ha : s.anons.alloc a ⟨1, true, p⟩ = some anons) :
    Refs objs (a :: extra) { s with freeq := s.freeq.erase p, bytes := bytes, anons := anons } := by
  have hfresh := Heap.get?_of_alloc ha
  have hget := Heap.get?_alloc ha
  have hforth : ∀ b y, s.anons.get? b = some y → anons.get? b = some y := by
    intro b y hy
    rw [hget, if_neg, hy]
    rintro rfl
    rw [hfresh] at hy
    cases hy
  constructor
  case refcnt_eq =>
    intro b x hx
    have hx : anons.get? b = some x := hx
    rw [hget] at hx
    split at hx
    · rename_i hb
      cases hx
      subst hb
      -- nothing refers to an anon that was not allocated
      have hweigh : objs.weigh (countIn b) = 0 := by
        refine Heap.weigh_eq_zero fun o obj hobj => List.count_eq_zero.mpr fun hmem => ?_
        obtain ⟨y, hy⟩ := hr.slot_valid o obj b hobj hmem
        rw [hfresh] at hy
        cases hy
      have hextra : extra.count b = 0 := by
        rw [List.count_eq_zero]
        intro hmem
        obtain ⟨y, hy⟩ := hr.extra_valid b hmem
        rw [hfresh] at hy
        cases hy
      rw [hweigh, List.count_cons_self, hextra]
      rfl
    · rename_i hb
      rw [hr.refcnt_eq b x hx, List.count_cons_of_ne (Ne.symm hb)]
  case slot_valid =>
    intro o obj b hobj hb
    obtain ⟨y, hy⟩ := hr.slot_valid o obj b hobj hb
    exact ⟨y, hforth b y hy⟩
  case extra_valid =>
    intro b hb
    rcases List.mem_cons.mp hb with rfl | hb
    · exact ⟨_, (hget b).trans (if_pos rfl)⟩
    · obtain ⟨y, hy⟩ := hr.extra_valid b hb
      exact ⟨y, hforth b y hy⟩
  case page_inj =>
    intro b c x y hx hy hxy
    have hx : anons.get? b = some x := hx
    have hy : anons.get? c = some y := hy
    rw [hget] at hx hy
    split at hx <;> split at hy
    · rename_i hb hc
      rw [hb, hc]
    · cases hx
      exact absurd (hxy ▸ hfree) (hr.page_used c y hy)
    · cases hy
      exact absurd (hxy ▸ hfree) (hr.page_used b x hx)
    · exact hr.page_inj b c x y hx hy hxy
  case page_used =>
    intro b x hx hmem
    have hx : anons.get? b = some x := hx
    have hmem : x.physpage ∈ s.freeq.erase p := hmem
    rw [hget] at hx
    split at hx
    · cases hx
      exact hr.free_nodup.not_mem_erase hmem
    · exact hr.page_used b x hx (List.mem_of_mem_erase hmem)
  case free_nodup => exact hr.free_nodup.erase p
  case resident =>
    intro b x hx
    have hx : anons.get? b = some x := hx
    rw [hget] at hx
    split at hx
    · cases hx
      rfl
    · exact hr.resident b x hx

/-- A mapping on record is not at a place without a page table entry. -/
theorem PvExact.key_ne (h : PvExact s) (hnone : s.pmap m (pteIndex v) = none) {x : MapId × ℕ}
    (hx : x ∈ s.pv p) : ¬ (x.1 = m ∧ pteIndex x.2 = pteIndex v) := by
  rintro ⟨hm, hq⟩
  have hat := h.pageAt_of_mem hx
  rw [hm, hq, pageAt, hnone] at hat
  cases hat

/-- A page table entry is made where there was none, for what the entry's object has there. -/
theorem ptes_enter {page : ℕ} {anon : Anon} {write : Bool} (hp : Ptes maps objs s) (hpv : PvExact s)
    (hnone : s.pmap m (pteIndex v) = none) (hv : v % pgSize = 0)
    (hop : objPageIn maps m v = some (o, page)) (hslot : slotIn objs o page = some a)
    (hanon : s.anons.get? a = some anon) (hwrite : write = true → anon.refcnt = 1) :
    Ptes maps objs (pmapEnter s m anon.physpage v write) := by
  have hpmap : ∀ m' q, (pmapEnter s m anon.physpage v write).pmap m' q
      = if m' = m ∧ q = pteIndex v then some ⟨anon.physpage, write⟩ else s.pmap m' q :=
    fun m' q => setPte_pmap _ m' q
  have hold : ∀ p, ∀ x ∈ s.pv p, Shows maps objs (pmapEnter s m anon.physpage v write) p x := by
    intro p x hx
    obtain ⟨o', page', b, banon, halign, hop', hslot', hb, hpage, hw⟩ := hp p x hx
    refine ⟨o', page', b, banon, halign, hop', hslot', hb, hpage, fun pte hpte => hw pte ?_⟩
    rwa [hpmap, if_neg (hpv.key_ne hnone hx)] at hpte
  intro p x hx
  have hx : x ∈ Function.update s.pv anon.physpage ((m, v) :: s.pv anon.physpage) p := hx
  rw [Function.update_apply] at hx
  -- the list of the entered page gets one more, the others show what they did
  split at hx
  · rename_i hpeq
    rcases List.mem_cons.mp hx with rfl | hx
    · refine ⟨o, page, a, anon, hv, hop, hslot, hanon, hpeq.symm, fun pte hpte hw => ?_⟩
      rw [hpmap, if_pos ⟨rfl, rfl⟩] at hpte
      cases hpte
      exact hwrite hw
    · exact hpeq ▸ hold _ x hx
  · exact hold p x hx

/-- A page table entry of an anon that is not shared becomes writable. -/
theorem ptes_reenter {anon : Anon} (hr : Refs objs extra s) (hp : Ptes maps objs s)
    (hpv : PvExact s) (hanon : s.anons.get? a = some anon)
    (hat : pageAt s m (pteIndex v) = some anon.physpage) (hone : anon.refcnt = 1) :
    Ptes maps objs (pmapReenter s m anon.physpage v true) := by
  intro p x hx
  have hx : x ∈ s.pv p := hx
  obtain ⟨o', page', b, banon, halign, hop', hslot', hb, hpage, hw⟩ := hp p x hx
  refine ⟨o', page', b, banon, halign, hop', hslot', hb, hpage, fun pte hpte hwrite => ?_⟩
  have hpmap : (pmapReenter s m anon.physpage v true).pmap x.1 (pteIndex x.2)
      = if x.1 = m ∧ pteIndex x.2 = pteIndex v then some ⟨anon.physpage, true⟩
        else s.pmap x.1 (pteIndex x.2) := setPte_pmap _ _ _
  rw [hpmap] at hpte
  split at hpte
  · rename_i hk
    -- the mapping is of this anon's page
    have hthis := hpv.pageAt_of_mem hx
    rw [hk.1, hk.2, hat] at hthis
    have hba : b = a := hr.page_inj b a banon anon hb hanon
      (hpage.trans (Option.some.inj hthis).symm)
    subst hba
    obtain rfl := Option.some.inj (hanon.symm.trans hb)
    exact hone
  · exact hw pte hpte hwrite

/-- The page tables when the slot of a fault gets a new anon: what shows the slot is not on record any
more. -/
theorem ptes_setSlot {obj : Object} {page : ℕ} {anons : Heap Anon} (hp : Ptes maps s.objs s)
    (hobj : s.objs.get? o = some obj) (hlen : page < obj.slots.length)
    (hanons : ∀ b x, s.anons.get? b = some x → ∃ y, anons.get? b = some y ∧
      y.physpage = x.physpage ∧ (x.refcnt = 1 → y.refcnt = 1))
    (hother : ∀ p, ∀ x ∈ s'.pv p, objPageIn maps x.1 x.2 ≠ some (o, page))
    (hpv : ∀ p, ∀ x ∈ s'.pv p, x ∈ s.pv p)
    (hpmap : ∀ p, ∀ x ∈ s'.pv p, s'.pmap x.1 (pteIndex x.2) = s.pmap x.1 (pteIndex x.2))
    (hs'anons : s'.anons = anons)
    (hobjs : s'.objs = s.objs.set o { obj with slots := obj.slots.set page (some a) }) :
    Ptes maps s'.objs s' := by
  intro p x hx
  obtain ⟨o', page', b, banon, halign, hop', hslot', hb, hpage, hw⟩ := hp p x (hpv p x hx)
  obtain ⟨banon', hb', hpage', hone⟩ := hanons b banon hb
  -- no mapping shows the slot that changes, by `hother`
  have hne : ¬ (o' = o ∧ page' = page) := by
    rintro ⟨rfl, rfl⟩
    exact hother p x hx hop'
  refine ⟨o', page', b, banon', halign, hop', ?_, hs'anons ▸ hb', hpage'.trans hpage, ?_⟩
  · rw [hobjs, slotIn_setSlot hobj hlen, if_neg hne]
    exact hslot'
  · intro pte hpte hwrite
    rw [hpmap p x hx] at hpte
    exact hone (hw pte hpte hwrite)

/-- A slot gets a new anon whose page has the bytes that the slot had: no contents change. -/
theorem content_setSlot {obj : Object} {page : ℕ} {f : ℕ → UInt8} {x : Anon}
    (hr : Refs s.objs [] s) (hobj : s.objs.get? o = some obj) (hlen : page < obj.slots.length)
    (hfree : x.physpage ∈ s.freeq) (hf : ∀ off, f off = content s o page off)
    (hobjs : s'.objs = s.objs.set o { obj with slots := obj.slots.set page (some a) })
    (hnew : s'.anons.get? a = some x)
    (hanons : ∀ b x, s.anons.get? b = some x → ∃ y, s'.anons.get? b = some y ∧
      y.physpage = x.physpage)
    (hbytes : s'.bytes = Function.update s.bytes x.physpage f) (o' : ObjId) (page' off : ℕ) :
    content s' o' page' off = content s o' page' off := by
  unfold content
  rw [hobjs, slotIn_setSlot hobj hlen]
  -- the slot itself has the bytes of the new page, the others keep page and bytes
  by_cases hk : o' = o ∧ page' = page
  · obtain ⟨rfl, rfl⟩ := hk
    rw [if_pos ⟨rfl, rfl⟩, Option.bind_some, hnew, Option.elim_some, hbytes, Function.update_self]
    exact hf off
  · rw [if_neg hk]
    cases hslot : slotIn s.objs o' page' with
    | none => rfl
    | some b =>
        obtain ⟨obj', hobj', hmem⟩ := mem_slots_of_slotIn hslot
        obtain ⟨y, hy⟩ := hr.slot_valid o' obj' b hobj' hmem
        obtain ⟨z, hz, hpage⟩ := hanons b y hy
        have hne : y.physpage ≠ x.physpage := fun heq => hr.page_used b y hy (heq ▸ hfree)
        rw [Option.bind_some, Option.bind_some, hy, hz, Option.elim_some, Option.elim_some, hbytes,
          hpage, Function.update_of_ne hne]

/-- What a fault does besides keeping the invariants: no contents change, and there is a page table
entry that the access can go through. -/
structure Faulted (m : MapId) (v : ℕ) (write : Bool) (s s' : State) : Prop where
  maps_eq : s'.maps = s.maps
  content_eq : ∀ o page off, content s' o page off = content s o page off
  pte : ∃ pte, s'.pmap m (pteIndex v) = some pte ∧ (write = true → pte.write = true)

/-- A page table entry that can be written can be read. -/
theorem Faulted.weaken (h : Faulted m v true s s') {write : Bool} : Faulted m v write s s' := by
  obtain ⟨hmaps, hcontent, pte, hpte, hwrite⟩ := h
  exact ⟨hmaps, hcontent, pte, hpte, fun _ => hwrite rfl⟩

section Fault

variable {obj : Object} {page : ℕ} {flags : FaultFlags} {map : Map}

/-- A slot that exists holds an anon or nothing. -/
theorem slot_of_join {x : Option AnonId} (hlen : page < obj.slots.length)
    (h : (obj.slots[page]?).join = x) : obj.slots[page]? = some x := by
  rw [List.getElem?_eq_getElem hlen] at h ⊢
  exact congrArg some h

/-- Objects keep their references when a slot is assigned. -/
theorem holds_setSlot (hh : Holds maps objs held) (hobj : objs.get? o = some obj)
    (slots : List (Option AnonId)) : Holds maps (objs.set o { obj with slots := slots }) held :=
  holds_setObj hh hobj rfl rfl (hh.refcnt_le o obj hobj) (fun _ _ => le_rfl) fun _ ho' => .inr ho'

/-- `fault_aobj` maps the anon in the slot where no page was mapped. -/
theorem fault_enter {anon : Anon} {write : Bool} (h : Sound maps held s) (hmap : s.maps.get? m = some map)
    (hobj : s.objs.get? o = some obj) (hop : objPageIn maps m v = some (o, page))
    (hv : v % pgSize = 0) (hnone : s.pmap m (pteIndex v) = none)
    (hslot : (obj.slots[page]?).join = some a) (hanon : s.anons.get? a = some anon)
    (hwrite : write = true → anon.refcnt = 1) :
    Sound maps held (pmapEnter s m anon.physpage v write) ∧
      Faulted m v write s (pmapEnter s m anon.physpage v write) := by
  have hslot' : slotIn s.objs o page = some a := by
    rw [slotIn, hobj]
    exact hslot
  refine ⟨⟨h.refs.congr rfl rfl, ?_, h.holds, pvInv_enter h.pvInv hmap hnone write⟩, rfl,
    fun _ _ _ => rfl, ?_⟩
  · exact ptes_enter h.ptes h.pvInv.exact hnone hv hop hslot' hanon hwrite
  · exact ⟨⟨anon.physpage, write⟩, (setPte_pmap _ m _).trans (if_pos ⟨rfl, rfl⟩), id⟩

/-- An anon in a slot that is not shared has one reference. -/
theorem refcnt_eq_one {anon : Anon} (hr : Refs s.objs [] s) (hobj : s.objs.get? o = some obj)
    (hslot : (obj.slots[page]?).join = some a) (hanon : s.anons.get? a = some anon)
    (hsole : anon.refcnt ≤ 1) : anon.refcnt = 1 := by
  have hslot' : slotIn s.objs o page = some a := by
    rw [slotIn, hobj]
    exact hslot
  have hpos := one_le_weigh hslot'
  have hcount := hr.refcnt_eq a anon hanon
  rw [List.count_nil] at hcount
  omega

/-- `fault_aobj` gives an empty slot a new anon. -/
theorem fault_zero {s₁ : State} (h : Sound maps held s) (hmap : s.maps.get? m = some map)
    (hobj : s.objs.get? o = some obj) (hlen : page < obj.slots.length)
    (hop : objPageIn maps m v = some (o, page)) (hv : v % pgSize = 0)
    (hnone : s.pmap m (pteIndex v) = none) (hslot : (obj.slots[page]?).join = none)
    (hnew : anonNew s a p = some s₁) :
    Sound maps held (pmapEnter (setSlot s₁ o obj page a) m p v true) ∧
      Faulted m v true s (pmapEnter (setSlot s₁ o obj page a) m p v true) := by
  obtain ⟨hfree, anons, ha, rfl⟩ := anonNew_eq hnew
  obtain ⟨hr, hp, hh, hpv⟩ := h
  have hslot' : slotIn s.objs o page = none := by
    rw [slotIn, hobj]
    exact hslot
  have hget := Heap.get?_alloc ha
  have hnewanon : anons.get? a = some ⟨1, true, p⟩ := (hget a).trans (if_pos rfl)
  have hkept : ∀ b x, s.anons.get? b = some x → anons.get? b = some x := by
    intro b x hx
    rw [hget, if_neg, hx]
    rintro rfl
    rw [Heap.get?_of_alloc ha] at hx
    cases hx
  set s₂ := setSlot { s with
    freeq := s.freeq.erase p
    bytes := Function.update s.bytes p fun _ => 0
    anons := anons
    pageAnon := Function.update s.pageAnon p (some a) } o obj page a with hs₂
  have hr₂ : Refs s₂.objs [] s₂ :=
    (refs_fillSlot (refs_newAnon s₂.bytes hr hfree ha) hobj (slot_of_join hlen hslot)).congr rfl rfl
  have hpv₂ : PvInv s₂ := hpv.congr rfl rfl fun _ hm => hm
  have hp₂ : Ptes maps s₂.objs s₂ := by
    refine ptes_setSlot (a := a) hp hobj hlen (fun b x hx => ⟨x, hkept b x hx, rfl, id⟩) ?_
      (fun _ _ hx => hx) (fun _ _ _ => rfl) rfl rfl
    -- what shows the slot shows an anon, and the slot was empty
    intro p' x hx heq
    obtain ⟨o', page', b, -, -, hop', hb, -⟩ := hp p' x hx
    obtain ⟨rfl, rfl⟩ := Prod.mk.inj (Option.some.inj (heq.symm.trans hop'))
    rw [hslot'] at hb
    cases hb
  have hslot₂ : slotIn s₂.objs o page = some a :=
    (slotIn_setSlot hobj hlen _ o page).trans (if_pos ⟨rfl, rfl⟩)
  refine ⟨⟨hr₂.congr rfl rfl, ?_, holds_setSlot hh hobj _, pvInv_enter hpv₂ hmap hnone true⟩, rfl,
    ?_, ?_⟩
  · exact ptes_enter hp₂ hpv₂.exact hnone hv hop hslot₂ hnewanon fun _ => rfl
  · refine content_setSlot (x := ⟨1, true, p⟩) (f := fun _ => 0) hr hobj hlen hfree (fun off => ?_)
      rfl hnewanon (fun b x hx => ⟨x, hkept b x hx, rfl⟩) rfl
    rw [content, hslot']
    rfl
  · exact ⟨⟨p, true⟩, (setPte_pmap _ m _).trans (if_pos ⟨rfl, rfl⟩), id⟩

/-- The slot of a shared anon gets a new anon instead, and the shared one loses a reference. -/
theorem refs_copySlot {old : AnonId} {anon : Anon} {anons : Heap Anon} (hr : Refs s.objs [] s)
    (hobj : s.objs.get? o = some obj) (hslot : obj.slots[page]? = some (some old))
    (hanon : s.anons.get? old = some anon) (hfree : p ∈ s.freeq)
    (ha : (setAnon s old { anon with refcnt := anon.refcnt - 1 }).anons.alloc a ⟨1, true, p⟩
      = some anons) (bytes : Page → ℕ → UInt8) :
    Refs (s.objs.set o { obj with slots := obj.slots.set page (some a) }) []
      { s with freeq := s.freeq.erase p, bytes := bytes, anons := anons } := by
  have hlen := (List.getElem?_eq_some_iff.mp hslot).1
  -- the old anon leaves the slot, its reference is dropped, the new anon comes and enters the slot
  have hr₁ := refs_emptySlot hr hobj hslot
  have hcount := hr₁.refcnt_eq old anon hanon
  rw [List.count_cons_self, List.count_nil] at hcount
  have hr₂ := refs_setRefcnt (r := anon.refcnt - 1) (l := []) hr₁ hanon
    (by rw [List.count_nil]; omega) (fun b hb => (List.count_cons_of_ne (Ne.symm hb)).symm) (by simp)
  have hr₃ := refs_newAnon bytes hr₂ hfree ha
  have hobj₁ : (s.objs.set o { obj with slots := obj.slots.set page none }).get? o
      = some { obj with slots := obj.slots.set page none } :=
    (Heap.get?_set hobj _ o).trans (if_pos rfl)
  have hslot₁ : (obj.slots.set page none)[page]? = some none := List.getElem?_set_self hlen
  have hr₄ := refs_fillSlot hr₃ hobj₁ hslot₁
  rw [Heap.set_set] at hr₄
  have hslots : (obj.slots.set page none).set page (some a) = obj.slots.set page (some a) :=
    List.set_set ..
  rw [hslots] at hr₄
  exact hr₄.congr rfl rfl

/-- The anons after a copy: the old ones with their pages, and the new one. -/
theorem anons_copied {old : AnonId} {anon : Anon} {anons : Heap Anon}
    (hanon : s.anons.get? old = some anon) (hshared : 1 < anon.refcnt)
    (ha : (setAnon s old { anon with refcnt := anon.refcnt - 1 }).anons.alloc a ⟨1, true, p⟩
      = some anons) {b : AnonId} {x : Anon} (hx : s.anons.get? b = some x) :
    ∃ y, anons.get? b = some y ∧ y.physpage = x.physpage ∧ (x.refcnt = 1 → y.refcnt = 1) := by
  have hfresh := Heap.get?_of_alloc ha
  rw [get?_setRefcnt hanon] at hfresh
  have hba : b ≠ a := by
    rintro rfl
    split at hfresh
    · cases hfresh
    · rw [hx] at hfresh
      cases hfresh
  rw [Heap.get?_alloc ha, if_neg hba, get?_setRefcnt hanon]
  by_cases hbo : b = old
  · subst hbo
    obtain rfl := Option.some.inj (hanon.symm.trans hx)
    rw [if_pos rfl]
    exact ⟨_, rfl, rfl, fun hone => absurd hone (by omega)⟩
  · rw [if_neg hbo]
    exact ⟨x, hx, rfl, id⟩

/-- `fault_aobj` gives the slot of a shared anon a copy of it.  No mapping but the one that traps may
show the slot: the others would keep the old page. -/
theorem fault_copy {old : AnonId} {anon : Anon} {s₁ s₂ : State} (h : Sound maps held s)
    (hmap : s.maps.get? m = some map) (hobj : s.objs.get? o = some obj)
    (hlen : page < obj.slots.length) (hop : objPageIn maps m v = some (o, page))
    (hv : v % pgSize = 0) (habsent : flags.present = false → s.pmap m (pteIndex v) = none)
    (hthis : ∀ pte, s.pmap m (pteIndex v) = some pte → pte.page = anon.physpage)
    (halone : ∀ x ∈ s.pv anon.physpage, objPageIn maps x.1 x.2 = some (o, page) →
      x.1 = m ∧ pteIndex x.2 = pteIndex v)
    (hslot : (obj.slots[page]?).join = some old) (hanon : s.anons.get? old = some anon)
    (hshared : 1 < anon.refcnt)
    (hcopy : anonCopy (setAnon s old { anon with refcnt := decr 24 anon.refcnt }) anon a p
      = some s₁)
    (hunenter : if flags.present = true then
        pmapUnenter (setSlot s₁ o obj page a) m (some anon.physpage) v = some s₂
      else s₂ = setSlot s₁ o obj page a) :
    Sound maps held (pmapEnter s₂ m p v true) ∧ Faulted m v true s (pmapEnter s₂ m p v true) := by
  obtain ⟨hr, hp, hh, hpv⟩ := h
  obtain ⟨hpv₂, hnone, hmaps₂⟩ := pvInv_unenterOld hpv habsent hthis hcopy hunenter
  -- taking the old page out of the page table leaves the other entries and adds no mapping
  have hframe : ∃ f g, s₂ = { setSlot s₁ o obj page a with pmap := f, pv := g } ∧
      (∀ p, ∀ x ∈ g p, x ∈ s₁.pv p) ∧
      ∀ m' q, ¬ (m' = m ∧ q = pteIndex v) → f m' q = s₁.pmap m' q := by
    split at hunenter
    · exact pmapUnenter_frame hunenter
    · subst hunenter
      exact ⟨s₁.pmap, s₁.pv, rfl, fun _ _ hx => hx, fun _ _ _ => rfl⟩
  obtain ⟨f, g, hs₂, hg, hf⟩ := hframe
  obtain ⟨hfree, anons, ha, hs₁⟩ := anonCopy_eq hcopy
  have hfree : p ∈ s.freeq := hfree
  have hslot' : slotIn s.objs o page = some old := by
    rw [slotIn, hobj]
    exact hslot
  have hdecr : decr 24 anon.refcnt = anon.refcnt - 1 := decr_of_pos (by omega)
  rw [hdecr] at ha
  have hnewanon : anons.get? a = some ⟨1, true, p⟩ := (Heap.get?_alloc ha a).trans (if_pos rfl)
  have hanons₂ : s₂.anons = anons := by rw [hs₂, hs₁]; rfl
  have hobjs₂ : s₂.objs = s.objs.set o { obj with slots := obj.slots.set page (some a) } := by
    rw [hs₂, hs₁]
    rfl
  have hbytes₂ : s₂.bytes = Function.update s.bytes p (s.bytes anon.physpage) := by
    -- the page in use is not the free one, so it is copied as it was
    have hne : anon.physpage ≠ p := fun heq => hr.page_used old anon hanon (heq ▸ hfree)
    rw [hs₂, hs₁]
    show Function.update s.bytes p (Function.update s.bytes p (fun _ => 0) anon.physpage) = _
    rw [Function.update_of_ne hne]
  have hr₂ : Refs s₂.objs [] s₂ := by
    rw [hobjs₂]
    refine (refs_copySlot hr hobj (slot_of_join hlen hslot) hanon hfree ha s.bytes).congr hanons₂ ?_
    rw [hs₂, hs₁]
    rfl
  have hsub : ∀ p', ∀ x ∈ s₂.pv p', x ∈ s.pv p' := by
    intro p' x hx
    rw [hs₂] at hx
    have := hg p' x hx
    rwa [hs₁] at this
  -- entries that show the page of the object stood for the old anon: `halone` says there is only this one
  have hp₂ : Ptes maps s₂.objs s₂ := by
    refine ptes_setSlot (a := a) hp hobj hlen (fun _ _ => anons_copied hanon hshared ha) ?_ hsub ?_
      hanons₂ hobjs₂
    · intro p' x hx heq
      obtain ⟨o', page', b, banon, -, hop', hb, hbanon, hpage, -⟩ := hp p' x (hsub p' x hx)
      obtain ⟨rfl, rfl⟩ := Prod.mk.inj (Option.some.inj (heq.symm.trans hop'))
      obtain rfl := Option.some.inj (hslot'.symm.trans hb)
      obtain rfl := Option.some.inj (hanon.symm.trans hbanon)
      exact hpv₂.exact.key_ne hnone hx (halone x (hpage ▸ hsub p' x hx) heq)
    · intro p' x hx
      have hne := hpv₂.exact.key_ne hnone hx
      rw [hs₂]
      show f x.1 (pteIndex x.2) = _
      rw [hf _ _ hne, hs₁]
      rfl
  have hslot₂ : slotIn s₂.objs o page = some a := by
    rw [hobjs₂]
    exact (slotIn_setSlot hobj hlen _ o page).trans (if_pos ⟨rfl, rfl⟩)
  refine ⟨⟨hr₂.congr rfl rfl, ?_, ?_, pvInv_enter hpv₂ (hmaps₂ ▸ hmap) hnone true⟩, hmaps₂, ?_, ?_⟩
  · have hnewanon₂ : s₂.anons.get? a = some ⟨1, true, p⟩ := hanons₂ ▸ hnewanon
    exact ptes_enter hp₂ hpv₂.exact hnone hv hop hslot₂ hnewanon₂ fun _ => rfl
  · show Holds maps s₂.objs held
    rw [hobjs₂]
    exact holds_setSlot hh hobj _
  · refine content_setSlot (x := ⟨1, true, p⟩) (f := s.bytes anon.physpage) hr hobj hlen hfree
      (fun off => ?_) hobjs₂ (hanons₂ ▸ hnewanon) (fun b x hx => ?_) hbytes₂
    · rw [content, hslot', Option.bind_some, hanon]
      rfl
    · obtain ⟨y, hy, hpage, -⟩ := anons_copied hanon hshared ha hx
      exact ⟨y, hanons₂ ▸ hy, hpage⟩
  · exact ⟨⟨p, true⟩, (setPte_pmap _ m _).trans (if_pos ⟨rfl, rfl⟩), id⟩

/-- `fault_aobj` on a slot that exists keeps the invariants, if the page table entry agrees with the
slot and, where the slot gets a copy, no other mapping shows the slot. -/
theorem faultCase_spec (h : Sound maps held s) (hmap : s.maps.get? m = some map)
    (hobj : s.objs.get? o = some obj) (hlen : page < obj.slots.length)
    (hop : objPageIn maps m v = some (o, page)) (hv : v % pgSize = 0)
    (habsent : flags.present = false → s.pmap m (pteIndex v) = none)
    (hpresent : flags.present = true → ∃ pte, s.pmap m (pteIndex v) = some pte)
    (hslot : ∀ pte, s.pmap m (pteIndex v) = some pte → ∃ old anon,
      (obj.slots[page]?).join = some old ∧ s.anons.get? old = some anon ∧
        anon.physpage = pte.page)
    (halone : flags.write = true → ∀ old anon, (obj.slots[page]?).join = some old →
      s.anons.get? old = some anon → 1 < anon.refcnt →
      ∀ x ∈ s.pv anon.physpage, objPageIn maps x.1 x.2 = some (o, page) →
        x.1 = m ∧ pteIndex x.2 = pteIndex v)
    (hs : FaultCase s m o obj v page flags a p s') :
    Sound maps held s' ∧ Faulted m v flags.write s s' := by
  have hthis : ∀ old anon, (obj.slots[page]?).join = some old → s.anons.get? old = some anon →
      ∀ pte, s.pmap m (pteIndex v) = some pte → pte.page = anon.physpage := by
    intro old anon hold hanon pte hpte
    obtain ⟨old', anon', hold', hanon', hpage⟩ := hslot pte hpte
    obtain rfl := Option.some.inj (hold.symm.trans hold')
    obtain rfl := Option.some.inj (hanon.symm.trans hanon')
    exact hpage.symm
  -- a case for each end of `fault_aobj`
  cases hs with
  | read old anon hold hanon hshared hflag hwrite =>
      rw [hwrite]
      exact fault_enter h hmap hobj hop hv (habsent hflag) hold hanon (by simp)
  | enter old anon hold hanon hsole hflag =>
      have hone := refcnt_eq_one h.refs hobj hold hanon hsole
      have hwrite : true = true → anon.refcnt = 1 := fun _ => hone
      obtain ⟨hsound, hfault⟩ := fault_enter h hmap hobj hop hv (habsent hflag) hold hanon hwrite
      exact ⟨hsound, hfault.weaken⟩
  | reenter old anon hold hanon hsole hflag =>
      have hone := refcnt_eq_one h.refs hobj hold hanon hsole
      obtain ⟨pte, hpte⟩ := hpresent hflag
      -- the entry shows the anon's page already and only becomes writable
      have hat : pageAt s m (pteIndex v) = some anon.physpage := by
        rw [pageAt, hpte]
        exact congrArg some (hthis old anon hold hanon pte hpte)
      exact ⟨⟨h.refs.congr rfl rfl, ptes_reenter h.refs h.ptes h.pvInv.exact hanon hat hone, h.holds,
        pvInv_reenter h.pvInv hat true⟩, rfl, fun _ _ _ => rfl,
        ⟨anon.physpage, true⟩, (setPte_pmap _ m _).trans (if_pos ⟨rfl, rfl⟩), fun _ => rfl⟩
  | copy old anon hold hanon hshared hwrite s₁ s₂ hcopy hun =>
      rw [hwrite]
      exact fault_copy h hmap hobj hlen hop hv habsent (hthis old anon hold hanon)
        (halone hwrite old anon hold hanon hshared) hold hanon hshared hcopy hun
  | zero hnone s₁ hnew =>
      -- an empty slot has no page to be shown
      have habs : s.pmap m (pteIndex v) = none := by
        by_contra hne
        obtain ⟨pte, hpte⟩ := Option.ne_none_iff_exists'.mp hne
        obtain ⟨old, -, hold, -⟩ := hslot pte hpte
        rw [hnone] at hold
        cases hold
      obtain ⟨hsound, hfault⟩ := fault_zero h hmap hobj hlen hop hv habs hnone hnew
      exact ⟨hsound, hfault.weaken⟩

end Fault

end Scalux.Vm
