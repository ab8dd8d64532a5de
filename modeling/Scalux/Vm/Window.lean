import Scalux.Vm.CopyOnWrite

/-! # Windows of the kernel map

The kernel reads and writes an object through a mapping that it makes in its own map and removes
afterwards.  While the mapping is the only one of the object, the bytes that are copied through it are
the bytes of the object, whatever pages have to be faulted in for it.

* **`copyIn_spec`**, **`copyOut_spec`**: `memcpy` to and from a window.
* **`open_spec`**, **`close_spec`**: `vm_map_object` and `vm_deallocate` around it. -/

namespace Scalux.Vm

variable {s s' : State} {m : MapId} {o : ObjId} {a : AnonId} {p : Page} {v base size : ℕ}
  {held : List ObjId} {e : Entry}

/-! ## The model -/

/-- `memcpy` into a map; the anon and the page that a trap at an address takes are `new` of it. -/
def copyIn (m : MapId) (new : ℕ → AnonId × Page) : State → ℕ → List UInt8 → Option State
  | s, _, [] => some s
  | s, v, b :: buf => do
      let s ← touch s m v true (new v).1 (new v).2
      let s ← store s m v b
      copyIn m new s (add64 v 1) buf

/-- `memcpy` of a number of bytes out of a map. -/
def copyOut (m : MapId) (new : ℕ → AnonId × Page) : State → ℕ → ℕ → Option (List UInt8 × State)
  | s, _, 0 => some ([], s)
  | s, v, n + 1 => do
      let s ← touch s m v false (new v).1 (new v).2
      let b ← load s m v
      let (buf, s) ← copyOut m new s (add64 v 1) n
      return (b :: buf, s)

/-- The byte of an object at an offset. -/
def objByte (s : State) (o : ObjId) (i : ℕ) : UInt8 := content s o (i / pgSize) (i % pgSize)

/-- The reference count of an object that is in use. -/
def refcntOf (s : State) (o : ObjId) : Option ℤ := (s.objs.get? o).map Object.refcnt

/-- No entry of any map is for the object. -/
def NotMapped (maps : Heap Map) (o : ObjId) : Prop :=
  ∀ m map, maps.get? m = some map → ∀ e ∈ map.entries, e.obj ≠ o

/-- The kernel map has an entry for the object, and there is no other one. -/
structure Window (maps : Heap Map) (o : ObjId) (base size : ℕ) : Prop where
  entry : ∃ map, maps.get? kmap = some map ∧ ⟨base, base + size, 0, o⟩ ∈ map.entries
  sole : ∀ m map, maps.get? m = some map → ∀ e ∈ map.entries, e.obj = o →
    m = kmap ∧ e = ⟨base, base + size, 0, o⟩

/-- Rounding up less than `2 ^ 31` bytes does not wrap. -/
theorem pgRoundUp_spec {n : ℕ} (h : n < 2 ^ 31) : n ≤ pgRoundUp n ∧ pgRoundUp n < 2 ^ 32 := by
  rw [pgRoundUp_eq]
  omega

/-! ## Reference counts -/

/-- Assigning an object. -/
theorem refcntOf_setObj {obj obj' : Object} (hobj : s.objs.get? o = some obj) (o' : ObjId) :
    refcntOf (setObj s o obj') o' = if o' = o then some obj'.refcnt else refcntOf s o' := by
  unfold refcntOf
  show ((s.objs.set o obj').get? o').map _ = _
  rw [Heap.get?_set hobj]
  split
  · rfl
  · rfl

/-- A fault changes no reference count of an object. -/
theorem refcntOf_fault {flags : FaultFlags} (h : vmFault s m v flags a p = some (0, s')) :
    refcntOf s' = refcntOf s := by
  obtain ⟨map, e, -, -, h⟩ := vmFault_cases h
  obtain ⟨obj, slots, hobj, -, hcase⟩ := faultAobj_cases h
  -- growing the amap and filling a slot leave the count of the object
  have hgrow : refcntOf (setObj s e.obj { obj with slots := slots }) = refcntOf s := by
    funext o
    rw [refcntOf_setObj hobj]
    split
    · subst o
      rw [refcntOf, hobj]
      rfl
    · rfl
  have hgrown : (setObj s e.obj { obj with slots := slots }).objs.get? e.obj
      = some { obj with slots := slots } := by
    show (s.objs.set e.obj _).get? e.obj = _
    rw [Heap.get?_set hobj, if_pos rfl]
  have hslot : ∀ {s₁ : State} {page : ℕ},
      s₁.objs = (setObj s e.obj { obj with slots := slots }).objs →
      refcntOf (setSlot s₁ e.obj { obj with slots := slots } page a) = refcntOf s := by
    intro s₁ page hobjs
    rw [← hgrow]
    funext o
    rw [setSlot, refcntOf_setObj (hobjs ▸ hgrown)]
    unfold refcntOf
    rw [hobjs]
    split
    · subst o
      rw [hgrown]
      rfl
    · rfl
  cases hcase with
  | read old anon hslot hanon hshared hpresent hwrite => exact hgrow
  | copy old anon hslot' hanon hshared hwrite s₁ s₂ hcopy hunenter =>
      obtain ⟨-, anons, -, rfl⟩ := anonCopy_eq hcopy
      have hobjs : refcntOf s₂ = refcntOf s := by
        split at hunenter
        · rcases pmapUnenter_cases hunenter with ⟨-, rfl⟩ | ⟨pte, -, -, rfl⟩
          · exact hslot rfl
          · exact hslot rfl
        · subst hunenter
          exact hslot rfl
      exact hobjs
  | reenter old anon hslot hanon hsole hpresent => exact hgrow
  | enter old anon hslot hanon hsole hpresent => exact hgrow
  | zero hslot' s₁ hnew =>
      obtain ⟨-, anons, -, rfl⟩ := anonNew_eq hnew
      exact hslot rfl

/-- A fault leaves the reference counts of the objects. -/
theorem refcntOf_touch {write : Bool} (h : touch s m v write a p = some s') :
    refcntOf s' = refcntOf s := by
  rcases touch_cases h with ⟨-, rfl⟩ | ⟨flags, -, hfault⟩
  · rfl
  · exact refcntOf_fault hfault

/-! ## Accesses -/

/-- What a window has at an address. -/
theorem Window.objPage_eq (hw : Window s.maps o base size) (h : Inv held s) (hlo : base ≤ v)
    (hhi : v < base + size) :
    objPage s kmap v = some (o, (v - base) / pgSize) ∧ v % pgSize = (v - base) % pgSize := by
  obtain ⟨map, hmap, he⟩ := hw.entry
  have hok := h.mapsOk kmap map hmap
  have hentry := hok.entry_ok _ he
  have hhas : Entry.Has ⟨base, base + size, 0, o⟩ v := ⟨hlo, hhi⟩
  have htop := mapLo_top kmap
  obtain ⟨k, hk⟩ := hentry.start_dvd
  dsimp only at hk
  -- the entry of the window starts at page 0 of the object
  have hpage := hentry.page_eq (by omega) rfl hhas
  have hop : objPage s kmap v = some (o, Entry.page ⟨base, base + size, 0, o⟩ v) := by
    rw [objPage, objPageIn_eq, hmap]
    exact hok.objPageOf_eq.mpr ⟨_, he, hhas, rfl, rfl⟩
  refine ⟨?_, ?_⟩
  · rw [hop, hpage]
    dsimp only
    congr 2
    unfold pgRoundDown
    unfold pgSize at *
    omega
  · unfold pgSize at *
    omega

/-- The object of a window has no other mapping, so copying a page of it shows nowhere else. -/
theorem Window.cowAlone (hw : Window s.maps o base size) (h : Inv held s) (hlo : base ≤ v)
    (hhi : v < base + size) : CowAlone s kmap v := by
  refine cowAlone_of_sole h fun o' page m' v' hop hop' => ?_
  rw [(hw.objPage_eq h hlo hhi).1] at hop
  obtain ⟨rfl, rfl⟩ := Prod.mk.inj (Option.some.inj hop)
  refine eq_of_objPageIn h.mapsOk (fun m₁ map₁ hmap₁ e₁ he₁ m₂ map₂ hmap₂ e₂ he₂ h₁ h₂ => ?_)
    (hw.objPage_eq h hlo hhi).1 hop'
  obtain ⟨rfl, rfl⟩ := hw.sole m₁ map₁ hmap₁ e₁ he₁ h₁
  obtain ⟨rfl, rfl⟩ := hw.sole m₂ map₂ hmap₂ e₂ he₂ h₂
  exact ⟨rfl, rfl, rfl⟩

/-- Every address of the kernel map is looked up in the kernel map. -/
theorem mapFor_kmap (v : ℕ) : mapFor kmap v = kmap := ite_self kmap

/-- **What is copied through a window** leaves the maps and the reference counts as they are, and changes
the bytes of objects as it says. -/
structure Through (held : List ObjId) (f : ObjId → ℕ → UInt8) (s s' : State) : Prop where
  inv : Inv held s'
  maps_eq : s'.maps = s.maps
  refcntOf_eq : refcntOf s' = refcntOf s
  objByte_eq : objByte s' = f

/-- A byte that is read through a window. -/
theorem Window.load_spec (hw : Window s.maps o base size) (h : Inv held s) (hlo : base ≤ v)
    (hhi : v < base + size) {b : UInt8} {s₁ : State} (htouch : touch s kmap v false a p = some s₁)
    (hload : load s₁ kmap v = some b) :
    b = objByte s o (v - base) ∧ Through held (objByte s) s s₁ := by
  obtain ⟨h₁, hfault⟩ := touch_spec h (fun hwrite => absurd hwrite Bool.false_ne_true) htouch
  rw [mapFor_kmap] at hfault
  have hw₁ : Window s₁.maps o base size := hfault.maps_eq ▸ hw
  obtain ⟨hop, hmod⟩ := hw₁.objPage_eq h₁ hlo hhi
  rw [load, Option.map_eq_some_iff, mapFor_kmap] at hload
  obtain ⟨pte, hpte, rfl⟩ := hload
  have hsame : objByte s₁ = objByte s := by
    funext o' i
    exact hfault.content_eq o' _ _
  refine ⟨?_, h₁, hfault.maps_eq, refcntOf_touch htouch, hsame⟩
  rw [bytes_eq_content h₁ hpte hop, hmod, ← hsame]
  rfl

/-- A byte that is written through a window. -/
theorem Window.store_spec (hw : Window s.maps o base size) (h : Inv held s) (hlo : base ≤ v)
    (hhi : v < base + size) {b : UInt8} {s₁ : State} (htouch : touch s kmap v true a p = some s₁)
    (hstore : store s₁ kmap v b = some s') :
    Through held (fun o' i => if o' = o ∧ i = v - base then b else objByte s o' i) s s' := by
  obtain ⟨h₁, hfault⟩ := touch_spec h (fun _ => by
    rw [mapFor_kmap]
    exact hw.cowAlone h hlo hhi) htouch
  rw [mapFor_kmap] at hfault
  have hw₁ : Window s₁.maps o base size := hfault.maps_eq ▸ hw
  obtain ⟨hop, hmod⟩ := hw₁.objPage_eq h₁ hlo hhi
  obtain ⟨pte, hpte, hwrite, rfl⟩ := store_eq hstore
  rw [mapFor_kmap] at hpte
  -- the byte goes to the page of the slot, which no other object shows
  obtain ⟨c, anon, hslot, hanon, hpage, hone⟩ := h₁.pte_shows hpte hop
  have hrefs : refcntOf s₁ = refcntOf s := refcntOf_touch htouch
  refine ⟨h₁.setByte _ b, hfault.maps_eq, hrefs, ?_⟩
  funext o' i
  rw [objByte, ← hpage, content_store h₁.sound.refs hslot hanon (hone hwrite), hmod,
    hfault.content_eq]
  refine if_congr ?_ rfl rfl
  refine and_congr_right fun _ => ⟨fun hi => ?_, fun hi => ?_⟩
  · obtain ⟨hdiv, hrem⟩ := hi
    rw [← Nat.div_add_mod i pgSize, hdiv, hrem, Nat.div_add_mod]
  · rw [hi]
    exact ⟨rfl, rfl⟩

/-- The end of a window is far from the top of the address space. -/
theorem Window.top (hw : Window s.maps o base size) (h : Inv held s) :
    pgSize ∣ base ∧ base + size < 2 ^ 64 := by
  obtain ⟨map, hmap, he⟩ := hw.entry
  have hentry := (h.mapsOk kmap map hmap).entry_ok _ he
  have htop := mapLo_top kmap
  have hhi := hentry.le_hi
  dsimp only at hhi
  exact ⟨hentry.start_dvd, by omega⟩

/-- **`memcpy` into a window** writes the bytes of the object. -/
theorem copyIn_spec {new : ℕ → AnonId × Page} {buf : List UInt8} {i : ℕ}
    (hw : Window s.maps o base size) (h : Inv held s) (hi : i + buf.length ≤ size)
    (hs : copyIn kmap new s (base + i) buf = some s') :
    Through held (fun o' j => if o' = o ∧ i ≤ j ∧ j < i + buf.length then buf.getD (j - i) 0
      else objByte s o' j) s s' := by
  -- by the bytes still to be written, `i` of them have been
  induction buf generalizing s i with
  | nil =>
      obtain rfl : s = s' := Option.some.inj hs
      refine ⟨h, rfl, rfl, ?_⟩
      funext o' j
      rw [if_neg]
      rintro ⟨-, hij, hji⟩
      rw [List.length_nil] at hji
      omega
  | cons b buf ih =>
      rw [List.length_cons] at hi
      have htop := (hw.top h).2
      obtain ⟨s₁, htouch, hs⟩ := Option.bind_eq_some_iff.mp hs
      obtain ⟨s₂, hstore, hs⟩ := Option.bind_eq_some_iff.mp hs
      have hbyte := hw.store_spec h (by omega) (by omega) htouch hstore
      have hadd : add64 (base + i) 1 = base + (i + 1) := add64_eq (by omega)
      rw [hadd] at hs
      have hrest := ih (hbyte.maps_eq ▸ hw) hbyte.inv (by omega) hs
      refine ⟨hrest.inv, hrest.maps_eq.trans hbyte.maps_eq,
        hrest.refcntOf_eq.trans hbyte.refcntOf_eq, ?_⟩
      rw [hrest.objByte_eq, hbyte.objByte_eq]
      funext o' j
      rw [List.length_cons, Nat.add_sub_cancel_left]
      by_cases ho : o' = o
      · simp only [ho, true_and]
        -- before the byte written here, the byte itself, or one of those that the rest writes
        rcases Nat.lt_trichotomy j i with hlt | rfl | hgt
        · rw [if_neg (by omega), if_neg (by omega), if_neg (by omega)]
        · rw [if_neg (by omega), if_pos rfl, if_pos (by omega), Nat.sub_self, List.getD_cons_zero]
        · obtain ⟨k, hk⟩ : ∃ k, j - i = k + 1 := ⟨j - i - 1, by omega⟩
          have hk' : j - (i + 1) = k := by omega
          rw [if_neg (show j ≠ i by omega), hk, hk', List.getD_cons_succ]
          refine if_congr ?_ rfl rfl
          omega
      · simp only [ho, false_and, if_false]

/-- **`memcpy` out of a window** reads the bytes of the object. -/
theorem copyOut_spec {new : ℕ → AnonId × Page} {buf : List UInt8} {i n : ℕ}
    (hw : Window s.maps o base size) (h : Inv held s) (hi : i + n ≤ size)
    (hs : copyOut kmap new s (base + i) n = some (buf, s')) :
    buf = (List.range n).map (fun k => objByte s o (i + k)) ∧ Through held (objByte s) s s' := by
  induction n generalizing s i buf with
  | zero =>
      obtain ⟨rfl, rfl⟩ := Prod.mk.inj (Option.some.inj hs)
      exact ⟨rfl, h, rfl, rfl, rfl⟩
  | succ n ih =>
      have htop := (hw.top h).2
      obtain ⟨s₁, htouch, hs⟩ := Option.bind_eq_some_iff.mp hs
      obtain ⟨b, hload, hs⟩ := Option.bind_eq_some_iff.mp hs
      obtain ⟨⟨rest, s₂⟩, hcopy, hs⟩ := Option.bind_eq_some_iff.mp hs
      obtain ⟨rfl, rfl⟩ := Prod.mk.inj (Option.some.inj hs)
      -- the first byte is loaded, the rest are copied from a state that shows the same bytes
      obtain ⟨hb, hbyte⟩ := hw.load_spec h (by omega) (by omega) htouch hload
      have hadd : add64 (base + i) 1 = base + (i + 1) := add64_eq (by omega)
      rw [hadd] at hcopy
      obtain ⟨hbuf, hrest⟩ := ih (hbyte.maps_eq ▸ hw) hbyte.inv (by omega) hcopy
      refine ⟨?_, hrest.inv, hrest.maps_eq.trans hbyte.maps_eq,
        hrest.refcntOf_eq.trans hbyte.refcntOf_eq, hrest.objByte_eq.trans hbyte.objByte_eq⟩
      rw [List.range_succ_eq_map, List.map_cons, List.map_map, hbuf, hb, hbyte.objByte_eq,
        Nat.add_sub_cancel_left]
      congr 1
      refine List.map_congr_left fun k _ => ?_
      show objByte s o (i + 1 + k) = objByte s o (i + (k + 1))
      congr 1
      omega

/-! ## Opening and closing -/

/-- A mapping is made or removed: the contents of objects are the same, and the object has another number
of references. -/
structure Remapped (held : List ObjId) (o : ObjId) (n : ℤ) (s s' : State) : Prop where
  inv : Inv held s'
  refcntOf_eq : ∀ o', refcntOf s' o' = if o' = o then some n else refcntOf s o'
  notMapped : ∀ o', o' ≠ o → NotMapped s.maps o' → NotMapped s'.maps o'
  objByte_eq : ∀ o', s'.objs.get? o' ≠ none → objByte s' o' = objByte s o'

/-- The reference count of an object is that of its record. -/
theorem refcntOf_eq_some {n : ℤ} :
    refcntOf s o = some n ↔ ∃ obj, s.objs.get? o = some obj ∧ obj.refcnt = n := Option.map_eq_some_iff

/-- **`vm_map_object`** opens a window to an object that is not mapped. -/
theorem open_spec {n : ℤ} (h : Inv held s) (hn : refcntOf s o = some n) (hroom : n < 2 ^ 31 - 1)
    (hpos : 0 ≤ n) (hnot : NotMapped s.maps o) (hsize : size < 2 ^ 64)
    (hs : vmMapObject s kmap o vaddrMax size 0 none = some (.ok base, s')) :
    Remapped held o (n + 1) s s' ∧ Window s'.maps o base size := by
  obtain ⟨obj, hobj, hrefcnt⟩ := refcntOf_eq_some.mp hn
  obtain ⟨hmod, s₁, hretain, hinsert⟩ := vmMapObject_cases hs
  have hlt : ∀ obj, s.objs.get? o = some obj → obj.refcnt < 2 ^ 31 - 1 := by
    intro obj' hobj'
    obtain rfl := Option.some.inj (hobj.symm.trans hobj')
    omega
  obtain ⟨hsound₁, hkept⟩ := retain_spec h.sound hlt hretain
  have h₁ : Inv (o :: held) s₁ := h.of_sound hkept.maps_eq hsound₁
  obtain ⟨h', hok⟩ := insert_spec h₁ (Nat.dvd_of_mod_eq_zero hmod) hsize (Nat.dvd_zero _) (.inl rfl)
    hinsert
  obtain ⟨-, map, vmem, hmap, rfl⟩ := hok base rfl
  have hget : ∀ m', (setMap s₁ kmap ⟨map.entries ++ [⟨base, base + size, 0, o⟩], vmem⟩).maps.get? m'
      = if m' = kmap then some ⟨map.entries ++ [⟨base, base + size, 0, o⟩], vmem⟩
        else s.maps.get? m' := by
    intro m'
    rw [← hkept.maps_eq]
    exact Heap.get?_set hmap _ m'
  rw [hkept.maps_eq] at hmap
  have hne : s.objs.get? o ≠ none := by
    rw [hobj]
    simp
  refine ⟨⟨h', fun o' => ?_, fun o' ho' hno m' map' hmap' e he => ?_, fun o' ho' => ?_⟩, ⟨?_, ?_⟩⟩
  · obtain ⟨obj', hobj', rfl⟩ := vmObjectRetain_eq hretain
    obtain rfl := Option.some.inj (hobj.symm.trans hobj')
    have hincr : incr 32 obj.refcnt = n + 1 := by
      unfold incr
      rw [if_neg (by omega), hrefcnt]
    rw [← hincr]
    exact refcntOf_setObj hobj o'
  · rw [hget] at hmap'
    split at hmap'
    · cases hmap'
      rcases List.mem_append.mp he with he | he
      · exact hno kmap map hmap e he
      · rw [List.mem_singleton.mp he]
        exact Ne.symm ho'
    · exact hno m' map' hmap' e he
  · funext i
    exact (hkept.keeps hne).content_eq hsound₁.refs ho' _ _
  · exact ⟨_, (hget kmap).trans (if_pos rfl), List.mem_append_right _ List.mem_cons_self⟩
  -- the object was not mapped, so the window is the only entry that maps it
  · intro m' map' hmap' e he heo
    rw [hget] at hmap'
    split at hmap'
    · rename_i hm'
      cases hmap'
      rcases List.mem_append.mp he with he | he
      · exact (hnot kmap map hmap e he heo).elim
      · exact ⟨hm', List.mem_singleton.mp he⟩
    · exact (hnot m' map' hmap' e he heo).elim

/-- Entries that are not in the range are passed over. -/
theorem deallocate_skip {start stop : ℕ} {l : List Entry}
    (hout : ∀ e ∈ l, e.start < e.stop ∧ ¬ (start ≤ e.start ∧ e.stop ≤ stop))
    (hs : l.foldlM (deallocateEntry start stop m) s = some s') : s' = s := by
  induction l generalizing s with
  | nil => exact (Option.some.inj hs).symm
  | cons e l ih =>
      rw [List.foldlM_cons] at hs
      obtain ⟨s₁, hfirst, hrest⟩ := Option.bind_eq_some_iff.mp hs
      obtain ⟨hne, hrange⟩ := hout e List.mem_cons_self
      have heq := deallocateEntry_eq hne hfirst
      rw [if_neg hrange] at heq
      rw [heq] at hrest
      exact ih (fun f hf => hout f (List.mem_cons_of_mem _ hf)) hrest

/-- **`vm_deallocate`** of a window removes its entry. -/
theorem Window.deallocate_eq (hw : Window s.maps o base size) (h : Inv held s)
    (hs : vmDeallocate s kmap base size = some s') :
    unmapEntry s kmap ⟨base, base + size, 0, o⟩ = some s' := by
  obtain ⟨map, hmap, he⟩ := hw.entry
  have hok := h.mapsOk kmap map hmap
  have htop := (hw.top h).2
  have hadd : add64 base size = base + size := add64_eq htop
  obtain ⟨l, l', hl⟩ := List.append_of_mem he
  have hnonempty := (hok.entry_ok _ he).nonempty
  dsimp only at hnonempty
  -- the other entries are apart from the window, so the loop passes them over
  have hout : ∀ e ∈ l ++ l', e.start < e.stop ∧ ¬ (base ≤ e.start ∧ e.stop ≤ base + size) := by
    intro f hf
    have hpairs := hok.apart
    rw [hl] at hpairs
    have hsymm : ∀ {e f : Entry}, e.Apart f → f.Apart e := fun h => Or.symm h
    have hapart := List.rel_of_pairwise_cons ((List.pairwise_middle hsymm).mp hpairs) hf
    have hmem : f ∈ map.entries := by
      rw [hl]
      rcases List.mem_append.mp hf with hf | hf
      · exact List.mem_append_left _ hf
      · exact List.mem_append_right _ (List.mem_cons_of_mem _ hf)
    have hlt := (hok.entry_ok f hmem).nonempty
    unfold Entry.Apart at hapart
    dsimp only at hapart
    omega
  unfold vmDeallocate at hs
  rw [hmap, hadd] at hs
  dsimp only [Option.bind_eq_bind, Option.bind_some] at hs
  rw [hl, List.foldlM_append] at hs
  obtain ⟨s₁, hbefore, hs⟩ := Option.bind_eq_some_iff.mp hs
  rw [List.foldlM_cons] at hs
  obtain ⟨s₂, hthis, hafter⟩ := Option.bind_eq_some_iff.mp hs
  obtain rfl := deallocate_skip (fun f hf => hout f (List.mem_append_left _ hf)) hbefore
  obtain rfl := deallocate_skip (fun f hf => hout f (List.mem_append_right _ hf)) hafter
  have heq := deallocateEntry_eq hnonempty hthis
  rwa [if_pos ⟨Nat.le_refl _, Nat.le_refl _⟩] at heq

/-- **`vm_deallocate`** closes a window. -/
theorem close_spec {n : ℤ} (hw : Window s.maps o base size) (h : Inv held s)
    (hn : refcntOf s o = some (n + 1)) (hpos : 0 < n)
    (hs : vmDeallocate s kmap base size = some s') :
    Remapped held o n s s' ∧ NotMapped s'.maps o := by
  obtain ⟨map, hmap, he⟩ := hw.entry
  have hun := hw.deallocate_eq h hs
  obtain ⟨h', hunmapped⟩ := unmap_spec h hmap he hun
  obtain ⟨vmem', hthis⟩ := hunmapped.this
  -- an entry that is left was there before
  have hleft : ∀ m' map', s'.maps.get? m' = some map' → ∀ f ∈ map'.entries,
      ∃ map₀, s.maps.get? m' = some map₀ ∧ f ∈ map₀.entries ∧
        ¬ (m' = kmap ∧ f = ⟨base, base + size, 0, o⟩) := by
    intro m' map' hmap' f hf
    by_cases hm' : m' = kmap
    · subst hm'
      rw [hthis] at hmap'
      cases hmap'
      have hnodup := (h.mapsOk kmap map hmap).nodup
      rw [hnodup.mem_erase_iff] at hf
      exact ⟨map, hmap, hf.2, fun hall => hf.1 hall.2⟩
    · rw [hunmapped.other m' hm'] at hmap'
      exact ⟨map', hmap', hf, fun hall => hm' hall.1⟩
  refine ⟨⟨h', fun o' => ?_, fun o' ho' hno m' map' hmap' f hf => ?_, fun o' ho' => ?_⟩, ?_⟩
  · obtain ⟨map₁, k, vmem, s₁, s₂, map₂, hmap₁, hfree, hunenter, hrel, hmap₂, rfl⟩ := unmapEntry_cases hun
    obtain ⟨-, f, g, rfl, -⟩ := unenterAll_spec (pvInv_setMap h.sound.pvInv _) hunenter
    obtain ⟨obj, hobj, hrefcnt⟩ := refcntOf_eq_some.mp hn
    obtain ⟨obj', hobj', hcases⟩ := vmObjectRelease_cases hrel
    obtain rfl := Option.some.inj (hobj.symm.trans hobj')
    have hdecr : decr 32 obj.refcnt = n := by
      rw [decr_of_pos (by omega), hrefcnt, add_sub_cancel_right]
    rw [hdecr] at hcases
    rcases hcases with ⟨-, rfl⟩ | ⟨hzero, -⟩
    · exact refcntOf_setObj hobj' o'
    · omega
  · obtain ⟨map₀, hmap₀, hf, -⟩ := hleft m' map' hmap' f hf
    exact hno m' map₀ hmap₀ f hf
  · funext i
    exact hunmapped.keeps.content_eq h'.sound.refs ho' _ _
  · intro m' map' hmap' f hf hfo
    obtain ⟨map₀, hmap₀, hf, hnot⟩ := hleft m' map' hmap' f hf
    exact hnot (hw.sole m' map₀ hmap₀ f hf hfo)

end Scalux.Vm
