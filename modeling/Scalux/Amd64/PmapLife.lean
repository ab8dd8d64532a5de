import Scalux.Amd64.PmapCalls

/-! # Making and freeing page tables

`x64_vm_init`, `pmap_new` and `pmap_free`.  The three loops go over different ranges of the top table:
`x64_vm_init` fills the entries from 255 to 510, `pmap_new` copies those from 255 to 511, and
`pmap_free` frees what is below those from 0 to 254.  The entry 511 is the boot loader's.

* **`Boot`**, **`init_spec`**: what the boot loader leaves, and what `x64_vm_init` makes of it.
* **`new_spec`**: a new pmap has the kernel's entries and no tables of its own.
* **`free_spec`**: `pmap_free` frees the tables that belong to the pmap, each of them once. -/

namespace Scalux.Pmap

variable {s s' : State} {m : PmapId} {π : List ℕ} {T p i virt : ℕ} {w : BitVec 64} {D : Scope}

/-! ## Boot -/

/-- What the boot loader leaves: the kernel's page tables, in the scope a tree without unused pages.
Entries of the top table from 255 on that point to something are present, and so is the last one. -/
structure Boot (D : Scope) (s : State) : Prop where
  tree : Tree D s
  only : ∀ m R, s.pmaps.get? m = some R → m = kpmap
  live : s.pmaps.get? kpmap ≠ none
  existing : ∀ K, s.pmaps.get? kpmap = some K → ∀ i, 255 ≤ i → i < 512 →
    pteGetAddr (s.mem (entryOf K i)) ≠ 0 → nextTable (s.mem (entryOf K i)) ≠ none
  last : ∀ K, s.pmaps.get? kpmap = some K → nextTable (s.mem (entryOf K 511)) ≠ none
  aligned : ∀ preg ∈ s.pregions, preg.base % pgSize = 0

/-- `x64_vm_init` at one entry of the top table. -/
theorem preallocate_spec {K : ℕ} (h : Tree D s) (hK : s.pmaps.get? kpmap = some K) (hi : i < 512)
    (hexisting : pteGetAddr (s.mem (entryOf K i)) ≠ 0 → nextTable (s.mem (entryOf K i)) ≠ none)
    (hs : preallocate K s i = some s') :
    Tree D s' ∧ (s'.pmaps = s.pmaps ∧ s'.pregions = s.pregions) ∧
      nextTable (s'.mem (entryOf K i)) ≠ none ∧
      ∀ j, j < 512 → j ≠ i → s'.mem (entryOf K j) = s.mem (entryOf K j) := by
  unfold preallocate at hs
  split at hs
  · rename_i hzero
    obtain ⟨⟨page, s₁⟩, halloc, hs⟩ := Option.bind_eq_some_iff.mp hs
    obtain ⟨freeq, hfreeq, rfl⟩ := vmPagealloc_eq_some halloc
    obtain rfl := Option.some.inj hs
    have hKf := h.isFrame (owned_nil D kpmap) hK
    have hp := h.freeq_frame page (hfreeq ▸ List.mem_cons_self)
    have hne : K ≠ page := by
      rintro rfl
      exact h.freeq_unused K (hfreeq ▸ List.mem_cons_self) kpmap [] (owned_nil D kpmap) hK
    -- a table of the scope is not at address 0
    have hfree : Owned D kpmap [i] → tableAt s kpmap [i] = none := by
      intro hown
      have hnext : tableAt s kpmap [i] = nextTable (s.mem (entryOf K i)) := by
        rw [tableAt_cons, tableAt_nil, hK]
        rfl
      cases hT : nextTable (s.mem (entryOf K i)) with
      | none => exact hnext.trans hT
      | some T =>
          have hT₀ := (h.isFrame hown (hnext.trans hT)).1
          unfold nextTable at hT
          split at hT
          · rw [hzero] at hT
            exact absurd (Option.some.inj hT).symm hT₀
          · cases hT
    refine ⟨tree_grow h hfreeq (owned_nil D kpmap) hK hi hfree, ⟨rfl, rfl⟩, ?_, fun j hj hji => ?_⟩
    · show nextTable ((grow s K i page freeq).mem (entryOf K i)) ≠ none
      rw [grow_entry hp]
      simp
    · exact grow_other hp hKf hKf hi hj hne fun _ => hji
  · rename_i hne
    obtain rfl := Option.some.inj hs
    exact ⟨h, ⟨rfl, rfl⟩, hexisting hne, fun _ _ _ => rfl⟩

/-- The loop of `x64_vm_init`. -/
theorem preallocateAll_spec {K : ℕ} {l : List ℕ} (h : Tree D s) (hK : s.pmaps.get? kpmap = some K)
    (hl : ∀ i ∈ l, i < 512)
    (hexisting : ∀ i ∈ l, pteGetAddr (s.mem (entryOf K i)) ≠ 0 →
      nextTable (s.mem (entryOf K i)) ≠ none)
    (hs : l.foldlM (preallocate K) s = some s') :
    Tree D s' ∧ (s'.pmaps = s.pmaps ∧ s'.pregions = s.pregions) ∧ (∀ i ∈ l, nextTable (s'.mem (entryOf K i)) ≠ none) ∧
      ∀ j, j < 512 → nextTable (s.mem (entryOf K j)) ≠ none →
        nextTable (s'.mem (entryOf K j)) ≠ none := by
  induction l generalizing s with
  | nil =>
      obtain rfl : s = s' := Option.some.inj hs
      exact ⟨h, ⟨rfl, rfl⟩, by simp, fun _ _ hj => hj⟩
  | cons i l ih =>
      rw [List.foldlM_cons] at hs
      obtain ⟨s₁, hone, hs⟩ := Option.bind_eq_some_iff.mp hs
      obtain ⟨h₁, ⟨hpmaps₁, hpregs₁⟩, hpresent, hother⟩ := preallocate_spec h hK (hl i List.mem_cons_self)
        (hexisting i List.mem_cons_self) hone
      -- an entry that is present stays so, whichever one is allocated next
      have hstays : ∀ j, j < 512 → nextTable (s.mem (entryOf K j)) ≠ none →
          nextTable (s₁.mem (entryOf K j)) ≠ none := by
        intro j hj hne
        by_cases hji : j = i
        · exact hji ▸ hpresent
        · rwa [hother j hj hji]
      have hexisting₁ : ∀ j ∈ l, pteGetAddr (s₁.mem (entryOf K j)) ≠ 0 →
          nextTable (s₁.mem (entryOf K j)) ≠ none := by
        intro j hj hne
        by_cases hji : j = i
        · exact hji ▸ hpresent
        · rw [hother j (hl j (List.mem_cons_of_mem _ hj)) hji] at hne ⊢
          exact hexisting j (List.mem_cons_of_mem _ hj) hne
      obtain ⟨h', ⟨hpmaps', hpregs'⟩, hall, hstays'⟩ := ih h₁ (hpmaps₁ ▸ hK)
        (fun j hj => hl j (List.mem_cons_of_mem _ hj)) hexisting₁ hs
      refine ⟨h', ⟨hpmaps'.trans hpmaps₁, hpregs'.trans hpregs₁⟩, fun j hj => ?_,
        fun j hj hne => hstays' j hj (hstays j hj hne)⟩
      rcases List.mem_cons.mp hj with rfl | hj
      · exact hstays' j (hl j List.mem_cons_self) hpresent
      · exact hall j hj

/-- **`x64_vm_init`** makes all entries from 255 on present. -/
theorem init_spec (h : Boot D s) (hs : x64VmInit s = some s') : Inv D s' ∧ s'.pmaps = s.pmaps := by
  unfold x64VmInit at hs
  obtain ⟨K, hK, hs⟩ := Option.bind_eq_some_iff.mp hs
  have hrange : ∀ i ∈ List.range' 255 256, 255 ≤ i ∧ i < 511 := fun i hi =>
    ⟨(List.mem_range'_1.mp hi).1, (List.mem_range'_1.mp hi).2⟩
  obtain ⟨h', ⟨hpmaps, hpregs⟩, hall, hstays⟩ := preallocateAll_spec h.tree hK
    (fun i hi => by have := hrange i hi; omega)
    (fun i hi => h.existing K hK i (hrange i hi).1 (by have := hrange i hi; omega)) hs
  refine ⟨⟨h', ⟨hpmaps ▸ h.live, ?_⟩, hpregs ▸ h.aligned⟩, hpmaps⟩
  intro m R K' hR hK' i hi hlt
  rw [hpmaps] at hR hK'
  obtain rfl := h.only m R hR
  obtain rfl := Option.some.inj (hR.symm.trans hK')
  obtain rfl := Option.some.inj (hR.symm.trans hK)
  refine ⟨rfl, ?_⟩
  by_cases hlast : i = 511
  · exact hlast ▸ hstays 511 (by omega) (h.last R hK)
  · exact hall i (List.mem_range'_1.mpr ⟨hi, by omega⟩)

/-! ## New pmaps -/

/-- The loop of `pmap_new`. -/
theorem copyEntries_eq {K : ℕ} {l : List ℕ} (hp : IsFrame p) (hK : IsFrame K) (hne : K ≠ p)
    (hl : ∀ i ∈ l, i < 512) (s : State) :
    ∃ mem, l.foldl (fun s i => pteSet s (entryOf p i) (s.mem (entryOf K i)) kMMUDefaultProt) s
        = { s with mem := mem } ∧
      (∀ i, i < 512 → mem (entryOf p i)
        = if i ∈ l then pteValue (s.mem (entryOf K i)) kMMUDefaultProt else s.mem (entryOf p i)) ∧
      ∀ T j, IsFrame T → j < 512 → T ≠ p → mem (entryOf T j) = s.mem (entryOf T j) := by
  induction l generalizing s with
  | nil => exact ⟨s.mem, rfl, fun i _ => by simp, fun _ _ _ _ _ => rfl⟩
  | cons i l ih =>
      have hi := hl i List.mem_cons_self
      set s₁ := pteSet s (entryOf p i) (s.mem (entryOf K i)) kMMUDefaultProt with hs₁
      -- the copy writes only into the new table, so the kernel's table is read unchanged by the later rounds
      have hother : ∀ T j, IsFrame T → j < 512 → T ≠ p → s₁.mem (entryOf T j) = s.mem (entryOf T j) := by
        intro T j hT hj hTp
        refine Function.update_of_ne (fun heq => hTp ?_) _ _
        exact (entryOf_inj hT hp hj hi heq).1
      have hself : ∀ j, j < 512 → s₁.mem (entryOf p j)
          = if j = i then pteValue (s.mem (entryOf K i)) kMMUDefaultProt else s.mem (entryOf p j) := by
        intro j hj
        show Function.update s.mem (entryOf p i) _ (entryOf p j) = _
        split
        · rename_i hji
          rw [hji, Function.update_self]
        · rename_i hji
          exact Function.update_of_ne (fun heq => hji (entryOf_inj hp hp hj hi heq).2) _ _
      obtain ⟨mem, hmem, hnew, hold⟩ := ih (fun j hj => hl j (List.mem_cons_of_mem _ hj)) s₁
      refine ⟨mem, hmem, fun j hj => ?_, fun T j hT hj hTp => (hold T j hT hj hTp).trans
        (hother T j hT hj hTp)⟩
      rw [hnew j hj, hother K j hK hj hne, hself j hj]
      by_cases hji : j = i
      · subst hji
        simp
      · simp [hji]

/-- What `pmap_new` does: the first free page is the top table of `m`.  Its user half is empty, its kernel
half is that of the kernel's top table `K`. -/
structure NewRoot (s s' : State) (m : PmapId) (page K : ℕ) : Prop where
  freeq : s.freeq = page :: s'.freeq
  pregions : s'.pregions = s.pregions
  kernel : s.pmaps.get? kpmap = some K
  dead : s.pmaps.get? m = none
  pmaps : ∀ m', s'.pmaps.get? m' = if m' = m then some page else s.pmaps.get? m'
  old : ∀ T j, IsFrame T → j < 512 → T ≠ page → s'.mem (entryOf T j) = s.mem (entryOf T j)
  user : ∀ j, j < 255 → s'.mem (entryOf page j) = 0
  copied : ∀ j, 255 ≤ j → j < 512 →
    s'.mem (entryOf page j) = pteValue (s.mem (entryOf K j)) kMMUDefaultProt

/-- What `pmap_new` does: a page of the free queue becomes a root with the kernel half of the entries. -/
theorem pmapNew_newRoot (h : Tree D s) (hs : pmapNew s m = some s') :
    ∃ page K, NewRoot s s' m page K := by
  unfold pmapNew at hs
  obtain ⟨⟨page, s₁⟩, halloc, hs⟩ := Option.bind_eq_some_iff.mp hs
  obtain ⟨freeq, hfreeq, rfl⟩ := vmPagealloc_eq_some halloc
  obtain ⟨K, hK, hs⟩ := Option.bind_eq_some_iff.mp hs
  obtain ⟨pmaps, hpmaps, hs⟩ := Option.bind_eq_some_iff.mp hs
  have hK : s.pmaps.get? kpmap = some K := hK
  have hpmaps : s.pmaps.alloc m page = some pmaps := hpmaps
  have hp := h.freeq_frame page (hfreeq ▸ List.mem_cons_self)
  have hKf := h.isFrame (owned_nil D kpmap) hK
  -- the fresh page is no table of the kernel map, as it was on the free queue
  have hKne : K ≠ page := by
    rintro rfl
    exact h.freeq_unused K (hfreeq ▸ List.mem_cons_self) kpmap [] (owned_nil D kpmap) hK
  obtain ⟨mem, hmem, hnew, hold⟩ := copyEntries_eq hp hKf hKne
    (l := List.range' 255 257) (fun i hi => by have := (List.mem_range'_1.mp hi).2; omega)
    { s with freeq := freeq, mem := clearPage s.mem page, pmaps := pmaps }
  obtain rfl := (Option.some.inj hs).symm.trans hmem
  refine ⟨page, K, hfreeq, rfl, hK, Heap.get?_of_alloc hpmaps, Heap.get?_alloc hpmaps, ?_, ?_, ?_⟩
  · exact fun T j hT hj hTp => (hold T j hT hj hTp).trans (clearPage_of_ne s.mem hp hT hTp hj)
  · intro j hj
    refine (hnew j (by omega)).trans ?_
    rw [if_neg fun hmem => by have := (List.mem_range'_1.mp hmem).1; omega]
    exact clearPage_self s.mem (by omega)
  -- the entries from 255 on are the kernel's, as the copying loop leaves them
  · intro j hj hlt
    refine (hnew j hlt).trans ?_
    rw [if_pos (List.mem_range'_1.mpr ⟨hj, by omega⟩)]
    exact congrArg (pteValue · kMMUDefaultProt) (clearPage_of_ne s.mem hp hKf hKne hlt)

section NewRoot

variable {page K : ℕ} (hn : NewRoot s s' m page K)
include hn

/-- The new map is not that of the kernel. -/
theorem NewRoot.ne_kpmap : m ≠ kpmap := by
  rintro rfl
  have hdead := hn.dead
  rw [hn.kernel] at hdead
  cases hdead

/-- The new root is a frame. -/
theorem NewRoot.frame (h : Tree D s) : IsFrame page :=
  h.freeq_frame page (hn.freeq ▸ List.mem_cons_self)

/-- The new root was no table before. -/
theorem NewRoot.unused (h : Tree D s) : Unused pteFormat (Owned D) s.pmaps.get? s.mem page :=
  h.freeq_unused page (hn.freeq ▸ List.mem_cons_self)

/-- The entries of the tables that were there. -/
theorem NewRoot.mem_eq (h : Tree D s) {m' : PmapId} (hπ : Owned D m' π) (hT : tableAt s m' π = some T)
    (hi : i < 512) : s'.mem (entryOf T i) = s.mem (entryOf T i) := by
  refine hn.old T i (h.isFrame hπ hT) hi ?_
  rintro rfl
  exact hn.unused h m' π hπ hT

/-- The new map has its root and no other table, the other maps have those they had. -/
theorem NewRoot.tableAt_eq (h : Tree D s) {m' : PmapId} (hπ : Owned D m' π) :
    tableAt s' m' π = if m' = m ∧ π = [] then some page else tableAt s m' π := by
  have hget : s'.pmaps.get? = Function.update s.pmaps.get? m (some page) := by
    funext m'
    rw [hn.pmaps, Function.update_apply]
  unfold tableAt
  rw [hget]
  refine h.forest.find_plant hn.dead (hn.unused h) (fun j hj => ?_) hn.old hπ
  show nextTable (s'.mem (entryOf page j)) = none
  rw [hn.user j (hj.user hn.ne_kpmap j (by simp))]
  exact nextTable_zero

/-- The tables form a tree again. -/
theorem NewRoot.tree (h : Tree D s) : Tree D s' := by
  have hnodup := hn.freeq ▸ h.freeq_nodup
  have hfind := fun m' π' (hπ' : Owned D m' π') => hn.tableAt_eq h hπ'
  refine ⟨h.forest.of_grown (hn.frame h) (hn.unused h) hfind, (List.nodup_cons.mp hnodup).2,
    fun q hq => ?_, fun q hq => ?_, ?_⟩
  · exact h.freeq_frame q (hn.freeq ▸ List.mem_cons_of_mem _ hq)
  · refine (h.freeq_unused q (hn.freeq ▸ List.mem_cons_of_mem _ hq)).of_grown ?_ hfind
    rintro rfl
    exact (List.nodup_cons.mp hnodup).1 hq
  · intro m' j ρ T' hm' hρ hT' hnone'
    have hj := hρ.lt j List.mem_cons_self
    rw [hfind m' ρ hρ.tail] at hT'
    rw [hfind m' (j :: ρ) hρ, if_neg (by simp)] at hnone'
    split at hT'
    · rename_i heq
      obtain ⟨rfl, rfl⟩ := heq
      obtain rfl := Option.some.inj hT'
      exact hn.user j (hρ.user hm' j (by simp))
    · rw [hn.mem_eq h hρ.tail hT' hj]
      exact h.absent m' j ρ T' hm' hρ hT' hnone'

/-- Every top table, the new one too, points where the kernel's did. -/
theorem NewRoot.next_eq (h : Inv D s) {m' : PmapId} {R : ℕ} (hR : s'.pmaps.get? m' = some R)
    (hi : 255 ≤ i) (hlt : i < 512) :
    nextTable (s'.mem (entryOf R i)) = nextTable (s.mem (entryOf K i)) := by
  rw [hn.pmaps] at hR
  split at hR
  · obtain rfl := Option.some.inj hR
    rw [hn.copied i hi hlt, nextTable_pteValue]
    -- the kernel's entry is present
    have hpresent := h.shared.next_ne_none hn.kernel hi hlt
    unfold nextTable at hpresent ⊢
    split at hpresent
    · rename_i hbit
      rw [if_pos hbit]
      rfl
    · exact absurd rfl hpresent
  · rw [hn.mem_eq h.tree (owned_nil D m') hR hlt]
    exact (h.shared.same m' R K hR hn.kernel i hi hlt).1

/-- The kernel half is shared again. -/
theorem NewRoot.shared (h : Inv D s) : Shared s' := by
  have hK : s'.pmaps.get? kpmap = some K := by
    rw [hn.pmaps, if_neg hn.ne_kpmap.symm]
    exact hn.kernel
  refine ⟨by rw [hK]; simp, fun m' R K₁ hR hK₁ j hj hlt => ?_⟩
  rw [hn.next_eq h hR hj hlt, hn.next_eq h hK₁ hj hlt]
  exact ⟨rfl, h.shared.next_ne_none hn.kernel hj hlt⟩

/-- A top table is not a leaf's. -/
theorem NewRoot.word_eq (h : Tree D s) {m' : PmapId} (hπ : Owned D m' π) (hlen : π.length = 3)
    (hi : i < 512) : word s' m' π i = word s m' π i := by
  have hT := hn.tableAt_eq h hπ
  rw [if_neg (by rintro ⟨-, rfl⟩; cases hlen)] at hT
  cases hT' : tableAt s m' π with
  | none =>
      rw [hT'] at hT
      rw [word_of_none hT, word_of_none hT']
  | some T' =>
      rw [hT'] at hT
      rw [word_of_some hT, word_of_some hT', hn.mem_eq h hπ hT' hi]

end NewRoot

/-- **`pmap_new`** adds a pmap without tables of its own, and changes no leaf. -/
theorem new_spec (h : Inv D s) (hs : pmapNew s m = some s') :
    Inv D s' ∧ s.pmaps.get? m = none ∧ (∃ R, ∀ m', s'.pmaps.get? m'
      = if m' = m then some R else s.pmaps.get? m') ∧
      ∀ m' π', Owned D m' π' → π'.length = 3 → ∀ k, k < 512 → word s' m' π' k = word s m' π' k := by
  obtain ⟨page, K, hn⟩ := pmapNew_newRoot h.tree hs
  refine ⟨⟨hn.tree h.tree, hn.shared h, ?_⟩, hn.dead, ⟨page, hn.pmaps⟩, ?_⟩
  · rw [hn.pregions]
    exact h.aligned
  · exact fun m' π' hπ' hlen k hk => hn.word_eq h.tree hπ' hlen hk

/-! ## Freeing -/

/-- The tables that `pmap_free_sub` frees, in the order in which it does. -/
def freed (mem : ℕ → BitVec 64) : ℕ → ℕ → List ℕ
  | 0, table => if table = 0 then [] else [table]
  | level + 1, table =>
      if table = 0 then []
      else (if 1 < level + 1 then
          (List.range 512).flatMap fun i => freed mem level (pteGetAddr (mem (entryOf table i))).toNat
        else []) ++ [table]

/-- The paths to them. -/
def below : ℕ → List ℕ → List (List ℕ)
  | 0, π => [π]
  | level + 1, π =>
      (if 1 < level + 1 then (List.range 512).flatMap fun i => below level (i :: π) else []) ++ [π]

/-- A page of a region is the page of its address. -/
theorem vmPageFromPaddr_eq {pregions : List Pregion} {page : ℕ}
    (haligned : ∀ preg ∈ pregions, preg.base % pgSize = 0) (hT : T % 4096 = 0)
    (h : vmPageFromPaddr pregions T = some page) : page = T := by
  unfold vmPageFromPaddr at h
  obtain ⟨preg, hfind, rfl⟩ := Option.map_eq_some_iff.mp h
  have hbase := haligned preg (List.mem_of_find?_eq_some hfind)
  have hin := List.find?_some hfind
  simp only [Bool.and_eq_true, decide_eq_true_eq] at hin
  unfold pgSize at *
  omega

/-- A loop that frees pages puts them on the queue, the last one first. -/
theorem foldlM_freeq {f : State → ℕ → Option State} {g : ℕ → List ℕ} {l : List ℕ}
    (hf : ∀ freeq i s₂, f { s with freeq := freeq } i = some s₂ →
      s₂ = { s with freeq := (g i).reverse ++ freeq })
    (hs : l.foldlM f s = some s') : s' = { s with freeq := (l.flatMap g).reverse ++ s.freeq } := by
  have hgen : ∀ freeq, l.foldlM f { s with freeq := freeq } = some s' →
      s' = { s with freeq := (l.flatMap g).reverse ++ freeq } := by
    clear hs
    induction l with
    | nil => exact fun freeq hs => (Option.some.inj hs).symm
    | cons i l ih =>
        intro freeq hs
        rw [List.foldlM_cons] at hs
        obtain ⟨s₁, hone, hs⟩ := Option.bind_eq_some_iff.mp hs
        obtain rfl := hf freeq i s₁ hone
        rw [ih _ hs, List.flatMap_cons, List.reverse_append, List.append_assoc]
  exact hgen s.freeq hs

/-- A table is put at the head of the free queue. -/
theorem freeTable_eq (haligned : ∀ preg ∈ s.pregions, preg.base % pgSize = 0) (hT : T % 4096 = 0)
    (hs : freeTable s T = some s') : s' = { s with freeq := T :: s.freeq } := by
  unfold freeTable at hs
  obtain ⟨page, hpage, hfree⟩ := Option.bind_eq_some_iff.mp hs
  obtain rfl := vmPageFromPaddr_eq haligned hT hpage
  exact (Option.some.inj hfree).symm

/-- **`pmap_free_sub`** frees the tables, and does nothing else. -/
theorem freeSub_eq {level : ℕ} (haligned : ∀ preg ∈ s.pregions, preg.base % pgSize = 0)
    (hT : T % 4096 = 0) (hs : pmapFreeSub level s T = some s') :
    s' = { s with freeq := (freed s.mem level T).reverse ++ s.freeq } := by
  induction level generalizing s s' T with
  | zero =>
      rw [pmapFreeSub] at hs
      rw [freed]
      split at hs
      · rename_i hzero
        rw [if_pos hzero]
        exact (Option.some.inj hs).symm
      · rename_i hne
        rw [if_neg hne]
        exact freeTable_eq haligned hT hs
  | succ level ih =>
      rw [pmapFreeSub] at hs
      rw [freed]
      split at hs
      · rename_i hzero
        rw [if_pos hzero]
        exact (Option.some.inj hs).symm
      rename_i hne
      rw [if_neg hne]
      obtain ⟨s₁, hloop, hs⟩ := Option.bind_eq_some_iff.mp hs
      -- the loop over the entries is entered above the lowest level only
      have hs₁ : s₁ = { s with freeq := (if 1 < level + 1 then (List.range 512).flatMap fun i =>
          freed s.mem level (pteGetAddr (s.mem (entryOf T i))).toNat else []).reverse ++ s.freeq } := by
        split at hloop
        · rename_i hlevel
          rw [if_pos hlevel]
          refine foldlM_freeq (g := fun i => freed s.mem level _) (fun freeq i s₂ hone => ?_) hloop
          exact ih (s := { s with freeq := freeq }) haligned (pteGetAddr_mod _) hone
        · rename_i hlevel
          rw [if_neg hlevel]
          exact (Option.some.inj hloop).symm
      have haligned₁ : ∀ preg ∈ s₁.pregions, preg.base % pgSize = 0 := hs₁ ▸ haligned
      rw [freeTable_eq haligned₁ hT hs, hs₁, List.reverse_append]
      rfl

/-- The paths go on from where they start. -/
theorem below_suffix {level : ℕ} {ρ : List ℕ} (h : ρ ∈ below level π) : π <:+ ρ := by
  induction level generalizing π with
  | zero =>
      obtain rfl : ρ = π := by simpa [below] using h
      exact List.suffix_rfl
  | succ level ih =>
      rw [below, List.mem_append, List.mem_singleton] at h
      rcases h with h | rfl
      · split at h
        · obtain ⟨i, -, hi⟩ := List.mem_flatMap.mp h
          exact (List.suffix_cons i π).trans (ih hi)
        · cases h
      · exact List.suffix_rfl

/-- Paths through different entries are different. -/
theorem nodup_flatMap_below {level n : ℕ} (h : ∀ i, (below level (i :: π)).Nodup) :
    ((List.range n).flatMap fun i => below level (i :: π)).Nodup := by
  refine List.nodup_flatMap.mpr ⟨fun i _ => h i, List.nodup_range.imp fun {i j} hne ρ hi hj => ?_⟩
  have hsuffix := List.suffix_of_suffix_length_le (below_suffix hi) (below_suffix hj) le_rfl
  exact hne (List.cons.inj (hsuffix.eq_of_length rfl)).1

/-- The paths below a path are different. -/
theorem nodup_below (level : ℕ) (π : List ℕ) : (below level π).Nodup := by
  induction level generalizing π with
  | zero => exact List.nodup_singleton π
  | succ level ih =>
      rw [below]
      split
      · refine List.nodup_append.mpr ⟨nodup_flatMap_below fun i => ih (i :: π),
          List.nodup_singleton π, ?_⟩
        rintro ρ hρ π' hπ' rfl
        obtain rfl := List.mem_singleton.mp hπ'
        obtain ⟨i, -, hi⟩ := List.mem_flatMap.mp hρ
        have := (below_suffix hi).length_le
        rw [List.length_cons] at this
        omega
      · exact List.nodup_singleton π

/-- Where there is no table there are none further on. -/
theorem tableAt_none_of_suffix {ρ : List ℕ} (h : π <:+ ρ) (hnone : tableAt s m π = none) :
    tableAt s m ρ = none := by
  obtain ⟨l, rfl⟩ := h
  induction l with
  | nil => exact hnone
  | cons i l ih =>
      rw [List.cons_append, tableAt_cons, ih]
      rfl

/-- Below a table of its own a pmap has tables of its own. -/
theorem owned_cons (hm : m ≠ kpmap) (hπ : Owned D m π) (hne : π ≠ []) (hlen : π.length ≤ 2)
    (hi : i < 512) : Owned D m (i :: π) where
  length_le := Nat.succ_le_succ hlen
  lt j hj := by
    rcases List.mem_cons.mp hj with rfl | hj
    · exact hi
    · exact hπ.lt j hj
  scope heq := absurd heq hm
  user _ j hj := by
    cases π with
    | nil => exact absurd rfl hne
    | cons k π =>
        rw [List.getLast?_cons_cons] at hj
        exact hπ.user hm j hj

/-- The paths of a pmap's own tables lead to such tables. -/
theorem owned_below {level : ℕ} {ρ : List ℕ} (hm : m ≠ kpmap) (hπ : Owned D m π) (hne : π ≠ [])
    (hlen : π.length + level ≤ 4) (h : ρ ∈ below level π) : Owned D m ρ := by
  induction level generalizing π with
  | zero =>
      rw [below, List.mem_singleton] at h
      exact h ▸ hπ
  | succ level ih =>
      rw [below, List.mem_append, List.mem_singleton] at h
      rcases h with h | rfl
      · split at h
        · obtain ⟨i, hi, hρ⟩ := List.mem_flatMap.mp h
          refine ih (owned_cons hm hπ hne (by omega) (List.mem_range.mp hi)) (by simp) ?_ hρ
          rw [List.length_cons]
          omega
        · cases h
      · exact hπ

/-- **`pmap_free_sub` frees the tables of the pmap** at and below an entry, in the order of their
paths. -/
theorem freed_eq {level : ℕ} (h : Tree D s) (hm : m ≠ kpmap) (hπ : Owned D m (i :: π))
    (hlen : (i :: π).length + level = 4) (hT : tableAt s m π = some T) :
    freed s.mem level (pteGetAddr (s.mem (entryOf T i))).toNat
      = (below level (i :: π)).filterMap (tableAt s m) := by
  induction level generalizing i π T with
  | zero =>
      have := hπ.length_le
      omega
  | succ level ih =>
      have hnext : tableAt s m (i :: π) = nextTable (s.mem (entryOf T i)) := by
        rw [tableAt_cons, hT]
        rfl
      cases hT' : tableAt s m (i :: π) with
      | none =>
          -- the entry is zero
          have hall : ∀ ρ ∈ below (level + 1) (i :: π), tableAt s m ρ = none := fun ρ hρ =>
            tableAt_none_of_suffix (below_suffix hρ) hT'
          rw [h.absent m i π T hm hπ hT hT', List.filterMap_eq_nil_iff.mpr hall]
          rfl
      | some T' =>
          have haddr : (pteGetAddr (s.mem (entryOf T i))).toNat = T' := by
            rw [hnext] at hT'
            unfold nextTable at hT'
            split at hT'
            · exact Option.some.inj hT'
            · cases hT'
          rw [haddr, freed, below, if_neg (h.isFrame hπ hT').1, List.filterMap_append,
            List.filterMap_cons_some hT', List.filterMap_nil]
          congr 1
          split
          · rename_i hlevel
            rw [List.filterMap_flatMap]
            refine List.flatMap_congr fun j hj => ?_
            refine ih (owned_cons hm hπ (by simp) (by omega) (List.mem_range.mp hj)) ?_ hT'
            rw [List.length_cons]
            omega
          · rfl

/-- The paths to all tables that belong to a user pmap, but its top table. -/
def userPaths : List (List ℕ) := (List.range 255).flatMap fun i => below 3 [i]

/-- The paths of user space are different. -/
theorem nodup_userPaths : userPaths.Nodup := nodup_flatMap_below fun i => nodup_below 3 [i]

/-- The entries of user space belong to the map. -/
theorem owned_top (D : Scope) (hm : m ≠ kpmap) (hi : i < 255) : Owned D m [i] where
  length_le := by simp
  lt j hj := by
    obtain rfl := List.mem_singleton.mp hj
    omega
  scope heq := absurd heq hm
  user _ j hj := by
    obtain rfl : i = j := by simpa using hj
    exact hi

/-- Every path of user space belongs to the map, and none is the root. -/
theorem owned_userPaths (D : Scope) (hm : m ≠ kpmap) (hπ : π ∈ userPaths) : Owned D m π ∧ π ≠ [] := by
  obtain ⟨i, hi, hπ⟩ := List.mem_flatMap.mp hπ
  refine ⟨owned_below hm (owned_top D hm (List.mem_range.mp hi)) (by simp) (by simp) hπ, ?_⟩
  rintro rfl
  exact absurd (below_suffix hπ).length_le (by simp)

/-- Different paths lead to different tables. -/
theorem nodup_userTables (h : Tree D s) (hm : m ≠ kpmap) :
    (userPaths.filterMap (tableAt s m)).Nodup := by
  refine List.pairwise_filterMap.mpr (nodup_userPaths.imp_of_mem fun {π ρ} hπ hρ hne => ?_)
  rintro T hT T' hT' rfl
  exact hne (h.inj (owned_userPaths D hm hπ).1 (owned_userPaths D hm hρ).1 hT hT').2

/-- `pmap_free` frees the tables of the pmap. -/
theorem pmapFree_eq (h : Inv D s) (hm : m ≠ kpmap) (hs : pmapFree s m = some s') :
    s' = { s with
      freeq := (userPaths.filterMap (tableAt s m)).reverse ++ s.freeq
      pmaps := s.pmaps.free m } := by
  unfold pmapFree at hs
  obtain ⟨R, hR, hs⟩ := Option.bind_eq_some_iff.mp hs
  obtain ⟨s₁, hloop, hs⟩ := Option.bind_eq_some_iff.mp hs
  obtain rfl := Option.some.inj hs
  -- one top-level entry gives back its whole tree; the loop gives back the 255 of user space
  have hone : ∀ freeq i s₂,
      pmapFreeSub 3 { s with freeq := freeq } (pteGetAddr (s.mem (entryOf R i))).toNat = some s₂ →
      s₂ = { s with freeq :=
        (freed s.mem 3 (pteGetAddr (s.mem (entryOf R i))).toNat).reverse ++ freeq } :=
    fun freeq i s₂ hfree =>
      freeSub_eq (s := { s with freeq := freeq }) h.aligned (pteGetAddr_mod _) hfree
  have hs₁ := foldlM_freeq
    (f := fun s i => pmapFreeSub 3 s (pteGetAddr (s.mem (entryOf R i))).toNat) hone hloop
  have hlist : ((List.range 255).flatMap fun i =>
      freed s.mem 3 (pteGetAddr (s.mem (entryOf R i))).toNat)
        = userPaths.filterMap (tableAt s m) := by
    rw [userPaths, List.filterMap_flatMap]
    exact List.flatMap_congr fun i hi =>
      freed_eq h.tree hm (owned_top D hm (List.mem_range.mp hi)) rfl hR
  rw [hs₁, hlist]

/-- **`pmap_free`** frees each table that belongs to the pmap once, and no other one. -/
theorem free_spec (h : Inv D s) (hm : m ≠ kpmap) (hs : pmapFree s m = some s') :
    Inv D s' ∧ s'.mem = s.mem ∧
      (∀ m', s'.pmaps.get? m' = if m' = m then none else s.pmaps.get? m') ∧
      ∃ l, s'.freeq = l ++ s.freeq ∧ ∀ T ∈ l, ∃ π, Owned D m π ∧ π ≠ [] ∧ tableAt s m π = some T := by
  obtain rfl := pmapFree_eq h hm hs
  have hget : ∀ m', (s.pmaps.free m).get? m' = if m' = m then none else s.pmaps.get? m' :=
    Heap.get?_free s.pmaps m
  set l := (userPaths.filterMap (tableAt s m)).reverse with hl
  have hmem : ∀ T ∈ l, ∃ π, Owned D m π ∧ π ≠ [] ∧ tableAt s m π = some T := by
    intro T hT
    obtain ⟨π, hπ, hTπ⟩ := List.mem_filterMap.mp (List.mem_reverse.mp hT)
    obtain ⟨hown, hne⟩ := owned_userPaths D hm hπ
    exact ⟨π, hown, hne, hTπ⟩
  have hfind : ∀ m' π', tableAt { s with freeq := l ++ s.freeq, pmaps := s.pmaps.free m } m' π'
      = if m' = m then none else tableAt s m' π' :=
    find_cut (by rw [hget, if_pos rfl]) fun m' hm' => by rw [hget, if_neg hm']
  -- the tables of the other pmaps are found where they were
  have hold : ∀ {m' π' T}, tableAt { s with freeq := l ++ s.freeq, pmaps := s.pmaps.free m } m' π'
      = some T → m' ≠ m ∧ tableAt s m' π' = some T := by
    intro m' π' T hT
    rw [hfind] at hT
    split at hT
    · cases hT
    · exact ⟨‹_›, hT⟩
  refine ⟨⟨⟨h.tree.forest.of_cut hfind, ?_, ?_, ?_, ?_⟩, ⟨?_, ?_⟩, h.aligned⟩, rfl, hget, l, rfl,
    hmem⟩
  · refine List.nodup_append.mpr ⟨?_, h.tree.freeq_nodup, ?_⟩
    · rw [hl, List.nodup_reverse]
      exact nodup_userTables h.tree hm
    -- a table in use was not on the free queue, so no page is on it twice
    · rintro T hT T' hT' rfl
      obtain ⟨π, hown, -, hTπ⟩ := hmem T hT
      exact h.tree.freeq_unused T hT' m π hown hTπ
  · intro p hp
    rcases List.mem_append.mp hp with hp | hp
    · obtain ⟨π, hown, -, hpπ⟩ := hmem p hp
      exact h.tree.isFrame hown hpπ
    · exact h.tree.freeq_frame p hp
  · intro p hp m' π' hπ' hT
    obtain ⟨hm', hT⟩ := hold hT
    rcases List.mem_append.mp hp with hp | hp
    · obtain ⟨π, hown, -, hpπ⟩ := hmem p hp
      exact hm' (h.tree.inj hπ' hown hT hpπ).1
    · exact h.tree.freeq_unused p hp m' π' hπ' hT
  · intro m' i π' T hm' hπ' hT hnone
    obtain ⟨hne, hT⟩ := hold hT
    rw [hfind, if_neg hne] at hnone
    exact h.tree.absent m' i π' T hm' hπ' hT hnone
  · show (s.pmaps.free m).get? kpmap ≠ none
    rw [hget, if_neg hm.symm]
    exact h.shared.live
  · intro m' R K hR hK
    have hR : (s.pmaps.free m).get? m' = some R := hR
    have hK : (s.pmaps.free m).get? kpmap = some K := hK
    rw [hget] at hR hK
    rw [if_neg hm.symm] at hK
    split at hR
    · cases hR
    · exact h.shared.same m' R K hR hK

end Scalux.Pmap
