import Scalux.Amd64.PmapLife

/-! # Page tables as maps from pages to entries

What page tables are for: each pmap maps every page to an entry, or to zero.  The kernel's part, from
entry 255 of the top table on, is one for all pmaps.

* **`refStep`**: what a call does to these maps.
* **`page_tables_refine`**: in every run the entry that `pmap_fully_descend` finds is that of the map.
* **`kernel_half_shared`**: every pmap finds the kernel's entries at kernel addresses, whenever they
  have been made, and `pmap_free` frees none of the tables they are in. -/

namespace Scalux.Pmap

variable {s s' : State} {m : PmapId} {virt : ℕ} {w : BitVec 64} {D : Scope}

/-! ## Maps from pages to entries -/

/-- The entry of each page in each pmap; zero where the page is not mapped. -/
abbrev Tables := PmapId → ℕ → BitVec 64

/-- Assigning the entry of the page of an address, in one pmap or in all of them. -/
def setRef (M : Tables) (m : PmapId) (virt : ℕ) (w : BitVec 64) : Tables := fun m' n =>
  if n = virt / pgSize ∧ (255 ≤ pml4i virt ∨ m' = m) then w else M m' n

/-- What a call does. -/
def refStep (M : Tables) : Action → Tables
  | .pmapNew m => Function.update M m fun n => if 255 ≤ pml4i (n * pgSize) then M kpmap n else 0
  | .pmapFree _ => M
  | .pmapEnter m page virt prot =>
      setRef M m virt (pteValue (BitVec.ofNat 64 page) (vmProtToI386 prot))
  | .pmapEnterKern m phys virt prot => setRef M m virt (pteValue phys (vmProtToI386 prot))
  | .pmapUnenter m _ vaddr _ => setRef M m vaddr 0
  | .pmapUnenterKern m vaddr => setRef M m vaddr 0
  | .requeue _ => M

/-- The page that a call maps or unmaps. -/
def Action.page : Action → Option ℕ
  | .pmapEnter _ _ virt _ => some (virt / pgSize)
  | .pmapEnterKern _ _ virt _ => some (virt / pgSize)
  | .pmapUnenter _ _ vaddr _ => some (vaddr / pgSize)
  | .pmapUnenterKern _ vaddr => some (vaddr / pgSize)
  | _ => none

/-- The kernel's tables for the address of a call are in the scope. -/
def CallInScope (D : Scope) (_ : State) : Action → Prop
  | .pmapEnter m _ virt _ => InScope D m virt
  | .pmapEnterKern m _ virt _ => InScope D m virt
  | .pmapUnenter m _ vaddr _ => InScope D m vaddr
  | .pmapUnenterKern m vaddr => InScope D m vaddr
  | _ => True

/-- The tables show these maps. -/
def Models (D : Scope) (s : State) (M : Tables) : Prop :=
  ∀ m R, s.pmaps.get? m = some R → ∀ virt, canonical virt = true → InScope D m virt →
    leafPte s m virt = some (M m (virt / pgSize))

/-- The maps that the tables show. -/
def shown (s : State) : Tables := fun m n => (leafPte s m (n * pgSize)).getD 0

/-! ## Addresses -/

/-- The last nine bits are the remainder by 512. -/
theorem index_eq (n : ℕ) : n &&& 0x1FF = n % 512 := Nat.and_two_pow_sub_one_eq_mod n 9

/-- Bits 39 to 47: `virt / 2 ^ 39 % 512`. -/
theorem pml4i_eq (virt : ℕ) : pml4i virt = virt / 2 ^ 39 % 512 := by
  rw [pml4i, index_eq, Nat.shiftRight_eq_div_pow]

/-- Bits 30 to 38: `virt / 2 ^ 30 % 512`. -/
theorem pdpti_eq (virt : ℕ) : pdpti virt = virt / 2 ^ 30 % 512 := by
  rw [pdpti, index_eq, Nat.shiftRight_eq_div_pow]

/-- Bits 21 to 29: `virt / 2 ^ 21 % 512`. -/
theorem pdi_eq (virt : ℕ) : pdi virt = virt / 2 ^ 21 % 512 := by
  rw [pdi, index_eq, Nat.shiftRight_eq_div_pow]

/-- Bits 12 to 20: `virt / 2 ^ 12 % 512`. -/
theorem pti_eq (virt : ℕ) : pti virt = virt / 2 ^ 12 % 512 := by
  rw [pti, index_eq, Nat.shiftRight_eq_div_pow]

/-- The indices of an address are those of its page. -/
theorem indices_of_page {virt' : ℕ} (h : virt / pgSize = virt' / pgSize) :
    path virt = path virt' ∧ pti virt = pti virt' := by
  unfold path
  rw [pml4i_eq, pdpti_eq, pdi_eq, pti_eq, pml4i_eq, pdpti_eq, pdi_eq, pti_eq]
  unfold pgSize at h
  have h₁ : virt / 2 ^ 21 = virt' / 2 ^ 21 := by omega
  have h₂ : virt / 2 ^ 30 = virt' / 2 ^ 30 := by omega
  have h₃ : virt / 2 ^ 39 = virt' / 2 ^ 39 := by omega
  have h₀ : virt / 2 ^ 12 = virt' / 2 ^ 12 := h
  rw [h₀, h₁, h₂, h₃]
  exact ⟨rfl, rfl⟩

/-- **Different pages have different indices**, among the addresses that the processor translates. -/
theorem page_of_indices {virt' : ℕ} (hv : canonical virt = true) (hv' : canonical virt' = true)
    (hpath : path virt = path virt') (hpti : pti virt = pti virt') :
    virt / pgSize = virt' / pgSize := by
  unfold path at hpath
  simp only [List.cons.injEq, and_true] at hpath
  obtain ⟨hpdi, hpdpti, hpml4i⟩ := hpath
  rw [pti_eq, pti_eq] at hpti
  rw [pdi_eq, pdi_eq] at hpdi
  rw [pdpti_eq, pdpti_eq] at hpdpti
  rw [pml4i_eq, pml4i_eq] at hpml4i
  simp only [canonical, Bool.or_eq_true, Bool.and_eq_true, decide_eq_true_eq] at hv hv'
  unfold pgSize
  omega

/-- The path determines the index of the top level. -/
theorem pml4i_of_path {virt' : ℕ} (h : path virt = path virt') : pml4i virt = pml4i virt' := by
  unfold path at h
  simp only [List.cons.injEq, and_true] at h
  exact h.2.2

/-- The path determines whose tables are walked. -/
theorem owner_of_path {virt' : ℕ} (h : path virt = path virt') : owner m virt = owner m virt' := by
  unfold owner
  rw [pml4i_of_path h]

/-- Two pmaps have their tables for an address in common. -/
theorem owner_eq_iff {m' : PmapId} : owner m' virt = owner m virt ↔ 255 ≤ pml4i virt ∨ m' = m := by
  unfold owner
  split
  · rename_i hge
    exact ⟨fun _ => .inl hge, fun _ => rfl⟩
  · rename_i hlt
    exact ⟨.inr, fun hor => hor.resolve_left hlt⟩

/-- What is found at an address depends on its indices. -/
theorem leafPte_of_indices {virt' : ℕ} (hpath : path virt = path virt') (hpti : pti virt = pti virt') :
    leafPte s m virt = leafPte s m virt' := by
  unfold path at hpath
  simp only [List.cons.injEq, and_true] at hpath
  obtain ⟨hpdi, hpdpti, hpml4i⟩ := hpath
  unfold leafPte pmapFullyDescend
  rw [hpdi, hpdpti, hpml4i, hpti]

/-- What is found depends on the memory and on the top table. -/
theorem leafPte_congr (hmem : s'.mem = s.mem) (hget : s'.pmaps.get? m = s.pmaps.get? m) (virt : ℕ) :
    leafPte s' m virt = leafPte s m virt := by
  unfold leafPte pmapFullyDescend
  simp only [pmapDescend_lookup, Option.bind_eq_bind, Option.bind_some, hmem, hget]

/-! ## Calls -/

/-- The tables model what they show. -/
theorem models_shown (h : Inv D s) : Models D s (shown s) := by
  intro m R hR virt _ hin
  have hpage : (virt / pgSize * pgSize) / pgSize = virt / pgSize :=
    Nat.mul_div_cancel _ (by decide)
  obtain ⟨hpath, hpti⟩ := indices_of_page hpage
  rw [shown, leafPte_of_indices hpath hpti, leafPte_eq h hR hin]
  rfl

/-- Assigning a leaf assigns the entry of one page. -/
theorem models_leafSet {M : Tables} (h : Inv D s) (h' : Inv D s') (hM : Models D s M)
    (hv : canonical virt = true) (hset : LeafSet D m virt w s s') :
    Models D s' (setRef M m virt w) := by
  intro m' R hR virt' hv' hin
  have hR₀ : s.pmaps.get? m' = some R := hset.pmaps_eq ▸ hR
  have hold := hM m' R hR₀ virt' hv' hin
  rw [leafPte_eq h hR₀ hin] at hold
  rw [leafPte_eq h' hR hin, hset.word_eq _ _ (owned_path hin) rfl _ (pti_lt virt'), setRef,
    Option.some.inj hold]
  refine congrArg some (if_congr ?_ rfl rfl)
  constructor
  · rintro ⟨howner, hpath, hpti⟩
    rw [owner_of_path hpath, owner_eq_iff] at howner
    exact ⟨page_of_indices hv' hv hpath hpti, howner⟩
  · rintro ⟨hpage, howner⟩
    obtain ⟨hpath, hpti⟩ := indices_of_page hpage
    rw [owner_of_path hpath, owner_eq_iff]
    exact ⟨howner, hpath, hpti⟩

/-- A pmap that is not there has no tables. -/
theorem word_of_dead (h : s.pmaps.get? m = none) (π : List ℕ) (k : ℕ) : word s m π k = 0 := by
  refine word_of_none ?_ k
  induction π with
  | nil => exact h
  | cons j π ih =>
      rw [tableAt_cons, ih]
      rfl

/-- A new pmap shows the kernel's entries and no others. -/
theorem models_new {M : Tables} (h : Inv D s) (hM : Models D s M) (hs : pmapNew s m = some s') :
    Inv D s' ∧ Models D s' (refStep M (.pmapNew m)) := by
  obtain ⟨h', hnone, ⟨R₀, hget⟩, hword⟩ := new_spec h hs
  refine ⟨h', fun m' R hR virt hv hin => ?_⟩
  rw [leafPte_eq h' hR hin, hword _ _ (owned_path hin) rfl _ (pti_lt virt), refStep,
    Function.update_apply]
  rw [hget] at hR
  split at hR
  · rename_i hm
    subst hm
    rw [if_pos rfl]
    have hpage : (virt / pgSize * pgSize) / pgSize = virt / pgSize :=
      Nat.mul_div_cancel _ (by decide)
    rw [pml4i_of_path (indices_of_page hpage).1]
    -- an address of the kernel half reads through the shared tables, one of user space reads nothing
    by_cases hge : 255 ≤ pml4i virt
    · have howner : owner m' virt = kpmap := if_pos hge
      have howner' : owner kpmap virt = kpmap := if_pos hge
      obtain ⟨K, hK⟩ := Option.ne_none_iff_exists'.mp h.shared.live
      have hin' : InScope D kpmap virt := fun _ => hin howner
      have hold := hM kpmap K hK virt hv hin'
      rw [leafPte_eq h hK hin', howner'] at hold
      rw [if_pos hge, howner]
      exact hold
    · have howner : owner m' virt = m' := if_neg hge
      rw [if_neg hge, howner, word_of_dead hnone]
  · rename_i hm
    have hold := hM m' R hR virt hv hin
    rw [if_neg hm, ← hold, leafPte_eq h hR hin]

/-- Freeing a pmap changes no other. -/
theorem models_free {M : Tables} (h : Inv D s) (hM : Models D s M) (hm : m ≠ kpmap)
    (hs : pmapFree s m = some s') : Inv D s' ∧ Models D s' M := by
  obtain ⟨h', hmem, hget, -⟩ := free_spec h hm hs
  refine ⟨h', fun m' R hR virt hv hin => ?_⟩
  have hne : m' ≠ m := by
    rintro rfl
    rw [hget, if_pos rfl] at hR
    cases hR
  have hsame : s'.pmaps.get? m' = s.pmaps.get? m' := by rw [hget, if_neg hne]
  rw [leafPte_congr hmem hsame]
  exact hM m' R (hsame ▸ hR) virt hv hin

/-- The order of the unused pages does not matter. -/
theorem inv_requeue {freeq : List ℕ} (h : Inv D s) (hperm : freeq.Perm s.freeq) :
    Inv D { s with freeq := freeq } where
  tree :=
    { forest := h.tree.forest
      freeq_nodup := hperm.nodup_iff.mpr h.tree.freeq_nodup
      freeq_frame := fun p hp => h.tree.freeq_frame p (hperm.mem_iff.mp hp)
      freeq_unused := fun p hp => h.tree.freeq_unused p (hperm.mem_iff.mp hp)
      absent := h.tree.absent }
  shared := ⟨h.shared.live, h.shared.same⟩
  aligned := h.aligned

/-- **Every call keeps the invariant, and does to the maps what it should.** -/
theorem step_spec {M : Tables} {a : Action} (h : Inv D s) (hM : Models D s M)
    (hin : CallInScope D s a) (hs : step s a = some s') : Inv D s' ∧ Models D s' (refStep M a) := by
  cases a with
  | pmapNew m => exact models_new h hM hs
  | pmapFree m =>
      rw [step] at hs
      split at hs
      · exact models_free h hM ‹_› hs
      · cases hs
  | pmapEnter m page virt prot =>
      rw [step] at hs
      split at hs
      · rename_i hv
        unfold pmapEnter at hs
        obtain ⟨s₁, henter, hs⟩ := Option.bind_eq_some_iff.mp hs
        obtain rfl := Option.some.inj hs
        obtain ⟨h₁, hset⟩ := enterKern_spec h hin henter
        -- the list of mappings of the page grows, the tables do not depend on it
        have h' := h₁.setPv page ((m, virt) :: s₁.pv page)
        exact ⟨h', models_leafSet h h' hM hv ⟨hset.pmaps_eq, hset.word_eq⟩⟩
      · cases hs
  | pmapEnterKern m phys virt prot =>
      rw [step] at hs
      split at hs
      · obtain ⟨h', hset⟩ := enterKern_spec h hin hs
        exact ⟨h', models_leafSet h h' hM ‹_› hset⟩
      · cases hs
  | pmapUnenter m page vaddr pv =>
      rw [step] at hs
      split at hs
      · obtain ⟨h', hset⟩ := unenter_spec h hin hs
        exact ⟨h', models_leafSet h h' hM ‹_› hset⟩
      · cases hs
  | pmapUnenterKern m vaddr =>
      rw [step] at hs
      split at hs
      · obtain ⟨⟨page, s₁⟩, hun, rfl⟩ := Option.map_eq_some_iff.mp hs
        obtain ⟨h', hset⟩ := unenterKern_spec h hin hun
        exact ⟨h', models_leafSet h h' hM ‹_› hset⟩
      · cases hs
  -- the page queues may be rearranged between the calls
  | requeue freeq =>
      rw [step] at hs
      split at hs
      · obtain rfl := Option.some.inj hs
        refine ⟨inv_requeue h ‹_›, fun m R hR virt hv hin => ?_⟩
        have hsame : leafPte { s with freeq := freeq } m virt = leafPte s m virt :=
          leafPte_congr (s := s) (by rfl) (by rfl) virt
        exact hsame.trans (hM m R hR virt hv hin)
      · cases hs

/-! ## Runs -/

/-- A run does to the maps what its calls do, one after the other. -/
theorem trace_spec {l : List Action} {M : Tables} (h : machine.Trace (CallInScope D) s l s')
    (hi : Inv D s) (hM : Models D s M) : Inv D s' ∧ Models D s' (l.foldl refStep M) := by
  induction h generalizing M with
  | nil s => exact ⟨hi, hM⟩
  | cons hc hs _ ih =>
      obtain ⟨hi₁, hM₁⟩ := step_spec hi hM hc hs
      exact ih hi₁ hM₁

/-- Every state of a run after `x64_vm_init` satisfies the invariant. -/
theorem inv_reach {s₀ s₁ : State} (h₀ : Boot D s₀) (hinit : x64VmInit s₀ = some s₁)
    (h : machine.Reach (CallInScope D) s₁ s) : Inv D s :=
  h.invariant (init_spec h₀ hinit).1 fun _ _ _ hi hc hs => (step_spec hi (models_shown hi) hc hs).1

/-- A call changes the entry of no page but its own. -/
theorem refStep_other {M : Tables} {a : Action} {n : ℕ} (hpage : a.page ≠ some n)
    (hnew : a ≠ .pmapNew m) : refStep M a m n = M m n := by
  have hset : ∀ m₀ virt (w : BitVec 64), a.page = some (virt / pgSize) →
      setRef M m₀ virt w m n = M m n := by
    intro m₀ virt w ha
    refine if_neg fun heq => hpage ?_
    rw [ha, heq.1]
  cases a with
  | pmapNew m' =>
      refine congrFun (Function.update_of_ne ?_ _ _) n
      rintro rfl
      exact hnew rfl
  | pmapFree m' => rfl
  | pmapEnter m' page virt prot => exact hset m' virt _ rfl
  | pmapEnterKern m' phys virt prot => exact hset m' virt _ rfl
  | pmapUnenter m' page vaddr pv => exact hset m' vaddr _ rfl
  | pmapUnenterKern m' vaddr => exact hset m' vaddr _ rfl
  | requeue freeq => rfl

/-- No call changes the entry of a page that it is not about. -/
theorem leafPte_step {a : Action} {R R' : ℕ} (h : Inv D s) (hin : CallInScope D s a)
    (hs : step s a = some s') (hR : s.pmaps.get? m = some R) (hR' : s'.pmaps.get? m = some R')
    (hv : canonical virt = true) (hvin : InScope D m virt) (hpage : a.page ≠ some (virt / pgSize)) :
    leafPte s' m virt = leafPte s m virt := by
  have hM := models_shown h
  obtain ⟨-, hM'⟩ := step_spec h hM hin hs
  rw [hM m R hR virt hv hvin, hM' m R' hR' virt hv hvin, refStep_other hpage]
  rintro rfl
  -- a pmap that is there is not a new one
  obtain ⟨-, hnone, -⟩ := new_spec h hs
  rw [hR] at hnone
  cases hnone

/-! ## A machine after boot -/

/-- A top table at `0x1000` whose entries from 255 on point to a table each. -/
def bootMem (a : ℕ) : BitVec 64 :=
  if entryOf 0x1000 255 ≤ a ∧ a < 0x2000 then
    pteValue (BitVec.ofNat 64 (0x100000 + 0x1000 * ((a - 0x1000) / 8))) kMMUDefaultProt
  else 0

def bootState : State where
  mem := bootMem
  freeq := [0x400000, 0x401000, 0x402000, 0x403000]
  pregions := [⟨0x400000, 8⟩]
  pmaps := ⟨[kpmap], fun _ => 0x1000, List.nodup_singleton kpmap⟩
  pv := fun _ => []

/-- The tables made at boot are frames. -/
theorem isFrame_bootTable : ∀ i : Fin 512, IsFrame (0x100000 + 0x1000 * i.val) := by decide +kernel

/-- Each entry of the kernel half points to its table. -/
theorem bootMem_top {i : ℕ} (hi : 255 ≤ i) (hlt : i < 512) : bootMem (entryOf 0x1000 i)
    = pteValue (BitVec.ofNat 64 (0x100000 + 0x1000 * i)) kMMUDefaultProt := by
  unfold bootMem entryOf
  rw [if_pos (by omega)]
  congr 4
  omega

/-- The entries of user space are empty. -/
theorem bootMem_user {i : ℕ} (hi : i < 255) : bootMem (entryOf 0x1000 i) = 0 := by
  unfold bootMem entryOf
  rw [if_neg (by omega)]

/-- The tables themselves are empty. -/
theorem bootMem_table (i j : ℕ) : bootMem (entryOf (0x100000 + 0x1000 * i) j) = 0 := by
  unfold bootMem entryOf
  rw [if_neg (by omega)]

/-- The tables of the boot loader. -/
theorem boot_tables {π : List ℕ} {T : ℕ} (hlt : ∀ i ∈ π, i < 512)
    (hT : tableAt bootState m π = some T) : m = kpmap ∧ ((π = [] ∧ T = 0x1000) ∨
      ∃ i, 255 ≤ i ∧ i < 512 ∧ π = [i] ∧ T = 0x100000 + 0x1000 * i) := by
  induction π generalizing T with
  | nil =>
      obtain ⟨hm, hcell⟩ := Heap.get?_eq_some.mp hT
      exact ⟨List.mem_singleton.mp hm, .inl ⟨rfl, hcell.symm⟩⟩
  | cons j π ih =>
      rw [tableAt_cons] at hT
      obtain ⟨T₀, hT₀, hnext⟩ := Option.bind_eq_some_iff.mp hT
      have hj := hlt j List.mem_cons_self
      obtain ⟨rfl, ⟨rfl, rfl⟩ | ⟨i, -, -, -, rfl⟩⟩ :=
        ih (fun i hi => hlt i (List.mem_cons_of_mem _ hi)) hT₀
      · refine ⟨rfl, .inr ⟨j, ?_⟩⟩
        -- the user half of the boot table is empty, each entry above points to its own page
        rcases Nat.lt_or_ge j 255 with huser | hge
        · have hzero : bootState.mem (entryOf 0x1000 j) = 0 := bootMem_user huser
          rw [hzero, nextTable_zero] at hnext
          cases hnext
        · have htop : bootState.mem (entryOf 0x1000 j) = _ := bootMem_top hge hj
          rw [htop, nextTable_pteValue] at hnext
          refine ⟨hge, hj, rfl, ?_⟩
          rw [← Option.some.inj hnext]
          exact (isFrame_bootTable ⟨j, hj⟩).2
      · have hzero : bootState.mem (entryOf (0x100000 + 0x1000 * i) j) = 0 := bootMem_table i j
        rw [hzero, nextTable_zero] at hnext
        cases hnext

/-- The example is a state at boot. -/
theorem boot_bootState : Boot Scope.all bootState := by
  -- the upper half of the top table has its tables from the start
  have htop : ∀ i, 255 ≤ i → i < 512 → nextTable (bootState.mem (entryOf 0x1000 i)) ≠ none := by
    intro i hi hlt
    have hmem : bootState.mem (entryOf 0x1000 i) = _ := bootMem_top hi hlt
    rw [hmem, nextTable_pteValue]
    simp
  have hK : ∀ K, bootState.pmaps.get? kpmap = some K → K = 0x1000 := fun K h =>
    (Heap.get?_eq_some.mp h).2.symm
  refine ⟨⟨⟨owned_closed _, ?_, ?_⟩, by decide, by decide, ?_, ?_⟩, ?_, by decide, ?_, ?_, by decide⟩
  · intro m π T hπ hT
    obtain ⟨-, ⟨-, rfl⟩ | ⟨i, -, hlt, -, rfl⟩⟩ := boot_tables hπ.lt hT
    · exact (by decide : IsFrame 0x1000)
    · exact isFrame_bootTable ⟨i, hlt⟩
  · intro m m' π π' T hπ hπ' hT hT'
    obtain ⟨rfl, h⟩ := boot_tables hπ.lt hT
    obtain ⟨rfl, h'⟩ := boot_tables hπ'.lt hT'
    refine ⟨rfl, ?_⟩
    rcases h with ⟨rfl, rfl⟩ | ⟨i, _, _, rfl, rfl⟩
    · rcases h' with ⟨rfl, -⟩ | ⟨j, _, _, rfl, heq⟩
      · rfl
      · omega
    · rcases h' with ⟨rfl, heq⟩ | ⟨j, _, _, rfl, heq⟩
      · omega
      · obtain rfl : i = j := by omega
        rfl
  · intro p hp m π hπ hT
    have hge : 0x400000 ≤ p := (by decide : ∀ p ∈ bootState.freeq, 0x400000 ≤ p) p hp
    -- the free pages begin behind the last table
    obtain ⟨-, ⟨-, rfl⟩ | ⟨i, _, _, -, rfl⟩⟩ := boot_tables hπ.lt hT
    · omega
    · omega
  · intro m i π T hm hπ hT
    exact absurd (boot_tables hπ.tail.lt hT).1 hm
  · intro m R hR
    exact (boot_tables (π := []) (by simp) hR).1
  · intro K h i hi hlt _
    rw [hK K h]
    exact htop i hi hlt
  · intro K h
    rw [hK K h]
    exact htop 511 (by decide) (by decide)

/-- `x64_vm_init` preallocates the entries from 255 on. -/
theorem x64VmInit_eq {K : ℕ} (hK : s.pmaps.get? kpmap = some K) :
    x64VmInit s = (List.range' 255 256).foldlM (preallocate K) s := by
  unfold x64VmInit
  rw [hK]
  rfl

/-- `x64_vm_init` finds nothing to do. -/
theorem init_bootState : x64VmInit bootState = some bootState := by
  -- every entry of the kernel half has a table already, so `preallocate` changes nothing
  have hone : ∀ i, 255 ≤ i → i < 512 → preallocate 0x1000 bootState i = some bootState := by
    intro i hi hlt
    have hmem : bootState.mem (entryOf 0x1000 i) = _ := bootMem_top hi hlt
    refine if_neg ?_
    rw [hmem, pteGetAddr_pteValue (by decide)]
    intro hzero
    have hframe := isFrame_bootTable ⟨i, hlt⟩
    refine hframe.1 (hframe.2.symm.trans ?_)
    unfold pteGetAddr
    rw [hzero]
    rfl
  have hall : ∀ l : List ℕ, (∀ i ∈ l, 255 ≤ i ∧ i < 512) →
      l.foldlM (preallocate 0x1000) bootState = some bootState := by
    intro l hl
    induction l with
    | nil => rfl
    | cons i l ih =>
        rw [List.foldlM_cons, hone i (hl i List.mem_cons_self).1 (hl i List.mem_cons_self).2]
        exact ih fun j hj => hl j (List.mem_cons_of_mem _ hj)
  have hget : bootState.pmaps.get? kpmap = some 0x1000 := rfl
  refine (x64VmInit_eq hget).trans (hall (List.range' 255 256) fun i hi => ?_)
  have := List.mem_range'_1.mp hi
  omega

/-! ## Calls that return -/

/-- A descent returns while a page is free, and takes at most one. -/
theorem pmapDescend_isSome (T i : ℕ) (prot : BitVec 64) {n : ℕ} (hn : n + 1 ≤ s.freeq.length) :
    ∃ T' s', pmapDescend s T i true prot = some (T', s') ∧ n ≤ s'.freeq.length := by
  unfold pmapDescend
  dsimp only
  split
  · exact ⟨_, s, rfl, by omega⟩
  · rw [if_pos rfl]
    cases hfreeq : s.freeq with
    | nil =>
        rw [hfreeq] at hn
        cases hn
    | cons p freeq =>
        rw [hfreeq] at hn
        unfold vmPagealloc
        rw [hfreeq]
        exact ⟨p, _, rfl, Nat.le_of_succ_le_succ hn⟩

/-- With three unused pages a page can be mapped. -/
theorem pmapEnterKern_isSome {R : ℕ} (hR : s.pmaps.get? m = some R) (hn : 3 ≤ s.freeq.length)
    (phys : BitVec 64) (virt : ℕ) (prot : Prot) : ∃ s', pmapEnterKern s m phys virt prot = some s' := by
  obtain ⟨T₁, s₁, h₁, hn₁⟩ := pmapDescend_isSome R (pml4i virt) kMMUDefaultProt hn
  obtain ⟨T₂, s₂, h₂, hn₂⟩ := pmapDescend_isSome T₁ (pdpti virt) kMMUDefaultProt hn₁
  obtain ⟨T₃, s₃, h₃, -⟩ := pmapDescend_isSome (n := 0) T₂ (pdi virt) kMMUDefaultProt hn₂
  unfold pmapEnterKern
  simp only [hR, h₁, h₂, h₃, Option.bind_eq_bind, Option.bind_some]
  exact ⟨_, rfl⟩

/-- The loop of `pmap_new` leaves the unused pages alone. -/
theorem copyEntries_freeq (K p : ℕ) (l : List ℕ) (s : State) : (l.foldl (fun s i =>
    pteSet s (entryOf p i) (s.mem (entryOf K i)) kMMUDefaultProt) s).freeq = s.freeq := by
  induction l generalizing s with
  | nil => rfl
  | cons i l ih =>
      rw [List.foldl_cons, ih]
      rfl

/-- With an unused page there can be one more pmap. -/
theorem pmapNew_isSome {K p : ℕ} {freeq : List ℕ} (hK : s.pmaps.get? kpmap = some K)
    (hfreeq : s.freeq = p :: freeq) (hm : m ∉ s.pmaps.dom) :
    ∃ s', pmapNew s m = some s' ∧ s'.freeq = freeq := by
  unfold pmapNew vmPagealloc Heap.alloc
  rw [hfreeq]
  simp only [Option.bind_eq_bind, Option.bind_some, hK, dif_neg hm]
  refine ⟨_, rfl, ?_⟩
  exact copyEntries_freeq K p (List.range' 255 257) _

/-! ## Runs -/

/-- The flags of a protection are outside of the frame. -/
theorem vmProtToI386_frame (prot : Prot) : vmProtToI386 prot &&& kMMUFrame = 0#64 := by
  rcases prot with ⟨_ | _, _ | _, _ | _⟩ <;> decide

/-- **Page tables are maps from pages to entries.** In every run of calls after `x64_vm_init`, in every
pmap, the entry that `pmap_fully_descend` finds for an address is the one the last call has left there:
the frame and the flags of a mapping, or zero.  No call changes the entry of another page. -/
theorem page_tables_refine {s₀ s₁ s : State} {l : List Action} (h₀ : Boot D s₀)
    (hinit : x64VmInit s₀ = some s₁) (h : machine.Trace (CallInScope D) s₁ l s) :
    Models D s (l.foldl refStep (shown s₁)) ∧
      (∀ a s', CallInScope D s a → step s a = some s' → ∀ m R R', s.pmaps.get? m = some R →
        s'.pmaps.get? m = some R' → ∀ virt, canonical virt = true → InScope D m virt →
        a.page ≠ some (virt / pgSize) → leafPte s' m virt = leafPte s m virt) ∧
      ∀ phys prot, pteGetAddr (pteValue phys (vmProtToI386 prot)) = phys &&& kMMUFrame ∧
        pteGetFlags (pteValue phys (vmProtToI386 prot)) = vmProtToI386 prot := by
  have h₁ := (init_spec h₀ hinit).1
  obtain ⟨hinv, hmodels⟩ := trace_spec h h₁ (models_shown h₁)
  refine ⟨hmodels, fun a s' hin hs m R R' hR hR' virt hv hvin hpage =>
    leafPte_step hinv hin hs hR hR' hv hvin hpage, fun phys prot => ?_⟩
  have hflags : vmProtToI386 prot &&& ~~~kMMUFrame = vmProtToI386 prot := by
    rcases prot with ⟨_ | _, _ | _, _ | _⟩ <;> decide
  exact ⟨pteGetAddr_pteValue (vmProtToI386_frame prot) phys, pteGetFlags_pteValue hflags phys⟩

/-- After boot a second pmap can be made, and a page mapped in it. -/
theorem boot_mapped : ∃ s R, machine.exec bootState
      [.pmapNew 1, .pmapEnter 1 0x408000 0x5000 ⟨true, true, false⟩] = some s ∧
    machine.Trace (CallInScope Scope.all) bootState
      [.pmapNew 1, .pmapEnter 1 0x408000 0x5000 ⟨true, true, false⟩] s ∧
    s.pmaps.get? 1 = some R := by
  obtain ⟨s₁, hnew, hfreeq⟩ := pmapNew_isSome (s := bootState) (m := 1) (K := 0x1000) rfl rfl (by decide)
  obtain ⟨hinv, -⟩ := init_spec boot_bootState init_bootState
  obtain ⟨h₁, -, ⟨R, hget⟩, -⟩ := new_spec hinv hnew
  have hR : s₁.pmaps.get? 1 = some R := by rw [hget, if_pos rfl]
  obtain ⟨s₂, henter⟩ := pmapEnterKern_isSome hR (by rw [hfreeq]; decide) (BitVec.ofNat 64 0x408000)
    0x5000 ⟨true, true, false⟩
  have hin : ∀ virt, InScope Scope.all 1 virt := fun _ _ => trivial
  obtain ⟨-, hset⟩ := enterKern_spec h₁ (hin 0x5000) henter
  have hR₂ : s₂.pmaps.get? 1 = some R := hset.pmaps_eq ▸ hR
  -- a page is entered into the new map before the pv entry is written
  have hstep : step s₁ (.pmapEnter 1 0x408000 0x5000 ⟨true, true, false⟩)
      = some (setPv s₂ 0x408000 ((1, 0x5000) :: s₂.pv 0x408000)) := by
    rw [step, if_pos (by decide), pmapEnter, henter]
    rfl
  refine ⟨setPv s₂ 0x408000 ((1, 0x5000) :: s₂.pv 0x408000), R, ?_, ?_, hR₂⟩
  · have hnew' : machine.step bootState (.pmapNew 1) = some s₁ := hnew
    rw [Machine.exec_cons, hnew', Option.bind_some, Machine.exec_cons]
    exact congrArg (Option.bind · _) hstep
  · exact .cons trivial hnew (.cons (hin 0x5000) hstep (.nil _))

/-- A second pmap, and a page mapped in it. -/
theorem page_tables_refine_new :
    ∃ s, machine.exec bootState [.pmapNew 1, .pmapEnter 1 0x408000 0x5000 ⟨true, true, false⟩] = some s ∧
      leafPte s 1 0x5000 = some 0x408007 ∧ leafPte s 1 0x6000 = some 0 := by
  obtain ⟨s, R, hexec, htrace, hR⟩ := boot_mapped
  have hin : ∀ virt, InScope Scope.all 1 virt := fun _ _ => trivial
  obtain ⟨hmodels, -⟩ := page_tables_refine boot_bootState init_bootState htrace
  refine ⟨s, hexec, ?_, ?_⟩
  · rw [hmodels 1 R hR 0x5000 (by decide) (hin _)]
    simp only [List.foldl_cons, List.foldl_nil, refStep, setRef]
    rw [if_pos (by decide)]
    rfl
  · rw [hmodels 1 R hR 0x6000 (by decide) (hin _)]
    simp only [List.foldl_cons, List.foldl_nil, refStep, setRef]
    rw [if_neg (by decide), Function.update_self, if_neg (by decide)]

/-- The path to a table of the kernel half. -/
structure KernelPath (D : Scope) (π : List ℕ) : Prop where
  length_le : π.length ≤ 3
  lt : ∀ i ∈ π, i < 512
  scope : D.mem π
  top : ∃ i ∈ π.getLast?, 256 ≤ i

/-- A table of the kernel half belongs to the kernel's pmap. -/
theorem KernelPath.tableAt_eq {π : List ℕ} (hπ : KernelPath D π) (h : Shared s) {R : ℕ}
    (hR : s.pmaps.get? m = some R) : Owned D kpmap π ∧ tableAt s m π = tableAt s kpmap π := by
  obtain ⟨i, hi, hge⟩ := hπ.top
  refine ⟨⟨hπ.length_le, hπ.lt, fun _ => hπ.scope, fun hne => absurd rfl hne⟩, ?_⟩
  exact h.tableAt_eq hR ⟨i, hi, by omega, hπ.lt i (List.mem_of_getLast? hi)⟩

/-- **The kernel half is shared.** In every run of calls after `x64_vm_init`, `pmap_fully_descend` finds
in every pmap, at every kernel address, the very entry that it finds in the kernel's; and no table that
`pmap_free` frees is one of the kernel half. -/
theorem kernel_half_shared {s₀ s₁ s : State} (h₀ : Boot D s₀) (hinit : x64VmInit s₀ = some s₁)
    (h : machine.Reach (CallInScope D) s₁ s) :
    (∀ m R, s.pmaps.get? m = some R → ∀ virt, 256 ≤ pml4i virt →
      pmapFullyDescend s m virt = pmapFullyDescend s kpmap virt ∧
        leafPte s m virt = leafPte s kpmap virt) ∧
      ∀ m s', m ≠ kpmap → pmapFree s m = some s' → ∃ l, s'.freeq = l ++ s.freeq ∧
        ∀ T ∈ l, ∀ m' R, s.pmaps.get? m' = some R → ∀ π, KernelPath D π → tableAt s m' π ≠ some T := by
  have hinv := inv_reach h₀ hinit h
  refine ⟨fun m R hR virt hge => ?_, fun m s' hm hs => ?_⟩
  · have hfull : pmapFullyDescend s m virt = pmapFullyDescend s kpmap virt :=
      fullyDescend_shared hinv.shared hR (by omega)
    refine ⟨hfull, ?_⟩
    unfold leafPte
    rw [hfull]
  · obtain ⟨-, -, -, l, hl, hfreed⟩ := free_spec hinv hm hs
    refine ⟨l, hl, fun T hT m' R hR π hπ hTπ => ?_⟩
    obtain ⟨ρ, hown, -, hTρ⟩ := hfreed T hT
    obtain ⟨hkernel, htable⟩ := hπ.tableAt_eq hinv.shared hR
    exact hm (hinv.tree.inj hown hkernel hTρ (htable ▸ hTπ)).1

/-- A second pmap, and then a page mapped in the kernel half of the first. -/
theorem kernel_half_shared_new :
    ∃ s, machine.exec bootState [.pmapNew 1,
        .pmapEnterKern kpmap 0x408000 0xffff800100000000 ⟨true, true, false⟩] = some s ∧
      leafPte s 1 0xffff800100000000 = leafPte s kpmap 0xffff800100000000 := by
  obtain ⟨s₁, hnew, hfreeq⟩ := pmapNew_isSome (s := bootState) (m := 1) (K := 0x1000) rfl rfl (by decide)
  obtain ⟨hinv, -⟩ := init_spec boot_bootState init_bootState
  obtain ⟨h₁, -, ⟨R, hget⟩, -⟩ := new_spec hinv hnew
  have hR : s₁.pmaps.get? 1 = some R := by rw [hget, if_pos rfl]
  have hK : s₁.pmaps.get? kpmap = some 0x1000 := by
    rw [hget, if_neg (by decide)]
    rfl
  obtain ⟨s₂, henter⟩ := pmapEnterKern_isSome hK (by rw [hfreeq]; decide) 0x408000 0xffff800100000000
    ⟨true, true, false⟩
  have hin : InScope Scope.all kpmap 0xffff800100000000 := fun _ => trivial
  obtain ⟨-, hset⟩ := enterKern_spec h₁ hin henter
  have hstep : step s₁ (.pmapEnterKern kpmap 0x408000 0xffff800100000000 ⟨true, true, false⟩)
      = some s₂ := by
    rw [step, if_pos (by decide)]
    exact henter
  have hfirst : CallInScope Scope.all bootState (.pmapNew 1) := trivial
  have hsecond : CallInScope Scope.all s₁
      (.pmapEnterKern kpmap 0x408000 0xffff800100000000 ⟨true, true, false⟩) := hin
  -- a map is made first, the kernel maps a page afterwards
  have hreach : machine.Reach (CallInScope Scope.all) bootState s₂ :=
    .step (.step .init hfirst hnew) hsecond hstep
  obtain ⟨hshared, -⟩ := kernel_half_shared boot_bootState init_bootState hreach
  refine ⟨s₂, ?_, (hshared 1 R (hset.pmaps_eq ▸ hR) _ (by decide)).2⟩
  have hnew' : machine.step bootState (.pmapNew 1) = some s₁ := hnew
  rw [Machine.exec_cons, hnew', Option.bind_some, Machine.exec_cons]
  exact congrArg (Option.bind · _) hstep

end Scalux.Pmap
