import Scalux.Amd64.PmapRun

/-! # What `pmap_free` gives back

`pmap_free` goes over the first 255 entries of the top table and frees the tables below them.  The page
of the top table itself, which `pmap_new` has taken from `vm_pagealloc`, is not given back, and neither
is the `pmap_t`.

* **`pmap_free_leaks`**: in every run `pmap_free` frees each table below the top table once and no other
  page, and never the top table.
* **`pmap_free_root`**: the page that is lost when a pmap is made and freed at once. -/

namespace Scalux.Pmap

variable {s s' s₀ s₁ : State} {m : PmapId} {π : List ℕ} {T R : ℕ} {D : Scope}

/-- `pmap_free` gives back each table of the pmap once, the top table included, and no other page. -/
def FreesTables (D : Scope) (s : State) (m : PmapId) : Prop :=
  ∃ s' l, pmapFree s m = some s' ∧ s'.freeq = l ++ s.freeq ∧ l.Nodup ∧
    ∀ T, T ∈ l ↔ ∃ π, Owned D m π ∧ tableAt s m π = some T

/-- No mapping remains at a user address. -/
def NoLeaf (D : Scope) (s : State) (m : PmapId) : Prop :=
  ∀ virt, canonical virt = true → InScope D m virt → pml4i virt < 255 → leafPte s m virt = some 0

/-! ## The tables of a pmap -/

/-- The tables of a user pmap below its top table are those that `pmap_free` goes through. -/
theorem mem_userPaths (hm : m ≠ kpmap) (hπ : Owned D m π) (hne : π ≠ []) : π ∈ userPaths := by
  have hlen := hπ.length_le
  have hlt := hπ.lt
  have huser := hπ.user hm
  match π, hne with
  | [i], _ =>
      have hi : i < 255 := huser i rfl
      simp [userPaths, below, hi]
  | [j, i], _ =>
      have hi : i < 255 := huser i rfl
      have hj : j < 512 := hlt j (by simp)
      simp [userPaths, below, hi, hj]
  | [k, j, i], _ =>
      have hi : i < 255 := huser i rfl
      have hj : j < 512 := hlt j (by simp)
      have hk : k < 512 := hlt k (by simp)
      simp [userPaths, below, hi, hj, hk]
  | _ :: _ :: _ :: _ :: _, _ =>
      simp only [List.length_cons] at hlen
      omega

/-- What `pmap_free` gives back is the tables below the top table, each once. -/
theorem freed_tables (h : Inv D s) (hm : m ≠ kpmap) (hs : pmapFree s m = some s') :
    ∃ l, s'.freeq = l ++ s.freeq ∧ l.Nodup ∧
      ∀ T, T ∈ l ↔ ∃ π, π ≠ [] ∧ Owned D m π ∧ tableAt s m π = some T := by
  obtain rfl := pmapFree_eq h hm hs
  refine ⟨_, rfl, ?_, fun T => ?_⟩
  · rw [List.nodup_reverse]
    exact nodup_userTables h.tree hm
  · rw [List.mem_reverse, List.mem_filterMap]
    constructor
    · rintro ⟨π, hπ, hT⟩
      obtain ⟨hown, hne⟩ := owned_userPaths D hm hπ
      exact ⟨π, hne, hown, hT⟩
    · rintro ⟨π, hne, hown, hT⟩
      exact ⟨π, mem_userPaths hm hown hne, hT⟩

/-- The top table is not among them. -/
theorem root_not_freed (h : Inv D s) (hR : s.pmaps.get? m = some R) {l : List ℕ}
    (hl : ∀ T, T ∈ l ↔ ∃ π, π ≠ [] ∧ Owned D m π ∧ tableAt s m π = some T) : R ∉ l := by
  intro hmem
  obtain ⟨π, hne, hown, hT⟩ := (hl R).mp hmem
  exact hne (h.tree.inj hown (owned_nil D m) hT hR).2

/-- `pmap_free` does not give back all tables. -/
theorem not_freesTables (h : Inv D s) (hm : m ≠ kpmap) (hR : s.pmaps.get? m = some R) :
    ¬ FreesTables D s m := by
  rintro ⟨s', l, hs, hfreeq, -, hl⟩
  obtain ⟨l', hfreeq', -, hl'⟩ := freed_tables h hm hs
  obtain rfl := List.append_cancel_right (hfreeq.symm.trans hfreeq')
  exact root_not_freed h hR hl' ((hl R).mpr ⟨[], owned_nil D m, hR⟩)

/-! ## Runs -/

/-- **`pmap_free` leaks the top table.** In every run of calls after `x64_vm_init`, of every pmap but the
kernel's: `pmap_free` does not give back exactly the pmap's tables.  What it gives back is the tables
below the top table, each once, and no other page. -/
theorem pmap_free_leaks (h₀ : Boot D s₀) (hinit : x64VmInit s₀ = some s₁)
    (h : machine.Reach (CallInScope D) s₁ s) (hm : m ≠ kpmap) (hR : s.pmaps.get? m = some R) :
    ¬ FreesTables D s m ∧ ∀ s', pmapFree s m = some s' → ∃ l, s'.freeq = l ++ s.freeq ∧ l.Nodup ∧
      R ∉ l ∧ ∀ T, T ∈ l ↔ ∃ π, π ≠ [] ∧ Owned D m π ∧ tableAt s m π = some T := by
  have hinv := inv_reach h₀ hinit h
  refine ⟨not_freesTables hinv hm hR, fun s' hs => ?_⟩
  obtain ⟨l, hfreeq, hnodup, hl⟩ := freed_tables hinv hm hs
  exact ⟨l, hfreeq, hnodup, root_not_freed hinv hR hl, hl⟩

/-- `pmap_free` of a pmap without tables below its top table gives nothing back. -/
theorem pmapFree_of_empty (hR : s.pmaps.get? m = some R)
    (hempty : ∀ i, i < 255 → s.mem (entryOf R i) = 0) :
    pmapFree s m = some { s with pmaps := s.pmaps.free m } := by
  have hzero : (pteGetAddr 0).toNat = 0 := by decide
  have hloop : ∀ l : List ℕ, (∀ i ∈ l, i < 255) → l.foldlM (fun s i =>
      pmapFreeSub 3 s (pteGetAddr (s.mem (entryOf R i))).toNat) s = some s := by
    intro l hl
    induction l with
    | nil => rfl
    | cons i l ih =>
        rw [List.foldlM_cons, hempty i (hl i List.mem_cons_self), hzero]
        exact ih fun j hj => hl j (List.mem_cons_of_mem _ hj)
  unfold pmapFree
  rw [hR, Option.bind_eq_bind, Option.bind_some, hloop _ fun i hi => List.mem_range.mp hi]
  rfl

/-- A pmap that has just been made has no mappings, and `pmap_free` gives nothing back. -/
theorem boot_new : ∃ s R s', machine.exec bootState [.pmapNew 1] = some s ∧
    machine.Reach (CallInScope Scope.all) bootState s ∧ s.pmaps.get? 1 = some R ∧
    NoLeaf Scope.all s 1 ∧ pmapFree s 1 = some s' ∧ s'.freeq = s.freeq := by
  obtain ⟨s, hnew, -⟩ := pmapNew_isSome (s := bootState) (m := 1) (K := 0x1000) rfl rfl (by decide)
  have h₁ := (init_spec boot_bootState init_bootState).1
  obtain ⟨-, hM⟩ := models_new h₁ (models_shown h₁) hnew
  obtain ⟨R, K, hroot⟩ := pmapNew_newRoot h₁.tree hnew
  have hR : s.pmaps.get? 1 = some R := by rw [hroot.pmaps, if_pos rfl]
  have hfirst : CallInScope Scope.all bootState (.pmapNew 1) := trivial
  refine ⟨s, R, _, ?_, .step .init hfirst hnew, hR, fun virt hv hin huser => ?_,
    pmapFree_of_empty hR hroot.user, rfl⟩
  · have hnew' : machine.step bootState (.pmapNew 1) = some s := hnew
    rw [Machine.exec_cons, hnew', Option.bind_some, Machine.exec_nil]
  · have hpage : virt / pgSize * pgSize / pgSize = virt / pgSize :=
      Nat.mul_div_cancel _ (by decide)
    rw [hM 1 R hR virt hv hin, refStep, Function.update_self,
      pml4i_of_path (indices_of_page hpage).1, if_neg (by omega)]

/-- A page is mapped in a second pmap, and unmapped. -/
def unmapRun : List Action :=
  [.pmapNew 1, .pmapEnter 1 0x408000 0x5000 ⟨true, true, false⟩, .pmapUnenter 1 (some 0x408000) 0x5000 none]

/-- After the last page has been unmapped, the three tables below the top table are given back. -/
theorem pmap_free_leaks_unmapped :
    ∃ s s', machine.exec bootState unmapRun = some s ∧ s.pmaps.get? 1 = some 0x400000 ∧
      ¬ FreesTables Scope.all s 1 ∧ pmapFree s 1 = some s' ∧ s'.freeq = [0x401000, 0x402000, 0x403000] ∧
      ∃ l, s'.freeq = l ++ s.freeq ∧ l.Nodup ∧ 0x400000 ∉ l ∧
        ∀ T, T ∈ l ↔ ∃ π, π ≠ [] ∧ Owned Scope.all 1 π ∧ tableAt s 1 π = some T := by
  have hrun : ((machine.exec bootState unmapRun).bind fun s => (pmapFree s 1).map fun s' =>
      (s.pmaps.get? 1, s'.freeq)) = some (some 0x400000, [0x401000, 0x402000, 0x403000]) := by
    decide +kernel
  obtain ⟨s, hexec, hs⟩ := Option.bind_eq_some_iff.mp hrun
  obtain ⟨s', hfree, hs⟩ := Option.map_eq_some_iff.mp hs
  obtain ⟨hroot, hfreeq⟩ := Prod.mk.inj hs
  have hscope : ∀ t a, CallInScope Scope.all t a := by
    intro t a
    cases a <;> first | exact trivial | exact fun _ => trivial
  have hreach : machine.Reach (CallInScope Scope.all) bootState s :=
    (Machine.reachable_of_exec hexec).mono fun t a _ => hscope t a
  obtain ⟨hleaks, hback⟩ := pmap_free_leaks boot_bootState init_bootState hreach (by decide) hroot
  exact ⟨s, s', hexec, hroot, hleaks, hfree, hfreeq, hback s' hfree⟩

/-- **The page of the top table is lost**: a pmap without mappings, freed right after it was made;
`pmap_free` returns, and has given nothing back. -/
theorem pmap_free_root :
    ¬ ∀ (s₀ s₁ s : State) (m : PmapId) (R : ℕ), Boot Scope.all s₀ → x64VmInit s₀ = some s₁ →
      machine.Reach (CallInScope Scope.all) s₁ s → m ≠ kpmap → s.pmaps.get? m = some R →
      NoLeaf Scope.all s m → FreesTables Scope.all s m := by
  intro h
  obtain ⟨s, R, s', -, hreach, hR, hleaf, hfree, hsame⟩ := boot_new
  obtain ⟨s'', l, hfree', hfreeq, -, hl⟩ :=
    h bootState bootState s 1 R boot_bootState init_bootState hreach (by decide) hR hleaf
  obtain rfl := Option.some.inj (hfree.symm.trans hfree')
  obtain rfl : l = [] := List.append_left_eq_self.mp (hfreeq.symm.trans hsame)
  have hroot : R ∈ [] := (hl R).mpr ⟨[], owned_nil Scope.all 1, hR⟩
  cases hroot

end Scalux.Pmap
