import Scalux.Amd64.PmapTree

/-! # What the calls on page tables do

One lemma for each call: it keeps the invariant, and this is what it does to the leaves.

* **`enterKern_spec`**, **`unenter_spec`**: one leaf is assigned.
* **`new_spec`**, **`free_spec`**: no leaf changes.
* **`init_spec`**: `x64_vm_init` sets up the invariant. -/

namespace Scalux.Pmap

variable {s s' : State} {m : PmapId} {π : List ℕ} {T p i virt : ℕ} {w : BitVec 64} {D : Scope}

/-! ## Addresses -/

/-- The path to the last table of an address, last index first. -/
def path (virt : ℕ) : List ℕ := [pdi virt, pdpti virt, pml4i virt]

/-- The pmap that the tables of an address belong to. -/
def owner (m : PmapId) (virt : ℕ) : PmapId := if 255 ≤ pml4i virt then kpmap else m

/-- The kernel's tables for this address are in the scope, if it has tables of the kernel. -/
def InScope (D : Scope) (m : PmapId) (virt : ℕ) : Prop := owner m virt = kpmap → D.mem (path virt)

/-- An index is below 512. -/
theorem index_lt (n : ℕ) : n &&& 0x1FF < 512 :=
  lt_of_le_of_lt Nat.and_le_right (by decide)

/-- The index of the last level is below 512. -/
theorem pti_lt (virt : ℕ) : pti virt < 512 := index_lt _

/-- The path of an address belongs to the owner of the address. -/
theorem owned_path (h : InScope D m virt) : Owned D (owner m virt) (path virt) where
  length_le := le_rfl
  lt i hi := by
    simp only [path, List.mem_cons, List.not_mem_nil, or_false] at hi
    rcases hi with rfl | rfl | rfl
    · exact index_lt _
    · exact index_lt _
    · exact index_lt _
  scope := h
  user hm i hi := by
    have hlast : i = pml4i virt := by
      simpa [path] using hi.symm
    rw [hlast]
    by_contra hge
    exact hm (if_pos (by omega))

/-- The owner of an address finds the tables that a pmap finds. -/
theorem tableAt_owner (h : Shared s) {R : ℕ} (hR : s.pmaps.get? m = some R)
    (hπ : pml4i virt ∈ π.getLast?) : tableAt s m π = tableAt s (owner m virt) π := by
  unfold owner
  split
  · rename_i hge
    exact h.tableAt_eq hR ⟨pml4i virt, hπ, hge, index_lt _⟩
  · rfl

/-! ## Looking up -/

/-- **`pmap_fully_descend`** finds the entry of the address in the table at the end of its path. -/
theorem fullyDescend_spec (h : Inv D s) {R : ℕ} (hR : s.pmaps.get? m = some R)
    (hv : InScope D m virt) : pmapFullyDescend s m virt
      = some ((tableAt s (owner m virt) (path virt)).elim 0 fun T => entryOf T (pti virt)) := by
  have hown := owned_path hv
  have h₁ : tableAt s (owner m virt) [pml4i virt] = nextTable (s.mem (entryOf R (pml4i virt))) := by
    rw [← tableAt_owner h.shared hR (by simp), tableAt_cons, tableAt_nil, hR]
    rfl
  unfold pmapFullyDescend path
  simp only [hR, pmapDescend_lookup, ← h₁, Option.bind_eq_bind, Option.bind_some]
  cases hT₁ : tableAt s (owner m virt) [pml4i virt] with
  | none =>
      rw [tableAt_cons, tableAt_cons, hT₁]
      rfl
  | some T₁ =>
      have hne₁ : T₁ ≠ 0 := (h.tree.isFrame hown.tail.tail hT₁).1
      have h₂ : tableAt s (owner m virt) [pdpti virt, pml4i virt]
          = nextTable (s.mem (entryOf T₁ (pdpti virt))) := by
        rw [tableAt_cons, hT₁]
        rfl
      simp only [Option.getD_some, if_neg hne₁, ← h₂]
      cases hT₂ : tableAt s (owner m virt) [pdpti virt, pml4i virt] with
      | none =>
          rw [tableAt_cons, hT₂]
          rfl
      | some T₂ =>
          have hne₂ : T₂ ≠ 0 := (h.tree.isFrame hown.tail hT₂).1
          have h₃ : tableAt s (owner m virt) [pdi virt, pdpti virt, pml4i virt]
              = nextTable (s.mem (entryOf T₂ (pdi virt))) := by
            rw [tableAt_cons, hT₂]
            rfl
          simp only [Option.getD_some, if_neg hne₂, ← h₃]
          cases hT₃ : tableAt s (owner m virt) [pdi virt, pdpti virt, pml4i virt] with
          | none => rfl
          | some T₃ =>
              have hne₃ : T₃ ≠ 0 := (h.tree.isFrame hown hT₃).1
              simp only [Option.getD_some, if_neg hne₃]
              rfl

/-- From entry 255 on, `pmap_fully_descend` finds what it finds in the kernel's pmap. -/
theorem fullyDescend_shared (h : Shared s) {R : ℕ} (hR : s.pmaps.get? m = some R)
    (hge : 255 ≤ pml4i virt) : pmapFullyDescend s m virt = pmapFullyDescend s kpmap virt := by
  obtain ⟨K, hK⟩ := Option.ne_none_iff_exists'.mp h.live
  have hsame := (h.same m R K hR hK (pml4i virt) hge (index_lt _)).1
  unfold pmapFullyDescend
  simp only [hR, hK, pmapDescend_lookup, Option.bind_eq_bind, Option.bind_some, hsame]

/-- The page table entry that `pmap_fully_descend` finds, zero if there is none. -/
def leafPte (s : State) (m : PmapId) (virt : ℕ) : Option (BitVec 64) :=
  (pmapFullyDescend s m virt).map fun pte => if pte = 0 then 0 else s.mem pte

/-- The entry of a frame is not at 0. -/
theorem entryOf_ne_zero (hT : IsFrame T) (j : ℕ) : entryOf T j ≠ 0 := by
  have := hT.1
  unfold entryOf
  omega

/-- The leaf entry is the word that the path of the address leads to. -/
theorem leafPte_eq (h : Inv D s) {R : ℕ} (hR : s.pmaps.get? m = some R) (hv : InScope D m virt) :
    leafPte s m virt = some (word s (owner m virt) (path virt) (pti virt)) := by
  unfold leafPte word
  rw [fullyDescend_spec h hR hv, Option.map_some]
  cases hT : tableAt s (owner m virt) (path virt) with
  | none => rfl
  | some T => exact congrArg some (if_neg (entryOf_ne_zero (h.tree.isFrame (owned_path hv) hT) _))

/-! ## Entering -/

/-- One leaf has been assigned. -/
structure LeafSet (D : Scope) (m : PmapId) (virt : ℕ) (w : BitVec 64) (s s' : State) : Prop where
  pmaps_eq : s'.pmaps = s.pmaps
  word_eq : ∀ m' π', Owned D m' π' → π'.length = 3 → ∀ k, k < 512 → word s' m' π' k
    = if m' = owner m virt ∧ π' = path virt ∧ k = pti virt then w else word s m' π' k

/-- `pmap_descend` from the top table of a pmap. -/
theorem descendTop_spec {R T' : ℕ} (h : Inv D s) (hR : s.pmaps.get? m = some R)
    (hv : InScope D m virt)
    (hd : pmapDescend s R (pml4i virt) true kMMUDefaultProt = some (T', s')) :
    Inv D s' ∧ SameLeaves D s s' ∧ tableAt s' (owner m virt) [pml4i virt] = some T' := by
  by_cases hge : 255 ≤ pml4i virt
  · -- the entry is present
    have hnext := h.shared.next_ne_none hR hge (index_lt _)
    unfold nextTable at hnext
    split at hnext
    · rename_i hpresent
      unfold pmapDescend at hd
      rw [if_pos hpresent] at hd
      obtain ⟨rfl, rfl⟩ := Prod.mk.inj (Option.some.inj hd)
      refine ⟨h, SameLeaves.refl D s, ?_⟩
      rw [← tableAt_owner h.shared hR (by simp), tableAt_cons, tableAt_nil, hR, Option.bind_some,
        nextTable, if_pos hpresent]
    · exact absurd rfl hnext
  · have hm : owner m virt = m := if_neg hge
    have hown := (owned_path hv).tail.tail
    rw [hm] at hown ⊢
    exact descend_spec h hown hR hd

/-- **`pmap_enter_kern`.** -/
theorem enterKern_spec (h : Inv D s) {phys : BitVec 64} {prot : Prot} (hv : InScope D m virt)
    (hs : pmapEnterKern s m phys virt prot = some s') :
    Inv D s' ∧ LeafSet D m virt (pteValue phys (vmProtToI386 prot)) s s' := by
  unfold pmapEnterKern at hs
  obtain ⟨R, hR, hs⟩ := Option.bind_eq_some_iff.mp hs
  obtain ⟨⟨pdpte, s₁⟩, hd₁, hs⟩ := Option.bind_eq_some_iff.mp hs
  obtain ⟨⟨pde, s₂⟩, hd₂, hs⟩ := Option.bind_eq_some_iff.mp hs
  obtain ⟨⟨pte, s₃⟩, hd₃, hs⟩ := Option.bind_eq_some_iff.mp hs
  obtain rfl := Option.some.inj hs
  have hown := owned_path hv
  obtain ⟨h₁, hsame₁, hT₁⟩ := descendTop_spec h hR hv hd₁
  obtain ⟨h₂, hsame₂, hT₂⟩ := descend_spec h₁ hown.tail hT₁ hd₂
  obtain ⟨h₃, hsame₃, hT₃⟩ := descend_spec h₂ hown hT₂ hd₃
  have hsame := (hsame₁.trans hsame₂).trans hsame₃
  obtain ⟨h', hword⟩ := setLeaf_spec h₃ hown rfl hT₃ (pti_lt virt) (pteValue phys (vmProtToI386 prot))
  refine ⟨h', hsame.pmaps_eq, fun m' π' hπ' hlen k hk => ?_⟩
  rw [← hsame.word_eq m' π' hπ' hlen k hk]
  exact hword m' π' hπ' hlen k hk

/-- The reverse mappings are no part of the tables. -/
theorem Inv.setPv (h : Inv D s) (page : ℕ) (l : List (PmapId × ℕ)) : Inv D (setPv s page l) :=
  ⟨⟨h.tree.forest, h.tree.freeq_nodup, h.tree.freeq_frame, h.tree.freeq_unused, h.tree.absent⟩,
    ⟨h.shared.live, h.shared.same⟩, h.aligned⟩

/-! ## Removing -/

/-- Where a leaf has a value already, nothing is assigned. -/
theorem leafSet_refl (hword : word s (owner m virt) (path virt) (pti virt) = w) :
    LeafSet D m virt w s s := by
  refine ⟨rfl, fun m' π' _ _ k _ => ?_⟩
  split
  · rename_i heq
    obtain ⟨rfl, rfl, rfl⟩ := heq
    exact hword
  · rfl

/-- Both ways to remove a mapping: nothing happens, or the leaf is cleared. -/
theorem clear_spec (h : Inv D s) {pte : ℕ} (hv : InScope D m virt)
    (hpte : pmapFullyDescend s m virt = some pte) :
    ((pte = 0 ∨ s.mem pte = 0) → LeafSet D m virt 0 s s) ∧
      (pte ≠ 0 → Inv D (setWord s pte 0) ∧ LeafSet D m virt 0 s (setWord s pte 0)) := by
  have hlive : ∃ R, s.pmaps.get? m = some R := by
    unfold pmapFullyDescend at hpte
    obtain ⟨R, hR, -⟩ := Option.bind_eq_some_iff.mp hpte
    exact ⟨R, hR⟩
  obtain ⟨R, hR⟩ := hlive
  rw [fullyDescend_spec h hR hv] at hpte
  have hown := owned_path hv
  -- no leaf table: the entry reads 0 already; else the word of the leaf is written
  cases hT : tableAt s (owner m virt) (path virt) with
  | none =>
      rw [hT] at hpte
      obtain rfl := Option.some.inj hpte
      exact ⟨fun _ => leafSet_refl (word_of_none hT _), fun hne => absurd rfl hne⟩
  | some T =>
      rw [hT] at hpte
      obtain rfl := Option.some.inj hpte
      refine ⟨fun hzero => leafSet_refl ?_, fun _ => ?_⟩
      · rw [word_of_some hT]
        exact hzero.resolve_left (entryOf_ne_zero (h.tree.isFrame hown hT) _)
      · obtain ⟨h', hword⟩ := setLeaf_spec h hown rfl hT (pti_lt virt) 0
        exact ⟨h', rfl, hword⟩

/-- **`pmap_unenter`.** -/
theorem unenter_spec (h : Inv D s) {page : Option ℕ} {pv : Option (PmapId × ℕ)}
    (hv : InScope D m virt) (hs : pmapUnenter s m page virt pv = some s') :
    Inv D s' ∧ LeafSet D m virt 0 s s' := by
  unfold pmapUnenter at hs
  obtain ⟨pte, hpte, hs⟩ := Option.bind_eq_some_iff.mp hs
  obtain ⟨hskip, hclear⟩ := clear_spec h hv hpte
  split at hs
  · obtain rfl := Option.some.inj hs
    exact ⟨h, hskip (.inl ‹_›)⟩
  · rename_i hne
    dsimp only at hs
    split at hs
    · obtain rfl := Option.some.inj hs
      exact ⟨h, hskip (.inr ‹_›)⟩
    · obtain ⟨page', -, hs⟩ := Option.bind_eq_some_iff.mp hs
      split at hs
      · obtain rfl := Option.some.inj hs
        obtain ⟨h', hset⟩ := hclear hne
        exact ⟨h'.setPv _ _, hset.pmaps_eq, hset.word_eq⟩
      · cases hs

/-- **`pmap_unenter_kern`.** -/
theorem unenterKern_spec (h : Inv D s) {page : ℕ} (hv : InScope D m virt)
    (hs : pmapUnenterKern s m virt = some (page, s')) : Inv D s' ∧ LeafSet D m virt 0 s s' := by
  unfold pmapUnenterKern at hs
  obtain ⟨pte, hpte, hs⟩ := Option.bind_eq_some_iff.mp hs
  obtain ⟨-, hclear⟩ := clear_spec h hv hpte
  split at hs
  · cases hs
  · rename_i hne
    dsimp only at hs
    split at hs
    · cases hs
    · obtain ⟨page', -, hs⟩ := Option.bind_eq_some_iff.mp hs
      obtain ⟨-, rfl⟩ := Prod.mk.inj (Option.some.inj hs)
      exact hclear hne

end Scalux.Pmap
