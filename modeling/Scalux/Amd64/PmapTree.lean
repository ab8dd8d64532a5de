import Mathlib.Data.Nat.Bitwise
import Scalux.Amd64.Pmap
import Scalux.Lib.Radix

/-! # The tables of all pmaps are a forest

The tables of a pmap are a radix tree, and the trees of different pmaps have no table in common but
those below the entries that all of them share, from 255 on: these belong to the kernel's.  The boot
loader may have built some of its tables otherwise (it maps large pages, which `pmap_descend` takes for
tables), so the kernel's tree is known only in a `Scope`, and the kernel maps nothing outside of it.

* **`Tree`**: the forest, and the pages that `vm_pagealloc` can return are not in it.
* **`Shared`**: every pmap has the kernel's entries from 255 on, and all of them are present.
* **`descend_spec`**, **`setLeaf_spec`**: what a walk that allocates and an assignment of a leaf do. -/

namespace Scalux.Pmap

variable {s s' : State} {m : PmapId} {π : List ℕ} {T p i virt : ℕ} {w : BitVec 64}

/-! ## Words -/

/-- Flags are outside of the frame. -/
theorem pteGetAddr_pteValue {flags : BitVec 64} (h : flags &&& kMMUFrame = 0#64) (addr : BitVec 64) :
    pteGetAddr (pteValue addr flags) = addr &&& kMMUFrame := by
  unfold pteGetAddr pteValue
  rw [BitVec.and_or_distrib_right, BitVec.and_assoc, BitVec.and_self, h, BitVec.or_zero]

/-- The flags of an entry are those it was made with. -/
theorem pteGetFlags_pteValue {flags : BitVec 64} (h : flags &&& ~~~kMMUFrame = flags)
    (addr : BitVec 64) : pteGetFlags (pteValue addr flags) = flags := by
  have hnone : kMMUFrame &&& ~~~kMMUFrame = 0#64 := by decide
  unfold pteGetFlags pteValue
  rw [BitVec.and_or_distrib_right, BitVec.and_assoc, hnone, BitVec.and_zero, BitVec.zero_or, h]

/-- An entry with the default flags is present. -/
theorem pteValue_present (addr : BitVec 64) :
    pteValue addr kMMUDefaultProt &&& kMMUPresent = 1#64 := by
  have hframe : kMMUFrame &&& kMMUPresent = 0#64 := by decide
  have hprot : kMMUDefaultProt &&& kMMUPresent = 1#64 := by decide
  unfold pteValue
  rw [BitVec.and_or_distrib_right, BitVec.and_assoc, hframe, hprot, BitVec.and_zero, BitVec.zero_or]

/-- Frames are pages. -/
theorem pteGetAddr_mod (pte : BitVec 64) : (pteGetAddr pte).toNat % 4096 = 0 := by
  have hmod := Nat.and_mod_two_pow (a := pte.toNat) (b := kMMUFrame.toNat) (n := 12)
  have hframe : kMMUFrame.toNat % 2 ^ 12 = 0 := by decide
  unfold pteGetAddr
  rw [BitVec.toNat_and]
  exact hmod.trans (by rw [hframe, Nat.and_zero])

/-! ## Tables -/

/-- The address of a page that an entry can hold. -/
def IsFrame (T : ℕ) : Prop := T ≠ 0 ∧ (pteGetAddr (BitVec.ofNat 64 T)).toNat = T

instance (T : ℕ) : Decidable (IsFrame T) := inferInstanceAs (Decidable (_ ∧ _))

/-- The address of a frame is a multiple of 4096. -/
theorem IsFrame.mod_eq (h : IsFrame T) : T % 4096 = 0 := by
  have := pteGetAddr_mod (BitVec.ofNat 64 T)
  rwa [h.2] at this

/-- Entries of pages are at different addresses. -/
theorem entryOf_inj {T' i j : ℕ} (h : IsFrame T) (h' : IsFrame T') (hi : i < 512) (hj : j < 512)
    (heq : entryOf T i = entryOf T' j) : T = T' ∧ i = j := by
  have := h.mod_eq
  have := h'.mod_eq
  unfold entryOf at heq
  omega

/-- Where `pmap_descend` goes on. -/
def nextTable (pte : BitVec 64) : Option ℕ :=
  if pte &&& kMMUPresent ≠ 0 then some (pteGetAddr pte).toNat else none

/-- Page tables as the tables of a radix tree. -/
def pteFormat : Format (BitVec 64) where
  slot := entryOf
  entries := 512
  IsTable := IsFrame
  slot_inj := entryOf_inj
  next := nextTable

/-- An entry that is zero has no table. -/
theorem nextTable_zero : nextTable 0 = none := by decide

/-- An entry with an address has the table there. -/
theorem nextTable_pteValue (addr : BitVec 64) :
    nextTable (pteValue addr kMMUDefaultProt) = some (addr &&& kMMUFrame).toNat := by
  unfold nextTable
  rw [pteValue_present, if_pos (by decide), pteGetAddr_pteValue (by decide)]

/-- The part of the kernel's tree that the kernel has made or knows to be one. -/
structure Scope where
  mem : List ℕ → Prop
  nil : mem []
  tail : ∀ {i π}, mem (i :: π) → mem π

/-- The whole tree. -/
def Scope.all : Scope := ⟨fun _ => True, trivial, fun _ => trivial⟩

/-- A table that belongs to a pmap: at most three levels down, and not below the entries that are
shared unless the pmap is the kernel's. -/
structure Owned (D : Scope) (m : PmapId) (π : List ℕ) : Prop where
  length_le : π.length ≤ 3
  lt : ∀ i ∈ π, i < 512
  scope : m = kpmap → D.mem π
  user : m ≠ kpmap → ∀ i ∈ π.getLast?, i < 255

variable {D : Scope}

/-- The top table of every pmap is its own. -/
theorem owned_nil (D : Scope) (m : PmapId) : Owned D m [] :=
  ⟨Nat.zero_le _, by simp, fun _ => D.nil, by simp⟩

/-- The table above an own table is an own one. -/
theorem Owned.tail (h : Owned D m (i :: π)) : Owned D m π where
  length_le := Nat.le_of_succ_le h.length_le
  lt j hj := h.lt j (List.mem_cons_of_mem _ hj)
  scope hm := D.tail (h.scope hm)
  user hm j hj := h.user hm j (by
    cases π with
    | nil => cases hj
    | cons k π => rwa [List.getLast?_cons_cons])

/-- With each own table those above it are own ones. -/
theorem owned_closed (D : Scope) : Closed pteFormat (Owned D) :=
  ⟨fun h => h.tail, fun h => h.lt _ List.mem_cons_self⟩

/-- The table of a pmap at the end of a path. -/
def tableAt (s : State) (m : PmapId) (π : List ℕ) : Option ℕ := pteFormat.find s.pmaps.get? s.mem m π

/-- The top table of a pmap. -/
@[simp] theorem tableAt_nil : tableAt s m [] = s.pmaps.get? m := rfl

/-- The table below is that of an entry of the one above. -/
@[simp] theorem tableAt_cons :
    tableAt s m (i :: π) = (tableAt s m π).bind fun T => nextTable (s.mem (entryOf T i)) := rfl

/-- **The tables of all pmaps are a forest**, and unused pages are not in it. -/
structure Tree (D : Scope) (s : State) : Prop where
  forest : Forest pteFormat (Owned D) s.pmaps.get? s.mem
  freeq_nodup : s.freeq.Nodup
  freeq_frame : ∀ p ∈ s.freeq, IsFrame p
  freeq_unused : ∀ p ∈ s.freeq, Unused pteFormat (Owned D) s.pmaps.get? s.mem p
  /-- Entries without a table are zero, but in what the boot loader has made. -/
  absent : ∀ m i π T, m ≠ kpmap → Owned D m (i :: π) → tableAt s m π = some T →
    tableAt s m (i :: π) = none → s.mem (entryOf T i) = 0

/-- All pmaps have the same entries from 255 on, and these are present. -/
structure Shared (s : State) : Prop where
  live : s.pmaps.get? kpmap ≠ none
  same : ∀ m R K, s.pmaps.get? m = some R → s.pmaps.get? kpmap = some K → ∀ i, 255 ≤ i → i < 512 →
    nextTable (s.mem (entryOf R i)) = nextTable (s.mem (entryOf K i)) ∧
      nextTable (s.mem (entryOf K i)) ≠ none

/-- The tables of a tree are frames. -/
theorem Tree.isFrame (h : Tree D s) (hπ : Owned D m π) (hT : tableAt s m π = some T) : IsFrame T :=
  h.forest.isTable hπ hT

/-- A table is in one place of one pmap only. -/
theorem Tree.inj (h : Tree D s) {m' : PmapId} {π' : List ℕ} (hπ : Owned D m π) (hπ' : Owned D m' π')
    (hT : tableAt s m π = some T) (hT' : tableAt s m' π' = some T) : m = m' ∧ π = π' :=
  h.forest.inj hπ hπ' hT hT'

/-- An entry that is shared is not absent. -/
theorem Shared.next_ne_none (h : Shared s) {R : ℕ} (hR : s.pmaps.get? m = some R) (hi : 255 ≤ i)
    (hlt : i < 512) : nextTable (s.mem (entryOf R i)) ≠ none := by
  obtain ⟨K, hK⟩ := Option.ne_none_iff_exists'.mp h.live
  rw [(h.same m R K hR hK i hi hlt).1]
  exact (h.same m R K hR hK i hi hlt).2

/-- **Below an entry that is shared every pmap finds the kernel's tables.** -/
theorem Shared.tableAt_eq (h : Shared s) {R : ℕ} (hR : s.pmaps.get? m = some R)
    (hπ : ∃ i ∈ π.getLast?, 255 ≤ i ∧ i < 512) : tableAt s m π = tableAt s kpmap π := by
  obtain ⟨K, hK⟩ := Option.ne_none_iff_exists'.mp h.live
  induction π with
  | nil =>
      obtain ⟨i, hi, -⟩ := hπ
      cases hi
  | cons j π ih =>
      cases π with
      | nil =>
          obtain ⟨i, hi, hge, hlt⟩ := hπ
          obtain rfl : j = i := by simpa using hi
          rw [tableAt_cons, tableAt_cons, tableAt_nil, tableAt_nil, hR, hK]
          exact (h.same m R K hR hK j hge hlt).1
      | cons k π =>
          rw [List.getLast?_cons_cons] at hπ
          rw [tableAt_cons, ih hπ, ← tableAt_cons]

/-! ## Leaves -/

/-- The word at an index of a table, zero where there is no table. -/
def word (s : State) (m : PmapId) (π : List ℕ) (j : ℕ) : BitVec 64 :=
  (tableAt s m π).elim 0 fun T => s.mem (entryOf T j)

/-- The entry of a table that is there. -/
theorem word_of_some (hT : tableAt s m π = some T) (j : ℕ) : word s m π j = s.mem (entryOf T j) := by
  rw [word, hT]
  rfl

/-- The entries of a table that is not there are zero. -/
theorem word_of_none (hT : tableAt s m π = none) (j : ℕ) : word s m π j = 0 := by
  rw [word, hT]
  rfl

/-- The leaves are the same, and so are the pmaps. -/
structure SameLeaves (D : Scope) (s s' : State) : Prop where
  pmaps_eq : s'.pmaps = s.pmaps
  word_eq : ∀ m π, Owned D m π → π.length = 3 → ∀ j, j < 512 → word s' m π j = word s m π j

/-- Nothing has changed. -/
theorem SameLeaves.refl (D : Scope) (s : State) : SameLeaves D s s := ⟨rfl, fun _ _ _ _ _ _ => rfl⟩

/-- One change after another that leaves the last level as it is. -/
theorem SameLeaves.trans {s'' : State} (h : SameLeaves D s s') (h' : SameLeaves D s' s'') :
    SameLeaves D s s'' where
  pmaps_eq := h'.pmaps_eq.trans h.pmaps_eq
  word_eq m π hπ hlen j hj := (h'.word_eq m π hπ hlen j hj).trans (h.word_eq m π hπ hlen j hj)

/-! ## Allocating a table -/

/-- The state after `vm_pagealloc` has returned `p` and an entry has been made to point there. -/
def grow (s : State) (T i p : ℕ) (freeq : List ℕ) : State :=
  pteSet { s with freeq := freeq, mem := clearPage s.mem p } (entryOf T i) (BitVec.ofNat 64 p)
    kMMUDefaultProt

/-- The entries of a page that is cleared are zero. -/
theorem clearPage_self {j : ℕ} (mem : ℕ → BitVec 64) (hj : j < 512) :
    clearPage mem p (entryOf p j) = 0 := by
  unfold clearPage entryOf pgSize
  rw [if_pos (by omega)]

/-- The entries of the other pages stay. -/
theorem clearPage_of_ne {j : ℕ} (mem : ℕ → BitVec 64) (hp : IsFrame p) (hT : IsFrame T) (hne : T ≠ p)
    (hj : j < 512) : clearPage mem p (entryOf T j) = mem (entryOf T j) := by
  have := hp.mod_eq
  have := hT.mod_eq
  unfold clearPage entryOf pgSize
  rw [if_neg (by omega)]

/-- `vm_pagealloc` takes the first unused page and clears it. -/
theorem vmPagealloc_eq_some {p : ℕ} (h : vmPagealloc s = some (p, s')) :
    ∃ freeq, s.freeq = p :: freeq ∧ s' = { s with freeq := freeq, mem := clearPage s.mem p } := by
  unfold vmPagealloc at h
  split at h
  · cases h
  · rename_i page freeq hfreeq
    obtain ⟨rfl, rfl⟩ := Prod.mk.inj (Option.some.inj h)
    exact ⟨freeq, hfreeq, rfl⟩

/-- The entry that gets a table has the new page as its table. -/
theorem grow_entry {freeq : List ℕ} (hp : IsFrame p) :
    nextTable ((grow s T i p freeq).mem (entryOf T i)) = some p := by
  show nextTable (Function.update (clearPage s.mem p) (entryOf T i) _ (entryOf T i)) = _
  rw [Function.update_self, nextTable_pteValue]
  exact congrArg some hp.2

/-- The new table is empty. -/
theorem grow_empty {freeq : List ℕ} {j : ℕ} (hp : IsFrame p) (hT : IsFrame T) (hne : T ≠ p)
    (hi : i < 512) (hj : j < 512) : (grow s T i p freeq).mem (entryOf p j) = 0 := by
  show Function.update (clearPage s.mem p) _ _ _ = _
  rw [Function.update_of_ne, clearPage_self s.mem hj]
  exact fun heq => hne (entryOf_inj hp hT hj hi heq).1.symm

/-- Every other entry of every other table stays. -/
theorem grow_other {freeq : List ℕ} {T' j : ℕ} (hp : IsFrame p) (hT : IsFrame T) (hT' : IsFrame T')
    (hi : i < 512) (hj : j < 512) (hne : T' ≠ p) (hother : T' = T → j ≠ i) :
    (grow s T i p freeq).mem (entryOf T' j) = s.mem (entryOf T' j) := by
  show Function.update (clearPage s.mem p) _ _ _ = _
  rw [Function.update_of_ne, clearPage_of_ne s.mem hp hT' hne hj]
  intro heq
  obtain ⟨rfl, rfl⟩ := entryOf_inj hT' hT hj hi heq
  exact hother rfl rfl

/-- A table is on no queue. -/
theorem Tree.ne_of_freeq (h : Tree D s) (hp : p ∈ s.freeq) (hπ : Owned D m π)
    (hT : tableAt s m π = some T) : T ≠ p := by
  rintro rfl
  exact h.freeq_unused T hp m π hπ hT

section Grow

variable {freeq : List ℕ} (h : Tree D s) (hfreeq : s.freeq = p :: freeq) (hπ : Owned D m π)
  (hlen : π.length ≤ 2) (hT : tableAt s m π = some T) (hi : i < 512)
  (hfree : Owned D m (i :: π) → tableAt s m (i :: π) = none)
include h hfreeq hπ hT hi hfree

/-- One node more. -/
theorem tableAt_grow {m' : PmapId} {π' : List ℕ} (hπ' : Owned D m' π') :
    tableAt (grow s T i p freeq) m' π'
      = if m' = m ∧ π' = i :: π then some p else tableAt s m' π' := by
  have hp := h.freeq_frame p (hfreeq ▸ List.mem_cons_self)
  have hunused := h.freeq_unused p (hfreeq ▸ List.mem_cons_self)
  have hTf := h.isFrame hπ hT
  have hne : T ≠ p := h.ne_of_freeq (hfreeq ▸ List.mem_cons_self) hπ hT
  refine h.forest.find_grow hπ hT hfree hunused (grow_entry hp) (fun j hj => ?_) ?_ hπ'
  · show nextTable ((grow s T i p freeq).mem (entryOf p j)) = none
    rw [grow_empty hp hTf hne hi hj]
    exact nextTable_zero
  · intro T' j hT' hj hne hother
    exact grow_other hp hTf hT' hi hj hne hother

/-- **Allocating a table keeps the forest.** -/
theorem tree_grow : Tree D (grow s T i p freeq) := by
  have hp := h.freeq_frame p (hfreeq ▸ List.mem_cons_self)
  have hunused := h.freeq_unused p (hfreeq ▸ List.mem_cons_self)
  have hTf := h.isFrame hπ hT
  have hne : T ≠ p := h.ne_of_freeq (hfreeq ▸ List.mem_cons_self) hπ hT
  -- the new table is found at one path, every other path leads where it led
  have hfind : ∀ m' π', Owned D m' π' → tableAt (grow s T i p freeq) m' π'
      = if m' = m ∧ π' = i :: π then some p else tableAt s m' π' :=
    fun m' π' hπ' => tableAt_grow h hfreeq hπ hT hi hfree hπ'
  have hnodup := hfreeq ▸ h.freeq_nodup
  refine ⟨h.forest.of_grown hp hunused hfind, (List.nodup_cons.mp hnodup).2, fun q hq => ?_,
    fun q hq => ?_, ?_⟩
  · exact h.freeq_frame q (hfreeq ▸ List.mem_cons_of_mem _ hq)
  · refine (h.freeq_unused q (hfreeq ▸ List.mem_cons_of_mem _ hq)).of_grown ?_ hfind
    rintro rfl
    exact (List.nodup_cons.mp hnodup).1 hq
  · intro m' j ρ T' hm' hρ hT' hnone
    have hj := hρ.lt j List.mem_cons_self
    rw [hfind m' ρ hρ.tail] at hT'
    rw [hfind m' (j :: ρ) hρ] at hnone
    split at hT'
    · -- an entry of the new table
      obtain rfl := Option.some.inj hT'
      exact grow_empty hp hTf hne hi hj
    · split at hnone
      · cases hnone
      · rename_i hnew
        -- an entry that is not the one written; the new page is no table, and the path is not the new one
        rw [grow_other hp hTf (h.isFrame hρ.tail hT') hi hj]
        · exact h.absent m' j ρ T' hm' hρ hT' hnone
        · rintro rfl
          exact hunused m' ρ hρ.tail hT'
        · rintro rfl rfl
          obtain ⟨rfl, rfl⟩ := h.inj hρ.tail hπ hT' hT
          exact hnew ⟨rfl, rfl⟩

include hlen

/-- A table above the last level leaves the last level as it is. -/
theorem sameLeaves_grow : SameLeaves D s (grow s T i p freeq) := by
  refine ⟨rfl, fun m' π' hπ' hlen' j hj => ?_⟩
  have hp := h.freeq_frame p (hfreeq ▸ List.mem_cons_self)
  have hunused := h.freeq_unused p (hfreeq ▸ List.mem_cons_self)
  have hTf := h.isFrame hπ hT
  have hfind := tableAt_grow h hfreeq hπ hT hi hfree hπ'
  -- the path of the new table read nothing before and reads zeroes now; the others keep their table
  by_cases hnew : m' = m ∧ π' = i :: π
  · obtain ⟨rfl, rfl⟩ := hnew
    rw [if_pos ⟨rfl, rfl⟩] at hfind
    rw [word_of_some hfind, word_of_none (hfree hπ')]
    refine grow_empty hp hTf ?_ hi hj
    rintro rfl
    exact hunused m' π hπ hT
  · rw [if_neg hnew] at hfind
    cases hT' : tableAt s m' π' with
    | none =>
        rw [hT'] at hfind
        rw [word_of_none hfind, word_of_none hT']
    | some T' =>
        rw [hT'] at hfind
        rw [word_of_some hfind, word_of_some hT', grow_other hp hTf (h.isFrame hπ' hT') hi hj]
        · rintro rfl
          exact hunused m' π' hπ' hT'
        · rintro rfl
          obtain ⟨-, rfl⟩ := h.inj hπ' hπ hT' hT
          omega

end Grow

/-- The shared entries are those of the top tables. -/
theorem Shared.congr (hs : Shared s) (hpmaps : s'.pmaps = s.pmaps)
    (htop : ∀ m R, s.pmaps.get? m = some R → ∀ k, 255 ≤ k → k < 512 →
      nextTable (s'.mem (entryOf R k)) = nextTable (s.mem (entryOf R k))) : Shared s' where
  live := hpmaps ▸ hs.live
  same m R K hR hK k hk hlt := by
    rw [hpmaps] at hR hK
    rw [htop m R hR k hk hlt, htop kpmap K hK k hk hlt]
    exact hs.same m R K hR hK k hk hlt

/-- A table below an entry that was absent is not below a shared one. -/
theorem shared_grow (h : Tree D s) (hs : Shared s) {freeq : List ℕ} (hfreeq : s.freeq = p :: freeq)
    (hπ : Owned D m π) (hT : tableAt s m π = some T) (hi : i < 512)
    (hnone : nextTable (s.mem (entryOf T i)) = none) : Shared (grow s T i p freeq) := by
  refine hs.congr rfl fun m' R hR k hk hlt => ?_
  have hR' : tableAt s m' [] = some R := hR
  have hp := h.freeq_frame p (hfreeq ▸ List.mem_cons_self)
  rw [grow_other hp (h.isFrame hπ hT) (h.isFrame (owned_nil D m') hR') hi hlt]
  · rintro rfl
    exact h.freeq_unused R (hfreeq ▸ List.mem_cons_self) m' [] (owned_nil D m') hR'
  · rintro rfl rfl
    exact hs.next_ne_none hR hk hlt hnone

/-! ## Walking -/

/-- The invariant of all pmaps. -/
structure Inv (D : Scope) (s : State) : Prop where
  tree : Tree D s
  shared : Shared s
  aligned : ∀ preg ∈ s.pregions, preg.base % pgSize = 0

/-- `pmap_descend` without allocating. -/
theorem pmapDescend_lookup (s : State) (T i : ℕ) (prot : BitVec 64) :
    pmapDescend s T i false prot = some ((nextTable (s.mem (entryOf T i))).getD 0, s) := by
  unfold pmapDescend nextTable
  dsimp only
  split
  · rfl
  · rfl

/-- **`pmap_descend` that allocates** finds the next table, or makes it. -/
theorem descend_spec {T' : ℕ} (h : Inv D s) (hπ : Owned D m (i :: π)) (hT : tableAt s m π = some T)
    (hd : pmapDescend s T i true kMMUDefaultProt = some (T', s')) :
    Inv D s' ∧ SameLeaves D s s' ∧ tableAt s' m (i :: π) = some T' := by
  have hi := hπ.lt i List.mem_cons_self
  have hnext : tableAt s m (i :: π) = nextTable (s.mem (entryOf T i)) := by
    rw [tableAt_cons, hT]
    rfl
  unfold pmapDescend at hd
  dsimp only at hd
  -- the entry is present already, or a page is taken for a new table
  split at hd
  · rename_i hpresent
    obtain ⟨rfl, rfl⟩ : _ ∧ _ := Prod.mk.inj (Option.some.inj hd)
    refine ⟨h, SameLeaves.refl D s, ?_⟩
    rw [hnext, nextTable, if_pos hpresent]
  · rename_i habsent
    have hnone : nextTable (s.mem (entryOf T i)) = none := if_neg habsent
    rw [if_pos rfl] at hd
    obtain ⟨⟨page, s₁⟩, halloc, hd⟩ := Option.bind_eq_some_iff.mp hd
    obtain ⟨freeq, hfreeq, rfl⟩ := vmPagealloc_eq_some halloc
    obtain ⟨rfl, rfl⟩ := Prod.mk.inj (Option.some.inj hd)
    have hfree : Owned D m (i :: π) → tableAt s m (i :: π) = none := fun _ => hnext.trans hnone
    have hlen : π.length ≤ 2 := Nat.le_of_succ_le_succ hπ.length_le
    refine ⟨⟨tree_grow h.tree hfreeq hπ.tail hT hi hfree,
      shared_grow h.tree h.shared hfreeq hπ.tail hT hi hnone, h.aligned⟩,
      sameLeaves_grow h.tree hfreeq hπ.tail hlen hT hi hfree, ?_⟩
    have hfind := tableAt_grow h.tree hfreeq hπ.tail hT hi hfree hπ
    rwa [if_pos ⟨rfl, rfl⟩] at hfind

/-! ## Leaves that are assigned -/

/-- Assigning a word of memory. -/
def setWord (s : State) (a : ℕ) (w : BitVec 64) : State :=
  { s with mem := Function.update s.mem a w }

/-- **Assigning a leaf** changes that leaf, and no table. -/
theorem setLeaf_spec {j : ℕ} (h : Inv D s) (hπ : Owned D m π) (hlen : π.length = 3)
    (hT : tableAt s m π = some T) (hj : j < 512) (w : BitVec 64) :
    Inv D (setWord s (entryOf T j) w) ∧ ∀ m' π', Owned D m' π' → π'.length = 3 → ∀ k, k < 512 →
      word (setWord s (entryOf T j) w) m' π' k
        = if m' = m ∧ π' = π ∧ k = j then w else word s m' π' k := by
  have hfind : ∀ m' π', Owned D m' π' → tableAt (setWord s (entryOf T j) w) m' π' = tableAt s m' π' :=
    fun m' π' hπ' => h.tree.forest.find_write hπ hT hj (fun hown => by
      have := hown.length_le
      rw [List.length_cons] at this
      omega) w hπ'
  -- entries of tables at other levels are at other addresses
  have hmem : ∀ m' π' T' k, Owned D m' π' → π' ≠ π → tableAt s m' π' = some T' → k < 512 →
      (setWord s (entryOf T j) w).mem (entryOf T' k) = s.mem (entryOf T' k) := by
    intro m' π' T' k hπ' hne hT' hk
    refine Function.update_of_ne (fun heq => hne ?_) _ _
    exact (h.tree.forest.slot_inj hπ' hπ hT' hT hk hj heq).2.1
  have hne : ∀ π' : List ℕ, π'.length ≤ 2 → π' ≠ π := by
    rintro π' hle rfl
    omega
  refine ⟨⟨⟨h.tree.forest.congr hfind, h.tree.freeq_nodup, h.tree.freeq_frame, ?_, ?_⟩, ?_,
    h.aligned⟩, ?_⟩
  · intro p hp m' π' hπ' hp'
    exact h.tree.freeq_unused p hp m' π' hπ' ((hfind m' π' hπ').symm.trans hp')
  · intro m' i ρ T' hm' hρ hT' hnone
    rw [hfind m' ρ hρ.tail] at hT'
    rw [hfind m' _ hρ] at hnone
    rw [hmem m' ρ T' i hρ.tail (hne ρ (Nat.le_of_succ_le_succ hρ.length_le)) hT'
      (hρ.lt i List.mem_cons_self)]
    exact h.tree.absent m' i ρ T' hm' hρ hT' hnone
  · refine h.shared.congr rfl fun m' R hR k _ hlt => ?_
    rw [hmem m' [] R k (owned_nil D m') (hne [] (Nat.zero_le _)) hR hlt]
  · intro m' π' hπ' _ k hk
    cases hT' : tableAt s m' π' with
    | none =>
        rw [word_of_none ((hfind m' π' hπ').trans hT'), word_of_none hT', if_neg]
        rintro ⟨rfl, rfl, -⟩
        rw [hT] at hT'
        cases hT'
    | some T' =>
        rw [word_of_some ((hfind m' π' hπ').trans hT'), word_of_some hT']
        show Function.update s.mem (entryOf T j) w (entryOf T' k) = _
        by_cases heq : m' = m ∧ π' = π ∧ k = j
        · obtain ⟨rfl, rfl, rfl⟩ := heq
          rw [hT] at hT'
          obtain rfl := Option.some.inj hT'
          rw [if_pos ⟨rfl, rfl, rfl⟩, Function.update_self]
        · rw [if_neg heq, Function.update_of_ne]
          exact fun hslot => heq (h.tree.forest.slot_inj hπ' hπ hT' hT hk hj hslot)

end Scalux.Pmap
