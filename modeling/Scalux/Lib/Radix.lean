import Mathlib.Data.Nat.Basic
import Mathlib.Logic.Function.Basic

/-! # Forests of radix trees in a memory of words

A radix tree keeps its nodes in tables, and the tables in a flat memory.  An entry of a table is a
word, and some words point to another table.  A node of a forest is named by the root it is under and
the path to it, last index first; `Owned` says which nodes belong to the forest.

* **`Format.find`**: the table of a node, found by following the entries.
* **`Forest`**: no table belongs to two nodes.
* **`Forest.find_write`**, **`Forest.find_grow`**, **`Forest.find_plant`**, **`find_cut`**: what writing
  an entry, adding a table below an entry, adding a root and removing one do to every node. -/

namespace Scalux

/-- How tables lie in the memory, and which table a word points to. -/
structure Format (W : Type*) where
  /-- The address of an entry. -/
  slot : ℕ → ℕ → ℕ
  /-- The number of entries of a table. -/
  entries : ℕ
  /-- Where a table may be. -/
  IsTable : ℕ → Prop
  slot_inj : ∀ {T T' i j}, IsTable T → IsTable T' → i < entries → j < entries →
    slot T i = slot T' j → T = T' ∧ i = j
  next : W → Option ℕ

variable {W ι : Type*} {F : Format W} {roots roots' : ι → Option ℕ} {mem mem' : ℕ → W}
  {Owned : ι → List ℕ → Prop} {r : ι} {π : List ℕ} {T p i : ℕ}

/-- The table of a node. -/
def Format.find (F : Format W) (roots : ι → Option ℕ) (mem : ℕ → W) (r : ι) : List ℕ → Option ℕ
  | [] => roots r
  | i :: π => (F.find roots mem r π).bind fun T => F.next (mem (F.slot T i))

/-- The empty path leads to the root. -/
@[simp] theorem find_nil : F.find roots mem r [] = roots r := rfl

/-- A path leads to the next table of the table its rest leads to. -/
@[simp] theorem find_cons :
    F.find roots mem r (i :: π) = (F.find roots mem r π).bind fun T => F.next (mem (F.slot T i)) :=
  rfl

/-- A node of the forest has its parent in the forest, and its index is one of a table. -/
structure Closed (F : Format W) (Owned : ι → List ℕ → Prop) : Prop where
  tail : ∀ {r i π}, Owned r (i :: π) → Owned r π
  lt : ∀ {r i π}, Owned r (i :: π) → i < F.entries

/-- Every node of the forest has a table of its own. -/
structure Forest (F : Format W) (Owned : ι → List ℕ → Prop) (roots : ι → Option ℕ) (mem : ℕ → W) :
    Prop where
  closed : Closed F Owned
  isTable : ∀ {r π T}, Owned r π → F.find roots mem r π = some T → F.IsTable T
  inj : ∀ {r r' π π' T}, Owned r π → Owned r' π' → F.find roots mem r π = some T →
    F.find roots mem r' π' = some T → r = r' ∧ π = π'

/-- The table is in no node of the forest. -/
def Unused (F : Format W) (Owned : ι → List ℕ → Prop) (roots : ι → Option ℕ) (mem : ℕ → W) (p : ℕ) :
    Prop :=
  ∀ r π, Owned r π → F.find roots mem r π ≠ some p

/-- The nodes of a forest depend only on where their entries point to. -/
theorem find_congr (hc : Closed F Owned) (hroots : roots' r = roots r)
    (hmem : ∀ i π T, Owned r (i :: π) → F.find roots mem r π = some T →
      F.next (mem' (F.slot T i)) = F.next (mem (F.slot T i))) (hπ : Owned r π) :
    F.find roots' mem' r π = F.find roots mem r π := by
  induction π with
  | nil => exact hroots
  | cons i π ih =>
      rw [find_cons, find_cons, ih (hc.tail hπ)]
      cases hT : F.find roots mem r π with
      | none => rfl
      | some T => exact hmem i π T hπ hT

/-- A table that is neither the new one nor in a node is in no node afterwards. -/
theorem Unused.of_grown [DecidableEq ι] {q : ℕ} (hunused : Unused F Owned roots mem q) (hq : q ≠ p)
    (hfind : ∀ r' π', Owned r' π' → F.find roots' mem' r' π'
      = if r' = r ∧ π' = π then some p else F.find roots mem r' π') :
    Unused F Owned roots' mem' q := by
  intro r' π' hπ' hq'
  rw [hfind _ _ hπ'] at hq'
  split at hq'
  · exact hq (Option.some.inj hq').symm
  · exact hunused r' π' hπ' hq'

namespace Forest

variable (h : Forest F Owned roots mem)
include h

/-- Where the same tables are found, it is a forest. -/
theorem congr (hfind : ∀ r π, Owned r π → F.find roots' mem' r π = F.find roots mem r π) :
    Forest F Owned roots' mem' where
  closed := h.closed
  isTable hπ hT := h.isTable hπ (hfind _ _ hπ ▸ hT)
  inj hπ hπ' hT hT' := h.inj hπ hπ' (hfind _ _ hπ ▸ hT) (hfind _ _ hπ' ▸ hT')

/-- Entries of two nodes are at different addresses. -/
theorem slot_inj {r' : ι} {π' : List ℕ} {T' j : ℕ} (hπ : Owned r π) (hπ' : Owned r' π')
    (hT : F.find roots mem r π = some T) (hT' : F.find roots mem r' π' = some T') (hi : i < F.entries)
    (hj : j < F.entries) (heq : F.slot T i = F.slot T' j) : r = r' ∧ π = π' ∧ i = j := by
  obtain ⟨rfl, rfl⟩ := F.slot_inj (h.isTable hπ hT) (h.isTable hπ' hT') hi hj heq
  obtain ⟨rfl, rfl⟩ := h.inj hπ hπ' hT hT'
  exact ⟨rfl, rfl, rfl⟩

/-- **Writing an entry that leads to no node** of the forest changes no node. -/
theorem find_write (hπ : Owned r π) (hT : F.find roots mem r π = some T) (hi : i < F.entries)
    (hleaf : ¬ Owned r (i :: π)) (w : W) {r' : ι} {π' : List ℕ} (hπ' : Owned r' π') :
    F.find roots (Function.update mem (F.slot T i) w) r' π' = F.find roots mem r' π' := by
  refine find_congr h.closed rfl (fun j ρ T' hρ hT' => ?_) hπ'
  rw [Function.update_of_ne]
  intro heq
  obtain ⟨rfl, rfl, rfl⟩ :=
    h.slot_inj (h.closed.tail hρ) hπ hT' hT (h.closed.lt hρ) hi heq
  exact hleaf hρ

variable [DecidableEq ι]

/-- **Adding an empty table below an entry** adds one node. -/
theorem find_grow (hπ : Owned r π) (hT : F.find roots mem r π = some T)
    (hfree : Owned r (i :: π) → F.find roots mem r (i :: π) = none)
    (hunused : Unused F Owned roots mem p) (hentry : F.next (mem' (F.slot T i)) = some p)
    (hempty : ∀ j, j < F.entries → F.next (mem' (F.slot p j)) = none)
    (hother : ∀ T' j, F.IsTable T' → j < F.entries → T' ≠ p → (T' = T → j ≠ i) →
      mem' (F.slot T' j) = mem (F.slot T' j))
    {r' : ι} {π' : List ℕ} (hπ' : Owned r' π') : F.find roots mem' r' π'
      = if r' = r ∧ π' = i :: π then some p else F.find roots mem r' π' := by
  induction π' with
  | nil =>
      rw [if_neg (by simp)]
      rfl
  | cons j ρ ih =>
      have hρ := h.closed.tail hπ'
      have hj := h.closed.lt hπ'
      rw [find_cons, ih hρ]
      by_cases hnew : r' = r ∧ ρ = i :: π
      · -- the node is below the new table, which is empty; it was below no table before
        obtain ⟨rfl, rfl⟩ := hnew
        rw [if_pos ⟨rfl, rfl⟩, if_neg (by simp), Option.bind_some, hempty j hj, find_cons, hfree hρ]
        rfl
      rw [if_neg hnew, find_cons]
      cases hT' : F.find roots mem r' ρ with
      | none =>
          rw [if_neg]
          · rfl
          · rintro ⟨rfl, hcons⟩
            obtain ⟨-, rfl⟩ := List.cons.inj hcons
            rw [hT] at hT'
            cases hT'
      | some T' =>
          simp only [Option.bind_some]
          -- the entry that is written, or another one of a table that is not new
          by_cases hpos : r' = r ∧ j :: ρ = i :: π
          · obtain ⟨rfl, hcons⟩ := hpos
            obtain ⟨rfl, rfl⟩ := List.cons.inj hcons
            rw [if_pos ⟨rfl, rfl⟩]
            rw [hT] at hT'
            rw [← Option.some.inj hT', hentry]
          · rw [if_neg hpos, hother T' j (h.isTable hρ hT') hj]
            · rintro rfl
              exact hunused r' ρ hρ hT'
            · rintro rfl rfl
              obtain ⟨rfl, rfl⟩ := h.inj hρ hπ hT' hT
              exact hpos ⟨rfl, rfl⟩

/-- With one more node it is still a forest. -/
theorem of_grown (hp : F.IsTable p) (hunused : Unused F Owned roots mem p)
    (hfind : ∀ r' π', Owned r' π' → F.find roots' mem' r' π'
      = if r' = r ∧ π' = π then some p else F.find roots mem r' π') :
    Forest F Owned roots' mem' where
  closed := h.closed
  isTable hπ' hT' := by
    rw [hfind _ _ hπ'] at hT'
    split at hT'
    · exact Option.some.inj hT' ▸ hp
    · exact h.isTable hπ' hT'
  inj {r₁ r₂ π₁ π₂ T'} hπ₁ hπ₂ h₁ h₂ := by
    rw [hfind _ _ hπ₁] at h₁
    rw [hfind _ _ hπ₂] at h₂
    -- two paths that both end at the new table are the grown path
    split at h₁
    · rename_i heq₁
      split at h₂
      · rename_i heq₂
        exact ⟨heq₁.1.trans heq₂.1.symm, heq₁.2.trans heq₂.2.symm⟩
      · rw [← Option.some.inj h₁] at h₂
        exact absurd h₂ (hunused _ _ hπ₂)
    · split at h₂
      · rw [← Option.some.inj h₂] at h₁
        exact absurd h₁ (hunused _ _ hπ₁)
      · exact h.inj hπ₁ hπ₂ h₁ h₂

/-- **Adding a root** whose entries lead to no node adds one node. -/
theorem find_plant (hr : roots r = none)
    (hunused : Unused F Owned roots mem p)
    (hempty : ∀ j, Owned r [j] → F.next (mem' (F.slot p j)) = none)
    (hother : ∀ T' j, F.IsTable T' → j < F.entries → T' ≠ p →
      mem' (F.slot T' j) = mem (F.slot T' j))
    {r' : ι} {π' : List ℕ} (hπ' : Owned r' π') :
    F.find (Function.update roots r (some p)) mem' r' π'
      = if r' = r ∧ π' = [] then some p else F.find roots mem r' π' := by
  by_cases hr' : r' = r
  · subst hr'
    -- the root had no table, so nothing was found below it
    have hnone : ∀ ρ, F.find roots mem r' ρ = none := by
      intro ρ
      induction ρ with
      | nil => exact hr
      | cons j ρ ih =>
          rw [find_cons, ih]
          rfl
    induction π' with
    | nil => simp
    | cons j ρ ih =>
        have hne : ¬ (r' = r' ∧ j :: ρ = []) := by simp
        rw [find_cons, ih (h.closed.tail hπ'), if_neg hne, hnone, hnone]
        by_cases hρ : ρ = []
        · subst hρ
          rw [if_pos ⟨rfl, rfl⟩, Option.bind_some]
          exact hempty j hπ'
        · rw [if_neg fun heq => hρ heq.2]
          rfl
  · rw [if_neg fun heq => hr' heq.1]
    refine find_congr h.closed (Function.update_of_ne hr' _ _) (fun j ρ T' hρ hT' => ?_) hπ'
    have hρ' := h.closed.tail hρ
    rw [hother T' j (h.isTable hρ' hT') (h.closed.lt hρ)]
    rintro rfl
    exact hunused r' ρ hρ' hT'

end Forest

/-- **Cutting a root off** takes its nodes away. -/
theorem find_cut [DecidableEq ι] (hr : roots' r = none) (hother : ∀ r', r' ≠ r → roots' r' = roots r')
    (r' : ι) (π' : List ℕ) :
    F.find roots' mem r' π' = if r' = r then none else F.find roots mem r' π' := by
  induction π' with
  | nil =>
      split
      · rename_i heq
        rw [heq]
        exact hr
      · exact hother r' ‹_›
  | cons j ρ ih =>
      rw [find_cons, ih]
      split
      · rfl
      · rfl

/-- Without the nodes of a root it is still a forest. -/
theorem Forest.of_cut [DecidableEq ι] (h : Forest F Owned roots mem)
    (hfind : ∀ r' π', F.find roots' mem' r' π' = if r' = r then none else F.find roots mem r' π') :
    Forest F Owned roots' mem' where
  closed := h.closed
  isTable hπ' hT' := by
    rw [hfind] at hT'
    split at hT'
    · cases hT'
    · exact h.isTable hπ' hT'
  inj hπ₁ hπ₂ h₁ h₂ := by
    rw [hfind] at h₁ h₂
    split at h₁
    · cases h₁
    · split at h₂
      · cases h₂
      · exact h.inj hπ₁ hπ₂ h₁ h₂

end Scalux
