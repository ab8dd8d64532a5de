import Mathlib.Data.Nat.Notation
import Mathlib.Data.List.Basic
import Mathlib.Data.List.Nodup
import Mathlib.Data.List.Perm.Subperm
import Mathlib.Logic.Function.Basic

/-! # Blocks of memory and lists linked through it

A memory maps the address of a word to its value.  A block is a range of addresses.

* **`Apart`**: two blocks have no address in common.  **`Chain mem p l`**: the null-terminated list that
  begins at `p` and is linked through the first words of its elements has the elements `l`.
* **`Chain.congr`**: a chain depends only on the words of its elements, and
  **`Chain.remove`** is the removal of an element. -/

namespace Scalux

/-- An address is in a block, given by its first address and its length. -/
def Has (b : ℕ × ℕ) (a : ℕ) : Prop := b.1 ≤ a ∧ a < b.1 + b.2

/-- Two blocks without a common address. -/
def Apart (b c : ℕ × ℕ) : Prop := b.1 + b.2 ≤ c.1 ∨ c.1 + c.2 ≤ b.1

instance (b c : ℕ × ℕ) : Decidable (Apart b c) :=
  inferInstanceAs (Decidable (b.1 + b.2 ≤ c.1 ∨ c.1 + c.2 ≤ b.1))

variable {b c b' c' : ℕ × ℕ} {a : ℕ} {mem mem' : ℕ → ℕ} {p q : ℕ} {l l₁ l₂ : List ℕ}

theorem Apart.symm (h : Apart b c) : Apart c b := Or.symm h

/-- An address is in one of two blocks that are apart. -/
theorem Apart.not_has (h : Apart b c) (hb : Has b a) : ¬ Has c a := by
  unfold Apart at h
  unfold Has at *
  omega

/-- An address in the one is not an address in the other. -/
theorem Apart.ne (h : Apart b c) {a' : ℕ} (hb : Has b a) (hc : Has c a') : a ≠ a' := by
  rintro rfl
  exact h.not_has hb hc

/-- Blocks within blocks that are apart. -/
theorem Apart.mono (h : Apart b c) (hb : b.1 ≤ b'.1 ∧ b'.1 + b'.2 ≤ b.1 + b.2)
    (hc : c.1 ≤ c'.1 ∧ c'.1 + c'.2 ≤ c.1 + c.2) : Apart b' c' := by
  unfold Apart at *
  omega

/-- A block whose first address is in it is not apart from itself. -/
theorem ne_of_apart (h : Apart b c) (hb : 0 < b.2) : b ≠ c := by
  rintro rfl
  unfold Apart at h
  omega

/-- Of blocks that are pairwise apart, each rearrangement of some is. -/
theorem pairwise_apart_of_subperm {B C : List (ℕ × ℕ)} (h : C.Pairwise Apart) (hsub : B.Subperm C) :
    B.Pairwise Apart := by
  obtain ⟨B', hperm, hsub⟩ := hsub
  exact (hperm.pairwise_iff Apart.symm).mp (h.sublist hsub)

/-! ## Linked lists -/

/-- The null-terminated list from `p` on has the elements `l`. -/
def Chain (mem : ℕ → ℕ) : ℕ → List ℕ → Prop
  | p, [] => p = 0
  | p, a :: l => p = a ∧ a ≠ 0 ∧ Chain mem (mem a) l

/-- A chain depends only on the words of its elements. -/
theorem Chain.congr (h : Chain mem p l) (hmem : ∀ a ∈ l, mem' a = mem a) : Chain mem' p l := by
  induction l generalizing p with
  | nil => exact h
  | cons a l ih =>
      obtain ⟨rfl, ha, h⟩ := h
      refine ⟨rfl, ha, ?_⟩
      rw [hmem p List.mem_cons_self]
      exact ih h fun b hb => hmem b (List.mem_cons_of_mem _ hb)

/-- Two chains with the same elements begin at one address: the first element, or null. -/
theorem Chain.head_unique (h : Chain mem p l) (h' : Chain mem' q l) : p = q := by
  cases l with
  | nil => exact h.trans h'.symm
  | cons a l => exact h.1.trans h'.1.symm

/-- No element is null. -/
theorem Chain.ne_zero (h : Chain mem p l) (ha : a ∈ l) : a ≠ 0 := by
  induction l generalizing p with
  | nil => cases ha
  | cons b l ih =>
      obtain ⟨rfl, hb, h⟩ := h
      rcases List.mem_cons.mp ha with rfl | ha
      · exact hb
      · exact ih h ha

/-- The removal of an element after another one. -/
theorem Chain.remove (h : Chain mem p (l₁ ++ q :: a :: l₂)) (hnd : (l₁ ++ q :: a :: l₂).Nodup) :
    Chain (Function.update mem q (mem a)) p (l₁ ++ q :: l₂) := by
  induction l₁ generalizing p with
  | nil =>
      obtain ⟨rfl, hq, h⟩ := h
      obtain ⟨-, -, h⟩ := h
      refine ⟨rfl, hq, ?_⟩
      rw [Function.update_self]
      refine h.congr fun b hb => Function.update_of_ne ?_ _ _
      rintro rfl
      exact (List.nodup_cons.mp hnd).1 (List.mem_cons_of_mem _ hb)
  | cons b l₁ ih =>
      obtain ⟨rfl, hb, h⟩ := h
      have hne : p ≠ q := by
        rintro rfl
        exact (List.nodup_cons.mp hnd).1 (List.mem_append_right _ List.mem_cons_self)
      refine ⟨rfl, hb, ?_⟩
      rw [Function.update_of_ne hne]
      exact ih h (List.nodup_cons.mp hnd).2

/-- The chain of an array of elements, each linked to the next one. -/
theorem chain_range {f : ℕ → ℕ} {n : ℕ} (hpos : 0 < n) (hlink : ∀ i, i + 1 < n → mem (f i) = f (i + 1))
    (hlast : mem (f (n - 1)) = 0) (hne : ∀ i < n, f i ≠ 0) :
    Chain mem (f 0) ((List.range n).map f) := by
  -- the elements from the `m`-th on
  have hfrom : ∀ d m, m + (d + 1) = n → Chain mem (f m) ((List.range' m (d + 1)).map f) := by
    intro d
    induction d with
    | zero =>
        intro m hm
        refine ⟨rfl, hne m (by omega), ?_⟩
        rw [show m = n - 1 by omega]
        exact hlast
    | succ d ih =>
        intro m hm
        refine ⟨rfl, hne m (by omega), ?_⟩
        rw [hlink m (by omega)]
        exact ih (m + 1) (by omega)
  obtain ⟨d, rfl⟩ := Nat.exists_eq_succ_of_ne_zero (Nat.ne_of_gt hpos)
  rw [List.range_eq_range']
  exact hfrom d 0 (Nat.zero_add _)

/-- A list of different addresses is no longer than the address space. -/
theorem length_le_of_nodup {n : ℕ} (hnd : l.Nodup) (hlt : ∀ a ∈ l, a < n) : l.length ≤ n := by
  have hsub : l ⊆ List.range n := fun a ha => List.mem_range.mpr (hlt a ha)
  have hlen := (List.subperm_of_subset hnd hsub).length_le
  rwa [List.length_range] at hlen

end Scalux
