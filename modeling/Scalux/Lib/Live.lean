import Mathlib.Algebra.Group.Nat.Defs
import Mathlib.Data.List.Pairwise
import Scalux.Lib.Words

/-! # A memory with live blocks

A memory of words and the blocks of it that have been allocated and not been given back.  An allocator may
return any block that is apart from the live ones, and what is outside of them may change while it is at
work.

* **`LiveMemory.take`**, **`LiveMemory.give`**: a block is allocated, with what it then contains, or given
  back.
* **`LiveMemory.take_mem`**, **`LiveMemory.WellFormed.take`**: what allocation leaves alone. -/

namespace Scalux

/-- A memory and its live blocks. -/
structure LiveMemory where
  mem : ℕ → ℕ
  live : List (ℕ × ℕ)

namespace LiveMemory

/-- An address in a live block. -/
def IsLive (h : LiveMemory) (a : ℕ) : Prop := ∃ b ∈ h.live, Has b a

instance (b : ℕ × ℕ) (a : ℕ) : Decidable (Has b a) := inferInstanceAs (Decidable (_ ∧ _))

instance (h : LiveMemory) (a : ℕ) : Decidable (h.IsLive a) :=
  inferInstanceAs (Decidable (∃ b ∈ h.live, Has b a))

/-- A block that may be allocated. -/
def Available (h : LiveMemory) (b : ℕ × ℕ) : Prop :=
  b.1 ≠ 0 ∧ 8 ∣ b.1 ∧ b.1 + b.2 ≤ 2 ^ 64 ∧ ∀ c ∈ h.live, Apart b c

instance (h : LiveMemory) (b : ℕ × ℕ) : Decidable (h.Available b) := inferInstanceAs (Decidable (_ ∧ _))

/-- A block is allocated, while the memory outside of the live blocks becomes `junk`. -/
def take (h : LiveMemory) (b : ℕ × ℕ) (junk : ℕ → ℕ) : LiveMemory where
  mem a := if h.IsLive a then h.mem a else junk a
  live := b :: h.live

/-- A block is given back. -/
def give (h : LiveMemory) (b : ℕ × ℕ) : LiveMemory := { h with live := h.live.erase b }

/-- The live blocks have addresses of words, and are apart. -/
structure WellFormed (h : LiveMemory) : Prop where
  apart : h.live.Pairwise Apart
  ne_zero : ∀ b ∈ h.live, b.1 ≠ 0
  aligned : ∀ b ∈ h.live, 8 ∣ b.1

variable {h : LiveMemory} {b c : ℕ × ℕ} {junk : ℕ → ℕ} {a : ℕ}

/-- Allocation leaves the live blocks alone. -/
theorem take_mem (ha : h.IsLive a) : (h.take b junk).mem a = h.mem a := if_pos ha

/-- A block stays live when another is given back. -/
theorem mem_give (hc : c ∈ h.live) (hne : c ≠ b) : c ∈ (h.give b).live :=
  (List.mem_erase_of_ne hne).mpr hc

/-- A block that is available may be taken. -/
theorem WellFormed.take (hw : h.WellFormed) (hb : h.Available b) : (h.take b junk).WellFormed := by
  obtain ⟨hne, haligned, -, hapart⟩ := hb
  refine ⟨List.pairwise_cons.mpr ⟨hapart, hw.apart⟩, fun c hc => ?_, fun c hc => ?_⟩
  · rcases List.mem_cons.mp hc with rfl | hc
    · exact hne
    · exact hw.ne_zero c hc
  · rcases List.mem_cons.mp hc with rfl | hc
    · exact haligned
    · exact hw.aligned c hc

/-- A block may be given back. -/
theorem WellFormed.give (hw : h.WellFormed) : (h.give b).WellFormed where
  apart := hw.apart.sublist (List.erase_sublist)
  ne_zero c hc := hw.ne_zero c (List.mem_of_mem_erase hc)
  aligned c hc := hw.aligned c (List.mem_of_mem_erase hc)

/-- Two live blocks at different addresses have no address in common. -/
theorem WellFormed.apart_of_ne (hw : h.WellFormed) (hb : b ∈ h.live) (hc : c ∈ h.live) (hne : b.1 ≠ c.1) :
    Apart b c := by
  have : Std.Symm Apart := ⟨fun _ _ h => h.symm⟩
  exact List.Pairwise.forall hw.apart hb hc fun heq => hne (congrArg Prod.fst heq)

end LiveMemory

end Scalux
