import Mathlib.Data.Fintype.Card
import Mathlib.Data.Finset.Card
import Mathlib.Data.List.Nodup
import Mathlib.Data.Fintype.Basic
import Mathlib.Algebra.BigOperators.Group.Finset.Basic

/-! # Counting the processes in a phase

A system of processes is a function `f : T → P` from a finite type of processes to their program
counters.  `numWith f b` counts the processes whose program counter is in the phase `b`, and
`numWith_update` says how the number changes when one process moves: it loses the old program
counter's share and gains the new one's.  Invariants of a protocol become linear arithmetic over
such counts. -/

namespace Scalux

variable {T : Type*} {P : Type*} [Fintype T]

/-- The number of processes whose program counter is in phase `b`. -/
def numWith (f : T → P) (b : P → Bool) : ℕ :=
  (Finset.univ.filter fun t => b (f t) = true).card

/-- Moving one process: the old program counter's share goes, the new one's comes. -/
theorem numWith_update [DecidableEq T] (f : T → P) (b : P → Bool) (t : T) (p : P) :
    numWith (Function.update f t p) b + (b (f t)).toNat = numWith f b + (b p).toNat := by
  have hrest : ((Finset.univ.erase t).filter fun u => b (Function.update f t p u) = true)
      = (Finset.univ.erase t).filter fun u => b (f u) = true := by
    refine Finset.filter_congr fun u hu => ?_
    rw [Function.update_of_ne (Finset.ne_of_mem_erase hu)]
  -- both counts split into the moved process and the untouched rest
  have hsplit : ∀ g : T → P, numWith g b
      = ((Finset.univ.erase t).filter fun u => b (g u) = true).card + (b (g t)).toNat := by
    intro g
    rw [numWith, ← Finset.insert_erase (Finset.mem_univ t), Finset.filter_insert]
    cases hg : b (g t)
    · rw [if_neg (by simp), Finset.erase_insert (by simp), Bool.toNat_false, Nat.add_zero]
    · rw [if_pos rfl, Finset.card_insert_of_notMem (by simp), Finset.erase_insert (by simp),
        Bool.toNat_true]
  rw [hsplit f, hsplit (Function.update f t p), hrest, Function.update_self]
  omega

/-- Moving two processes. -/
theorem numWith_update_update [DecidableEq T] (f : T → P) (b : P → Bool) {t u : T} (hne : u ≠ t) (p q : P) :
    numWith (Function.update (Function.update f u p) t q) b + (b (f u)).toNat + (b (f t)).toNat
      = numWith f b + (b p).toNat + (b q).toNat := by
  have hfirst := numWith_update f b u p
  have hsecond := numWith_update (Function.update f u p) b t q
  rw [Function.update_of_ne hne.symm] at hsecond
  omega

/-- What follows the program counters still does when one process moves. -/
theorem iff_update {T P : Type*} [DecidableEq T] {f : T → P} {t : T} {p : P} {g : P → Prop} {Q Q' : T → Prop}
    (hQ : ∀ u, Q u ↔ g (f u)) (hQ' : ∀ u, Q' u ↔ if u = t then g p else Q u) (u : T) :
    Q' u ↔ g (Function.update f t p u) := by
  rw [hQ' u, Function.update_apply]
  split
  · rfl
  · exact hQ u

variable {f : T → P} {b c : P → Bool}

/-- A process in the phase makes the count positive. -/
theorem numWith_pos {t : T} (h : b (f t) = true) : 0 < numWith f b :=
  Finset.card_pos.mpr ⟨t, by simpa using h⟩

/-- A positive count has a process in the phase. -/
theorem exists_of_numWith_pos (h : 0 < numWith f b) : ∃ t, b (f t) = true := by
  obtain ⟨t, ht⟩ := Finset.card_pos.mp h
  exact ⟨t, by simpa using ht⟩

/-- A phase nobody is in counts zero. -/
theorem numWith_eq_zero (h : ∀ t, b (f t) = false) : numWith f b = 0 := by
  rw [numWith, Finset.card_eq_zero, Finset.filter_eq_empty_iff]
  intro t _
  rw [h t]
  exact Bool.false_ne_true

/-- Two processes in a phase of at most one member are the same. -/
theorem eq_of_numWith_le_one (h : numWith f b ≤ 1) {t u : T} (ht : b (f t) = true)
    (hu : b (f u) = true) : t = u :=
  Finset.card_le_one.mp h t (by simpa using ht) u (by simpa using hu)

/-- A count is at most the number of processes. -/
theorem numWith_le_card : numWith f b ≤ Fintype.card T := Finset.card_le_univ _

/-- A larger phase counts at least as many. -/
theorem numWith_mono (h : ∀ p, b p = true → c p = true) : numWith f b ≤ numWith f c :=
  Finset.card_le_card (Finset.monotone_filter_right _ fun t _ ht => h (f t) ht)

/-- Two phases that exclude each other: the counts add up. -/
theorem numWith_or [DecidableEq T] (hdisj : ∀ p, b p = true → c p = false) :
    numWith f (fun p => b p || c p) = numWith f b + numWith f c := by
  rw [numWith, numWith, numWith, ← Finset.card_union_of_disjoint]
  · refine congrArg Finset.card ?_
    ext t
    simp
  · refine Finset.disjoint_filter.mpr fun t _ hb hc => ?_
    rw [hdisj _ hb] at hc
    exact Bool.false_ne_true hc

/-- A duplicate-free list of exactly the processes of a phase has the count as its length. -/
theorem numWith_eq_length [DecidableEq T] {l : List T} (hnd : l.Nodup)
    (hmem : ∀ t, t ∈ l ↔ b (f t) = true) : numWith f b = l.length := by
  rw [numWith, ← List.toFinset_card_of_nodup hnd]
  refine congrArg Finset.card ?_
  ext t
  simp [hmem]

/-- Moving one process: a sum over the processes loses the old program counter's share and gains the
new one's. -/
theorem sum_update [DecidableEq T] (f : T → P) (w : P → ℕ) (t : T) (p : P) :
    (∑ u, w (Function.update f t p u)) + w (f t) = (∑ u, w (f u)) + w p := by
  have hrest : ∑ u ∈ Finset.univ.erase t, w (Function.update f t p u)
      = ∑ u ∈ Finset.univ.erase t, w (f u) := by
    refine Finset.sum_congr rfl fun u hu => ?_
    rw [Function.update_of_ne (Finset.ne_of_mem_erase hu)]
  rw [← Finset.add_sum_erase _ _ (Finset.mem_univ t), hrest, Function.update_self,
    ← Finset.add_sum_erase (a := t) Finset.univ (fun u => w (f u)) (Finset.mem_univ t)]
  omega

end Scalux
