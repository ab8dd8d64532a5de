import Mathlib.Algebra.Order.Field.Rat
import Mathlib.Data.Rat.Floor
import Mathlib.Tactic.Linarith
import Mathlib.Tactic.Ring

/-! # The timer of a CPU

`md_timer_set` and `md_timer_get_remaining` (`x86_64/intr.c`): nanoseconds are written to the local APIC as
ticks, and ticks are read from it as nanoseconds.

To "get nanoseconds remaining before timer elapses" a count would be multiplied by the nanoseconds of a
second and divided by the ticks of a second.  It is divided by the product of the two.

* `none` stands for a failed assertion and for a division by zero.

* **`measures_of_lt`**: less than a nanosecond is measured well enough.
* **`timer_remaining_iff`**: and nothing else is. -/

namespace Scalux.Timer

/-- `NS_PER_S`. -/
def nsPerS : ℕ := 1000000000

/-- `md_timer_set`: the value of the initial count, where `tps` is `lapic_tps`. -/
def mdTimerSet (tps nanos : ℕ) : Option ℕ :=
  let ticks := tps * nanos % 2 ^ 64 / nsPerS
  if ticks < 2 ^ 32 - 1 then some ticks else none

/-- The divisor of `md_timer_get_remaining`. -/
def divisor (tps : ℕ) : ℕ := tps * nsPerS % 2 ^ 64

/-- `md_timer_get_remaining`, with the current count. -/
def mdTimerGetRemaining (tps count : ℕ) : Option ℕ :=
  if divisor tps = 0 then none else some (count / divisor tps)

/-- The nanoseconds of some ticks. -/
def nanosOf (tps ticks : ℕ) : ℚ := (ticks * nsPerS : ℕ) / (tps : ℚ)

/-- What the two functions are for, with `ticks` the count that has been set: right after, the time that was
set remains, but for a tick and a nanosecond; after some ticks their time less, to a nanosecond; and while
there is a tick and a nanosecond, `callout_enqueue` finds a positive time, whatever the `nanosecs` of the
head. -/
structure Measures (tps nanos ticks : ℕ) : Prop where
  at_first : ∃ r : ℕ, mdTimerGetRemaining tps ticks = some r ∧
    (nanos : ℚ) - nanosOf tps 1 - 1 ≤ r ∧ r ≤ nanos
  after_ticks : ∀ k ≤ ticks, ∃ r r' : ℕ, mdTimerGetRemaining tps ticks = some r ∧
    mdTimerGetRemaining tps (ticks - k) = some r' ∧ |(r : ℚ) - r' - nanosOf tps k| ≤ 1
  positive : ∀ k ≤ ticks, 1 ≤ ticks - k → 1 ≤ nanosOf tps (ticks - k) →
    ∃ r, mdTimerGetRemaining tps (ticks - k) = some r ∧ ∀ nanosecs, 0 < nanosecs → 0 < min r nanosecs

variable {tps nanos ticks k : ℕ}

/-- A second has nanoseconds. -/
theorem nsPerS_pos : 0 < nsPerS := by decide

/-- The count that is set. -/
theorem mdTimerSet_some (hprod : tps * nanos < 2 ^ 64) (h : mdTimerSet tps nanos = some ticks) :
    ticks = tps * nanos / nsPerS := by
  unfold mdTimerSet at h
  dsimp only at h
  split at h
  · rw [Nat.mod_eq_of_lt hprod] at h
    exact (Option.some.inj h).symm
  · cases h

/-- At least a nanosecond. -/
theorem one_le_nanosOf (htps : 1 ≤ tps) : 1 ≤ nanosOf tps k ↔ tps ≤ k * nsPerS := by
  have hpos : (0 : ℚ) < tps := by exact_mod_cast htps
  rw [nanosOf, le_div_iff₀ hpos, one_mul, Nat.cast_le]

/-- No time is negative. -/
theorem nanosOf_nonneg (tps k : ℕ) : 0 ≤ nanosOf tps k := by
  unfold nanosOf
  positivity

/-- Ticks of less than a nanosecond: `nanosOf tps k ≤ 1`. -/
theorem nanosOf_le (htps : 1 ≤ tps) (hlt : k * nsPerS < tps) : nanosOf tps k ≤ 1 := by
  have hpos : (0 : ℚ) < tps := by exact_mod_cast htps
  rw [nanosOf, div_le_iff₀ hpos, one_mul, Nat.cast_le]
  exact hlt.le

/-- Less than a nanosecond. -/
theorem measures_of_lt (htps : 1 ≤ tps) (hticks : ticks = tps * nanos / nsPerS)
    (hlt : ticks * nsPerS < tps) (hdiv : ticks < 2 * divisor tps) : Measures tps nanos ticks := by
  have hpos : (0 : ℚ) < tps := by exact_mod_cast htps
  have hdivisor : divisor tps ≠ 0 := by omega
  have hget : ∀ count, mdTimerGetRemaining tps count = some (count / divisor tps) := fun count =>
    if_neg hdivisor
  -- so few ticks make one whole nanosecond at most
  have hle : ∀ count ≤ ticks, count / divisor tps ≤ 1 := fun count hcount =>
    Nat.le_of_lt_succ (Nat.div_lt_of_lt_mul (by omega))
  constructor
  · refine ⟨_, hget ticks, ?_, ?_⟩
    · -- the time that was set is less than a tick and a nanosecond
      have hround : tps * nanos < ticks * nsPerS + nsPerS := by
        rw [hticks, Nat.mul_comm (_ / _), ← Nat.mul_succ]
        exact Nat.lt_mul_div_succ _ nsPerS_pos
      have hsum : nanos * tps ≤ nsPerS + tps := by
        rw [Nat.mul_comm]
        omega
      have hlow : (nanos : ℚ) ≤ nanosOf tps 1 + 1 := by
        rw [nanosOf, one_mul, div_add_one hpos.ne', le_div_iff₀ hpos]
        exact_mod_cast hsum
      have hnonneg : (0 : ℚ) ≤ (ticks / divisor tps : ℕ) := Nat.cast_nonneg _
      linarith
    · rcases Nat.eq_zero_or_pos nanos with rfl | hnanos
      · rw [hticks, Nat.mul_zero, Nat.zero_div, Nat.zero_div]
      · exact Nat.le_trans (hle ticks (Nat.le_refl _)) hnanos
  · intro k hk
    refine ⟨_, _, hget ticks, hget (ticks - k), ?_⟩
    -- a later reading is not larger, and it differs by one nanosecond at most
    have hmono : (ticks - k) / divisor tps ≤ ticks / divisor tps := Nat.div_le_div_right (Nat.sub_le _ _)
    have hdiff : ticks / divisor tps ≤ (ticks - k) / divisor tps + 1 :=
      Nat.le_trans (hle ticks (Nat.le_refl _)) (Nat.le_add_left _ _)
    have hk' : k * nsPerS < tps := Nat.lt_of_le_of_lt (Nat.mul_le_mul_right _ hk) hlt
    have hlo := nanosOf_nonneg tps k
    have hhi := nanosOf_le htps hk'
    have hmono' : (((ticks - k) / divisor tps : ℕ) : ℚ) ≤ (ticks / divisor tps : ℕ) := by
      exact_mod_cast hmono
    have hdiff' : ((ticks / divisor tps : ℕ) : ℚ) ≤ ((ticks - k) / divisor tps : ℕ) + 1 := by
      exact_mod_cast hdiff
    rw [abs_le]
    constructor <;> linarith
  · -- no nanosecond remains
    intro k hk _ hnano
    have hge := (one_le_nanosOf htps).mp hnano
    have hle' := Nat.mul_le_mul_right nsPerS (Nat.sub_le ticks k)
    omega

/-- A nanosecond or more is measured as nothing, at the latest when as many ticks as there are in a second
remain. -/
theorem lt_of_measures (htps : 1 ≤ tps) (hfits : tps * nsPerS < 2 ^ 64) (h : Measures tps nanos ticks) :
    ticks * nsPerS < tps := by
  -- otherwise the ticks last a nanosecond or more, and the answer 0 is wrong for them
  by_contra hge
  have hge := Nat.not_lt.mp hge
  have hdivisor : divisor tps = tps * nsPerS := Nat.mod_eq_of_lt hfits
  have hticks : 1 ≤ ticks := by
    rcases Nat.eq_zero_or_pos ticks with rfl | hpos
    · omega
    · exact hpos
  have hleft : ticks - (ticks - min ticks tps) = min ticks tps := Nat.sub_sub_self (Nat.min_le_left _ _)
  have hnano : tps ≤ min ticks tps * nsPerS := by
    rcases Nat.le_total ticks tps with hle | hle
    · rwa [Nat.min_eq_left hle]
    · rw [Nat.min_eq_right hle]
      exact Nat.le_mul_of_pos_right _ nsPerS_pos
  obtain ⟨r, hr, hpos⟩ := h.positive (ticks - min ticks tps) (Nat.sub_le _ _)
    (by rw [hleft]; exact le_min hticks htps) (by rw [hleft]; exact (one_le_nanosOf htps).mpr hnano)
  have hzero : r = 0 := by
    rw [hleft, mdTimerGetRemaining, hdivisor] at hr
    split at hr
    · cases hr
    · have hlt : min ticks tps < tps * nsPerS :=
        Nat.lt_of_le_of_lt (Nat.min_le_right _ _) (lt_mul_of_one_lt_right htps (by decide))
      rw [Nat.div_eq_of_lt hlt] at hr
      exact (Option.some.inj hr).symm
  have hmin := hpos 1 Nat.one_pos
  rw [hzero] at hmin
  exact absurd hmin (by decide)

/-- **The time that remains.** For every frequency and every time whose product is a word and that passes
the assertion: the time that remains is measured if the count that is set is worth less than a nanosecond
and is less than twice the divisor; and where the divisor does not wrap, only then. -/
theorem timer_remaining_iff (htps : 1 ≤ tps) (hprod : tps * nanos < 2 ^ 64)
    (hset : mdTimerSet tps nanos = some ticks) :
    (tps * nanos / nsPerS * nsPerS < tps ∧ tps * nanos / nsPerS < 2 * divisor tps →
      Measures tps nanos ticks) ∧
    (tps * nsPerS < 2 ^ 64 → Measures tps nanos ticks →
      tps * nanos / nsPerS * nsPerS < tps ∧ tps * nanos / nsPerS < 2 * divisor tps) := by
  have hticks := mdTimerSet_some hprod hset
  rw [← hticks]
  constructor
  · rintro ⟨hlt, hdiv⟩
    exact measures_of_lt htps hticks hlt hdiv
  · intro hfits h
    have hlt := lt_of_measures htps hfits h
    refine ⟨hlt, ?_⟩
    have hdivisor : divisor tps = tps * nsPerS := Nat.mod_eq_of_lt hfits
    have hle : ticks ≤ ticks * nsPerS := Nat.le_mul_of_pos_right _ nsPerS_pos
    have hle' : tps ≤ tps * nsPerS := Nat.le_mul_of_pos_right _ nsPerS_pos
    omega

/-- A timer of one and a half gigahertz, set to a nanosecond, counts one tick. -/
theorem timer_remaining_tick : mdTimerSet 1500000000 1 = some 1 ∧ Measures 1500000000 1 1 :=
  ⟨by decide, (timer_remaining_iff (by decide) (by decide) (by decide)).1 (by decide)⟩

/-- A timer of a megahertz, set to a second, has no time left. -/
theorem timer_remaining_second : ¬ ∀ tps nanos ticks : ℕ, 1 ≤ tps → tps * nanos < 2 ^ 64 →
    mdTimerSet tps nanos = some ticks → Measures tps nanos ticks := by
  intro h
  have hm := h 1000000 1000000000 1000000 (by decide) (by decide) (by decide)
  exact absurd (lt_of_measures (by decide) (by decide) hm) (by decide)

end Scalux.Timer
