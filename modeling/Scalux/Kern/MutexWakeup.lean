import Scalux.Kern.MutexSafety
import Mathlib.Tactic.FinCases

/-! # Wake-ups of the kernel mutex

`mutex_lock` raises `count` before it is on the wait queue, and `mutex_unlock` decides to wake from
`count` alone.  A thread that has raised `count` and not yet inserted itself is in the **window**
(`Pc.awaiting`): an unlocker whose removal falls into it can find the queue empty, prints its
warning and goes, and the thread in the window then sleeps with nobody left to wake it.

* **`mutex_lost_wakeup`**: the schedule of two threads that does this.
* **`mutex_no_lost_wakeup`**: in every run in which no removal falls into a window, every removal
  finds a waiter and no state is `Stuck`. -/

namespace Scalux.Mutex

variable {tt : ThreadTable} {s s' : State tt.Tid} {t : tt.Tid}

/-- The removal of an unlocker does not fall between another thread's `atomic_fetch_add` and its
insertion into the wait queue. -/
def OutsideWindow (s : State tt.Tid) (t : tt.Tid) : Prop :=
  s.pc t = .waking → ∀ u, s.pc u ≠ .awaiting

instance (s : State tt.Tid) (t : tt.Tid) : Decidable (OutsideWindow s t) :=
  inferInstanceAs (Decidable (_ → _))

/-- Nobody owns the mutex and nobody is in `mutex_lock`, `mutex_unlock` or a wake-up, yet threads
contend for it: all of them are asleep on the wait queue, for ever. -/
def Stuck (s : State tt.Tid) : Prop :=
  s.owner = none ∧ 0 < s.count ∧ ∀ t, s.pc t = .idle ∨ s.pc t = .asleep

/-- The right to a contended mutex is in somebody's hands. -/
def Alive (s : State tt.Tid) : Prop := 0 < s.count → ∃ t, (s.pc t).token = true

/-- A removal outside every window finds a waiter: the others that hold `count` up have neither
the token nor a place in the window, so they sleep on the queue. -/
theorem Inv.wake_finds_waiter (h : Inv s) (hpc : s.pc t = .waking) (hw : OutsideWindow s t) :
    s.waiters ≠ [] := by
  have hpos := h.waking_pos t hpc
  rw [h.count_eq] at hpos
  obtain ⟨u, hu⟩ := exists_of_numWith_pos hpos
  have htok : (s.pc t).token = true := by rw [hpc]; rfl
  -- a contender with the token would be the unlocker itself
  have hno : (s.pc u).token = true → False := by
    intro hut
    have : t = u := h.token_unique htok hut
    rw [← this, hpc] at hu
    cases hu
  cases hupc : s.pc u with
  | awaiting => exact absurd hupc (hw hpc u)
  | asleep => exact List.ne_nil_of_mem ((h.mem_waiters u).mpr hupc)
  | handed =>
      obtain ⟨x, hx⟩ := h.handed_resuming u hupc
      have : t = x := h.token_unique htok (by rw [hx]; rfl)
      rw [← this, hpc] at hx
      cases hx
  | woken => exact (hno (by rw [hupc]; rfl)).elim
  | acquiring => exact (hno (by rw [hupc]; rfl)).elim
  | held => exact (hno (by rw [hupc]; rfl)).elim
  | releasing => exact (hno (by rw [hupc]; rfl)).elim
  | idle => rw [hupc] at hu; cases hu
  | waking => rw [hupc] at hu; cases hu
  | resuming w => rw [hupc] at hu; cases hu
  | failed => rw [hupc] at hu; cases hu

/-- A token stays where it is when another thread moves. -/
theorem token_update_of_ne {pc : tt.Tid → Pc tt.Tid} {u : tt.Tid} {p : Pc tt.Tid} (hne : u ≠ t)
    (hu : (pc u).token = true) : (Function.update pc t p u).token = true := by
  rw [Function.update_of_ne hne]
  exact hu

/-- A thread without the token moves: whoever has the token keeps it. -/
theorem Alive.of_bystander (ha : Alive s) (hpc : (s.pc t).token = false) (hpos : 0 < s.count)
    {p : Pc tt.Tid} : ∃ u, (Function.update s.pc t p u).token = true := by
  obtain ⟨u, hu⟩ := ha hpos
  have hne : u ≠ t := by
    rintro rfl
    rw [hpc] at hu
    cases hu
  exact ⟨u, token_update_of_ne hne hu⟩

/-- Outside every window no step loses the token of a contended mutex. -/
theorem alive_step (h : Inv s) (ha : Alive s) (hw : OutsideWindow s t)
    (hs : step s t = some s') : Alive s' := by
  -- the step leaves the token with `t`
  have moved : ∀ {p : Pc tt.Tid}, p.token = true →
      ∃ u, (Function.update s.pc t p u).token = true := by
    intro p hp
    exact ⟨t, by rw [Function.update_self]; exact hp⟩
  unfold step at hs
  cases hpc : s.pc t with
  | idle =>
      rw [hpc] at hs; cases hs
      intro _
      simp only [lockCount]
      split
      · exact ha.of_bystander (by rw [hpc]; rfl) (by omega)
      · exact moved rfl
  | awaiting =>
      rw [hpc] at hs; cases hs
      exact fun hpos => ha.of_bystander (by rw [hpc]; rfl) hpos
  | asleep => rw [hpc] at hs; cases hs
  | handed => rw [hpc] at hs; cases hs
  | woken =>
      rw [hpc] at hs; cases hs
      intro _
      simp only [awaitReturn, if_pos (h.woken_success t hpc)]
      exact moved rfl
  | acquiring =>
      rw [hpc] at hs; cases hs
      intro _
      simp only [lockOwner, if_pos (h.owner_eq_none (t := t) (by rw [hpc]; rfl) (by simp [hpc]))]
      exact moved rfl
  | held =>
      rw [hpc] at hs; cases hs
      intro _
      simp only [unlockOwner, if_pos ((h.owner_iff t).mpr hpc)]
      exact moved rfl
  | releasing =>
      rw [hpc] at hs; cases hs
      have hlt := h.count_lt
      have hpos : 0 < s.count := h.count_pos (t := t) (by rw [hpc]; rfl)
      intro hpos'
      simp only [unlockCount] at hpos' ⊢
      rw [if_pos (by omega)]
      exact moved rfl
  | waking =>
      rw [hpc] at hs; cases hs
      intro _
      -- outside the window a contender is queued, and the token goes to the first of them
      have hne := h.wake_finds_waiter hpc hw
      unfold wakeRemove
      cases hq : s.waiters with
      | nil => exact absurd hq hne
      | cons w rest => exact ⟨t, by simp [Pc.token]⟩
  | resuming w =>
      rw [hpc] at hs; cases hs
      intro _
      -- the thread that is woken is handed over, so it is not the one that wakes it
      have hwt : w ≠ t := by
        rintro rfl
        have := h.resuming_handed w w hpc
        rw [hpc] at this
        cases this
      exact ⟨w, by simp [wakeResume, hwt, Pc.token]⟩
  | failed => rw [hpc] at hs; cases hs

/-- **No lost wake-up outside the window.** In every run whose removals all fall outside every
window, each removal that `mutex_unlock` makes finds a waiter, and no state reached leaves the
mutex unowned with every contender asleep. -/
theorem mutex_no_lost_wakeup (wqres : tt.Tid → WaitqResult)
    (h : (machine tt.Tid).Reach OutsideWindow (init wqres) s) :
    (∀ t, OutsideWindow s t → s.pc t = .waking → s.waiters ≠ []) ∧ ¬ Stuck s := by
  have hinv : Inv s := inv_reach h
  have halive : Alive s := by
    have hboth : Inv s ∧ Alive s := by
      refine h.invariant (I := fun s => Inv s ∧ Alive s) ⟨inv_init wqres, ?_⟩ ?_
      · intro h0
        exact absurd h0 (Nat.lt_irrefl 0)
      · intro s t s' hi hw hs
        exact ⟨inv_step hi.1 hs, alive_step hi.1 hi.2 hw hs⟩
    exact hboth.2
  refine ⟨fun t hw hpc => hinv.wake_finds_waiter hpc hw, ?_⟩
  rintro ⟨-, hpos, hall⟩
  obtain ⟨t, ht⟩ := halive hpos
  rcases hall t with hidle | hasleep
  · rw [hidle] at ht; cases ht
  · rw [hasleep] at ht; cases ht

/-- A run outside the window in which an unlocker wakes the other thread. -/
theorem mutex_no_lost_wakeup_handover :
    ∃ s, (machine ThreadTable.two.Tid).exec (init fun _ => .kWQTimeout) [0, 0, 1, 1, 0, 0] = some s ∧
      s.pc 0 = .waking ∧
      (∀ t, OutsideWindow s t → s.pc t = .waking → s.waiters ≠ []) ∧ ¬ Stuck s := by
  refine ⟨_, rfl, rfl, mutex_no_lost_wakeup (fun _ => .kWQTimeout) (Machine.reach_of_exec
    (c := fun s t => decide (OutsideWindow s t)) (fun _ _ hc => of_decide_eq_true hc)
    (l := [0, 0, 1, 1, 0, 0]) rfl rfl)⟩

/-- **The lost wake-up.** Thread `0` takes the mutex, thread `1` raises `count` and is stopped in
the window, thread `0` unlocks: its removal finds no waiter, and when thread `1` has inserted itself
everybody contending is asleep for ever. -/
theorem mutex_lost_wakeup :
    (∃ s, (machine ThreadTable.two.Tid).exec (init fun _ => .kWQTimeout) [0, 0, 1, 0, 0] = some s ∧
      s.pc 0 = .waking ∧ s.waiters = []) ∧
    ∃ s, (machine ThreadTable.two.Tid).exec (init fun _ => .kWQTimeout) [0, 0, 1, 0, 0, 0, 1]
      = some s ∧ Stuck s := by
  refine ⟨⟨_, rfl, rfl, rfl⟩, ⟨_, rfl, rfl, by decide, ?_⟩⟩
  intro t
  fin_cases t
  · exact .inl rfl
  · exact .inr rfl

end Scalux.Mutex
