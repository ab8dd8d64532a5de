import Scalux.Lib.Count
import Scalux.Kern.Semaphore

/-! # Conservation of the semaphore

Two equations carry the argument over all schedules.  With `blocked` the threads between a
decrement below zero and their insertion, and `pending` the signals that owe a removal,

* `waiters + blocked = max 0 (-count) + pending` (**`Balanced.queue_balance`**), and
* `count + completed + inflight = initial count + begun` (**`Balanced.count_balance`**), where a
  wait is in flight from its decrement to its return.

The increment outside `wq.lock` moves a unit from `max 0 (-count)` to `pending` in one step, so the
removal that follows finds its waiter whenever it gets the lock.  The first equation needs the
increment not to wrap: `semaphore_signal` of a semaphore at `2 ^ 31 - 1` makes `count` negative.

* **`semaphore_conservation`**: the four properties in every run without such a signal.
* **`semaphore_signal_overflow`**: what such a signal does. -/

namespace Scalux.Semaphore

section Phases

variable {T : Type*}

/-- Decremented `count` below zero and not yet on the wait queue. -/
def Pc.blocked : Pc T → Bool
  | .waitBlock => true
  | .idle | .waitLocked | .waitPass | .asleep | .handed | .woken | .signalWake | .wakeLocked
  | .wakeUnlock _ | .resuming _ | .failed => false

/-- Incremented `count` to a value at most zero and not yet removed a waiter. -/
def Pc.pending : Pc T → Bool
  | .signalWake | .wakeLocked => true
  | .idle | .waitLocked | .waitBlock | .waitPass | .asleep | .handed | .woken
  | .wakeUnlock _ | .resuming _ | .failed => false

/-- Decremented `count` in a wait that has not returned. -/
def Pc.inflight : Pc T → Bool
  | .waitBlock | .waitPass | .asleep | .handed | .woken => true
  | .idle | .waitLocked | .signalWake | .wakeLocked | .wakeUnlock _ | .resuming _ | .failed => false

/-- Holds `wq.lock`. -/
def Pc.locked : Pc T → Bool
  | .waitLocked | .waitBlock | .waitPass | .wakeLocked | .wakeUnlock _ => true
  | .idle | .asleep | .handed | .woken | .signalWake | .resuming _ | .failed => false

/-- The thread a waker has taken off the queue and not yet resumed. -/
def Pc.inHand : Pc T → Option T
  | .wakeUnlock w => w
  | .resuming w => some w
  | .idle | .waitLocked | .waitBlock | .waitPass | .asleep | .handed | .woken | .signalWake
  | .wakeLocked | .failed => none

end Phases

variable {tt : ThreadTable}

/-- Who holds the lock, who is on the queue and who is in a waker's hands. -/
structure Linked (s : State tt.Tid) : Prop where
  lock_iff : ∀ t, s.lock = some t ↔ (s.pc t).locked = true
  mem_waiters : ∀ t, t ∈ s.waiters ↔ s.pc t = .asleep
  waiters_nodup : s.waiters.Nodup
  inHand_handed : ∀ t w, (s.pc t).inHand = some w → s.pc w = .handed
  inHand_unique : ∀ t u w, (s.pc t).inHand = some w → (s.pc u).inHand = some w → t = u
  woken_success : ∀ t, s.pc t = .woken → s.wqres t = .kWQSuccess
  not_failed : ∀ t, s.pc t ≠ .failed
  released_le : ∀ t, s.released t ≤ 1
  released_pending : ∀ t, (s.pc t).pending = true → s.released t = 0

/-- The two balances, with the range of `count`. -/
structure Balanced (initial : ℤ) (s : State tt.Tid) : Prop where
  queue_balance : (s.waiters.length : ℤ) + numWith s.pc Pc.blocked
    = max 0 (-s.count) + numWith s.pc Pc.pending
  count_balance : s.count + s.completed + numWith s.pc Pc.inflight = initial + s.begun
  count_lt : s.count < 2 ^ 31

variable {s s' : State tt.Tid} {t u w : tt.Tid} {initial : ℤ}

/-- No signal is issued to a semaphore whose `count` is already `2 ^ 31 - 1`. -/
def NoOverflow (s : State tt.Tid) (a : Action tt.Tid) : Prop :=
  match a with
  | .signal _ => s.count ≠ 2 ^ 31 - 1
  | .wait _ | .next _ => True

instance (s : State tt.Tid) (a : Action tt.Tid) : Decidable (NoOverflow s a) := by
  cases a <;> unfold NoOverflow <;> infer_instance

/-! ## The lock, the queue and the wakers -/

/-- An unused semaphore is linked. -/
theorem linked_init (count : ℤ) (wqres : tt.Tid → WaitqResult) : Linked (init count wqres) where
  lock_iff := by simp [init, Pc.locked]
  mem_waiters := by simp [init]
  waiters_nodup := List.nodup_nil
  inHand_handed := by simp [init, Pc.inHand]
  inHand_unique := by simp [init, Pc.inHand]
  woken_success := by simp [init]
  not_failed := by simp [init]
  released_le := by simp [init]
  released_pending := by simp [init]

/-- **One thread moves.** Thread `t` goes to `p`: the lock and the queue follow `t`, and `t` does
not come to have a thread in its hands that it did not have. -/
theorem Linked.move (h : Linked s) {p : Pc tt.Tid} (hpc : s'.pc = Function.update s.pc t p)
    (hlock : ∀ u, s'.lock = some u ↔ if u = t then p.locked = true else s.lock = some u)
    (hwaiters : ∀ u, u ∈ s'.waiters ↔ if u = t then p = .asleep else u ∈ s.waiters)
    (hnodup : s'.waiters.Nodup) (hwqres : s'.wqres = s.wqres)
    (hreleased : ∀ u, s'.released u = s.released u ∨ s'.released u = 0)
    (hpending : p.pending = true → (s.pc t).pending = true ∨ s'.released t = 0)
    (hhand : p.inHand = none ∨ p.inHand = (s.pc t).inHand)
    (hfrom : s.pc t ≠ .handed) (hto : p ≠ .woken ∧ p ≠ .failed) : Linked s' := by
  have hself : s'.pc t = p := by rw [hpc, Function.update_self]
  have hother : ∀ u, u ≠ t → s'.pc u = s.pc u := fun u hu => by
    rw [hpc, Function.update_of_ne hu]
  -- who has a sleeper in hand after the step had it before
  have hheld : ∀ u w, (s'.pc u).inHand = some w → (s.pc u).inHand = some w := by
    intro u w hu
    by_cases hut : u = t
    · rw [hut, hself] at hu
      rcases hhand with hnone | hsame
      · rw [hnone] at hu
        cases hu
      · rw [hut, ← hsame, hu]
    · rwa [hother u hut] at hu
  constructor
  case lock_iff =>
    rw [hpc]
    exact iff_update (g := (Pc.locked · = true)) h.lock_iff hlock
  case mem_waiters =>
    rw [hpc]
    exact iff_update (g := (· = Pc.asleep)) h.mem_waiters hwaiters
  case waiters_nodup => exact hnodup
  -- `t` is handed to nobody, so a sleeper in hand is another thread and stays where it is
  case inHand_handed =>
    intro u w hu
    have hw := h.inHand_handed u w (hheld u w hu)
    rw [hother w (fun hwt => hfrom (hwt ▸ hw))]
    exact hw
  case inHand_unique =>
    exact fun u v w hu hv => h.inHand_unique u v w (hheld u w hu) (hheld v w hv)
  case woken_success =>
    intro u hu
    rw [hwqres]
    by_cases hut : u = t
    · exact absurd (hself ▸ hut ▸ hu) hto.1
    · exact h.woken_success u (hother u hut ▸ hu)
  case not_failed =>
    intro u hu
    by_cases hut : u = t
    · exact hto.2 (hself ▸ hut ▸ hu)
    · exact h.not_failed u (hother u hut ▸ hu)
  case released_le =>
    intro u
    have := h.released_le u
    have := hreleased u
    omega
  case released_pending =>
    intro u hu
    have hkept : (s.pc u).pending = true → s'.released u = 0 := fun hp =>
      (hreleased u).elim (fun hr => hr.trans (h.released_pending u hp)) id
    by_cases hut : u = t
    · subst hut
      rw [hself] at hu
      exact (hpending hu).elim hkept id
    · rw [hother u hut] at hu
      exact hkept hu

/-- The queue clause of a move that neither enters nor leaves the queue. -/
theorem Linked.waiters_unmoved (h : Linked s) {p : Pc tt.Tid} (hold : s.pc t ≠ .asleep)
    (hp : p ≠ .asleep) :
    ∀ u, u ∈ s.waiters ↔ if u = t then p = .asleep else u ∈ s.waiters := by
  intro u
  by_cases hu : u = t
  · rw [if_pos hu, hu, h.mem_waiters t]
    exact iff_of_false hold hp
  · rw [if_neg hu]

/-- The lock clause of a move that neither takes nor drops the lock. -/
theorem Linked.lock_unmoved (h : Linked s) {p : Pc tt.Tid} (hp : p.locked = (s.pc t).locked) :
    ∀ u, s.lock = some u ↔ if u = t then p.locked = true else s.lock = some u := by
  intro u
  by_cases hu : u = t
  · rw [if_pos hu, hu, h.lock_iff t, hp]
  · rw [if_neg hu]

/-- The lock clause of a move that takes the free lock. -/
theorem lock_taken {p : Pc tt.Tid} (hfree : s.lock = none) (hp : p.locked = true) :
    ∀ u, some t = some u ↔ if u = t then p.locked = true else s.lock = some u := by
  intro u
  by_cases hu : u = t
  · simp [hu, hp]
  · simp [hu, hfree, Ne.symm hu]

/-- The lock clause of a move that drops the lock. -/
theorem Linked.lock_dropped (h : Linked s) {p : Pc tt.Tid} (hold : (s.pc t).locked = true)
    (hp : p.locked = false) :
    ∀ u, none = some u ↔ if u = t then p.locked = true else s.lock = some u := by
  intro u
  have ht := (h.lock_iff t).mpr hold
  by_cases hu : u = t
  · simp [hu, hp]
  · simp [hu, ht, Ne.symm hu]

/-- Taking `wq.lock`, in `semaphore_wait` or in `waitq_wake_one`. -/
theorem linked_lockQueue (h : Linked s) {p : Pc tt.Tid} (hs : lockQueue s t p = some s')
    (hpc : s.pc t = .idle ∧ p = .waitLocked ∨ s.pc t = .signalWake ∧ p = .wakeLocked) :
    Linked s' := by
  unfold lockQueue at hs
  by_cases hfree : s.lock = none
  · rw [if_pos hfree] at hs
    cases hs
    obtain ⟨hpc, rfl⟩ | ⟨hpc, rfl⟩ := hpc
    · refine h.move (t := t) (p := .waitLocked) rfl (lock_taken hfree rfl)
        (h.waiters_unmoved ?_ ?_) h.waiters_nodup rfl (fun _ => .inl rfl) ?_ (.inl rfl) ?_ ?_ <;>
        simp [hpc, Pc.pending]
    · refine h.move (t := t) (p := .wakeLocked) rfl (lock_taken hfree rfl)
        (h.waiters_unmoved ?_ ?_) h.waiters_nodup rfl (fun _ => .inl rfl) ?_ (.inl rfl) ?_ ?_ <;>
        simp [hpc, Pc.pending]
  · rw [if_neg hfree] at hs
    cases hs

/-- The release count of the thread that begins a signal starts anew. -/
theorem released_cleared (s : State tt.Tid) (t : tt.Tid) (u : tt.Tid) :
    Function.update s.released t 0 u = s.released u ∨ Function.update s.released t 0 u = 0 := by
  by_cases hu : u = t
  · exact .inr (by rw [hu, Function.update_self])
  · exact .inl (Function.update_of_ne hu _ _)

/-- `semaphore_signal`'s increment. -/
theorem linked_signalCount (h : Linked s) (hpc : s.pc t = .idle) : Linked (signalCount s t) := by
  unfold signalCount
  split
  · refine h.move (t := t) (p := .signalWake) rfl (h.lock_unmoved ?_) (h.waiters_unmoved ?_ ?_)
      h.waiters_nodup rfl (released_cleared s t) ?_ (.inl rfl) ?_ ?_ <;> simp [hpc, Pc.locked]
  · refine h.move (t := t) (p := .idle) rfl (h.lock_unmoved ?_) (h.waiters_unmoved ?_ ?_)
      h.waiters_nodup rfl (released_cleared s t) ?_ (.inl rfl) ?_ ?_ <;> simp [hpc]

/-- `semaphore_wait`'s decrement. -/
theorem linked_waitCount (h : Linked s) (hpc : s.pc t = .waitLocked) : Linked (waitCount s t) := by
  unfold waitCount
  split
  · refine h.move (t := t) (p := .waitBlock) rfl (h.lock_unmoved ?_) (h.waiters_unmoved ?_ ?_)
      h.waiters_nodup rfl (fun _ => .inl rfl) ?_ (.inl rfl) ?_ ?_ <;> simp [hpc, Pc.locked, Pc.pending]
  · refine h.move (t := t) (p := .waitPass) rfl (h.lock_unmoved ?_) (h.waiters_unmoved ?_ ?_)
      h.waiters_nodup rfl (fun _ => .inl rfl) ?_ (.inl rfl) ?_ ?_ <;> simp [hpc, Pc.locked, Pc.pending]

/-- The insertion and the unlock in `waitq_await_locked`. -/
theorem linked_awaitLocked (h : Linked s) (hpc : s.pc t = .waitBlock) :
    Linked (awaitLocked s t) := by
  have hnot : t ∉ s.waiters := by rw [h.mem_waiters t, hpc]; simp
  refine h.move (t := t) (p := .asleep) rfl (h.lock_dropped ?_ rfl) ?_ ?_ rfl (fun _ => .inl rfl) ?_
    (.inl rfl) ?_ ?_
  case refine_1 => rw [hpc]; rfl
  case refine_2 =>
    intro u
    by_cases hu : u = t <;> simp [awaitLocked, hu]
  case refine_3 => exact List.nodup_append_comm.mp (List.nodup_cons.mpr ⟨hnot, h.waiters_nodup⟩)
  all_goals simp [hpc, Pc.pending]

/-- The branch of `semaphore_wait` that does not sleep. -/
theorem linked_waitDone (h : Linked s) (hpc : s.pc t = .waitPass) : Linked (waitDone s t) := by
  refine h.move (t := t) (p := .idle) rfl (h.lock_dropped ?_ rfl) (h.waiters_unmoved ?_ ?_)
    h.waiters_nodup rfl (fun _ => .inl rfl) ?_ (.inl rfl) ?_ ?_ <;> simp [hpc, Pc.locked, Pc.pending]

/-- The woken thread was given `kWQSuccess`, so the assertion of `semaphore_wait` passes. -/
theorem awaitReturn_eq (h : Linked s) (hpc : s.pc t = .woken) : awaitReturn s t
    = { s with pc := Function.update s.pc t .idle, completed := s.completed + 1 } := by
  rw [awaitReturn, if_pos (h.woken_success t hpc)]

/-- `waitq_await_locked` returns. -/
theorem linked_awaitReturn (h : Linked s) (hpc : s.pc t = .woken) : Linked (awaitReturn s t) := by
  rw [awaitReturn_eq h hpc]
  refine h.move (t := t) (p := .idle) rfl (h.lock_unmoved ?_) (h.waiters_unmoved ?_ ?_)
    h.waiters_nodup rfl (fun _ => .inl rfl) ?_ (.inl rfl) ?_ ?_ <;> simp [hpc, Pc.locked, Pc.pending]

/-- The removal in `waitq_wake_one`: the signal releases its one waiter. -/
theorem linked_wakeRemove (h : Linked s) (hpc : s.pc t = .wakeLocked) : Linked (wakeRemove s t) := by
  unfold wakeRemove
  cases hw : s.waiters with
  | nil =>
      dsimp only
      refine h.move (t := t) (p := .wakeUnlock none) rfl (h.lock_unmoved ?_)
        (hw ▸ h.waiters_unmoved ?_ ?_) (hw ▸ h.waiters_nodup) rfl (fun _ => .inl rfl) ?_ (.inl rfl) ?_ ?_ <;>
        simp [hpc, Pc.locked, Pc.pending]
  | cons w rest =>
      have hwpc : s.pc w = .asleep := (h.mem_waiters w).mp (by simp [hw])
      have hne : w ≠ t := by rintro rfl; rw [hpc] at hwpc; cases hwpc
      have hnd := List.nodup_cons.mp (hw ▸ h.waiters_nodup)
      have h0 : s.released t = 0 := h.released_pending t (by rw [hpc]; rfl)
      -- nobody had `w` in hand: it was asleep
      have hfree : ∀ u, (s.pc u).inHand ≠ some w := fun u hu => by
        have := h.inHand_handed u w hu
        rw [hwpc] at this
        cases this
      constructor
      case lock_iff => intro u; have := h.lock_iff u; grind [Pc.locked]
      case mem_waiters => intro u; have := h.mem_waiters u; grind
      case waiters_nodup => exact hnd.2
      case inHand_handed => intro u v; have := h.inHand_handed u v; grind [Pc.inHand]
      case inHand_unique =>
        intro u v x
        have := h.inHand_unique u v x
        have := hfree u
        have := hfree v
        grind [Pc.inHand]
      case woken_success => intro u; have := h.woken_success u; grind
      case not_failed => intro u; have := h.not_failed u; grind
      case released_le => intro u; have := h.released_le u; grind
      case released_pending => intro u; have := h.released_pending u; grind [Pc.pending]

/-- The unlock in `waitq_wake_one`. -/
theorem linked_wakeUnlocked {o : Option tt.Tid} (h : Linked s) (hpc : s.pc t = .wakeUnlock o) :
    Linked (wakeUnlocked s t o) := by
  cases o with
  | none =>
      refine h.move (t := t) (p := .idle) rfl (h.lock_dropped ?_ rfl) (h.waiters_unmoved ?_ ?_)
        h.waiters_nodup rfl (fun _ => .inl rfl) ?_ (.inl rfl) ?_ ?_ <;> simp [hpc, Pc.locked, Pc.pending]
  | some w =>
      refine h.move (t := t) (p := .resuming w) rfl (h.lock_dropped ?_ rfl)
        (h.waiters_unmoved ?_ ?_) h.waiters_nodup rfl (fun _ => .inl rfl) ?_ (.inr ?_) ?_ ?_ <;>
        simp [hpc, Pc.locked, Pc.pending, Pc.inHand]

/-- `thread_resume` of the waiter. -/
theorem linked_wakeResume (h : Linked s) (hpc : s.pc t = .resuming w) :
    Linked (wakeResume s t w) := by
  have hwpc : s.pc w = .handed := h.inHand_handed t w (by rw [hpc]; rfl)
  have hne : w ≠ t := by rintro rfl; rw [hpc] at hwpc; cases hwpc
  -- no other waker has `w` in hand
  have hmine : ∀ u, (s.pc u).inHand = some w → u = t := fun u hu =>
    h.inHand_unique u t w hu (by rw [hpc]; rfl)
  unfold wakeResume
  constructor
  case lock_iff => intro u; have := h.lock_iff u; grind [Pc.locked]
  case mem_waiters => intro u; have := h.mem_waiters u; grind
  case waiters_nodup => exact h.waiters_nodup
  case inHand_handed =>
    intro u v
    have := h.inHand_handed u v
    have := hmine u
    grind [Pc.inHand]
  case inHand_unique => intro u v x; have := h.inHand_unique u v x; grind [Pc.inHand]
  case woken_success => intro u; have := h.woken_success u; grind
  case not_failed => intro u; have := h.not_failed u; grind
  case released_le => exact h.released_le
  case released_pending => intro u; have := h.released_pending u; grind [Pc.pending]

/-! ## The two balances -/

/-- An unused semaphore is balanced. -/
theorem balanced_init (wqres : tt.Tid → WaitqResult) (h0 : 0 ≤ initial) (hlt : initial < 2 ^ 31) :
    Balanced initial (init initial wqres) where
  queue_balance := by
    rw [numWith_eq_zero (f := (init initial wqres).pc) fun _ => rfl,
      numWith_eq_zero (f := (init initial wqres).pc) fun _ => rfl]
    simp only [init, List.length_nil]
    omega
  count_balance := by
    rw [numWith_eq_zero (f := (init initial wqres).pc) fun _ => rfl]
    simp [init]
  count_lt := hlt

/-- In range, `count` does not wrap. -/
theorem wrap32_eq {x : ℤ} (hlo : -2 ^ 31 ≤ x) (hhi : x < 2 ^ 31) : wrap32 x = x := by
  rw [wrap32]
  exact Int.bmod_eq_of_le (by norm_num; exact hlo) (by norm_num; exact hhi)

/-- The sleepers and those about to sleep are among the waits in flight. -/
theorem Linked.sleepers_le (h : Linked s) :
    s.waiters.length + numWith s.pc Pc.blocked ≤ numWith s.pc Pc.inflight := by
  rw [← numWith_eq_length (f := s.pc) (b := fun p => decide (p = .asleep)) h.waiters_nodup
    (by simpa using h.mem_waiters), ← numWith_or]
  · refine numWith_mono fun p => ?_
    cases p <;> simp [Pc.blocked, Pc.inflight]
  · intro p hp
    rw [of_decide_eq_true hp]
    rfl

/-- `count` is never far below zero: each unit below it is a wait in flight. -/
theorem Balanced.neg_count_le (hb : Balanced initial s) (h : Linked s) :
    -s.count ≤ numWith s.pc Pc.inflight := by
  have := h.sleepers_le
  have := hb.queue_balance
  omega

/-- The decrement of `semaphore_wait` does not wrap. -/
theorem Balanced.count_gt (hb : Balanced initial s) (h : Linked s) : -2 ^ 19 < s.count := by
  have hle : numWith s.pc Pc.inflight ≤ tt.n := by
    simpa only [Fintype.card_fin] using numWith_le_card (f := s.pc) (b := Pc.inflight)
  have := tt.n_lt
  have := hb.neg_count_le h
  omega

/-- **One thread moves.** The balances follow from what `t` adds to and takes from each side. -/
theorem Balanced.move (h : Balanced initial s) {p : Pc tt.Tid}
    (hpc : s'.pc = Function.update s.pc t p)
    (hqueue : (s'.waiters.length : ℤ) + p.blocked.toNat + max 0 (-s.count) + (s.pc t).pending.toNat
      = s.waiters.length + (s.pc t).blocked.toNat + max 0 (-s'.count) + p.pending.toNat)
    (hcount : s'.count + s'.completed + p.inflight.toNat + s.begun
      = s.count + s.completed + (s.pc t).inflight.toNat + s'.begun)
    (hlt : s'.count < 2 ^ 31) : Balanced initial s' := by
  have hblocked := numWith_update s.pc Pc.blocked t p
  have hpending := numWith_update s.pc Pc.pending t p
  have hinflight := numWith_update s.pc Pc.inflight t p
  have hq := h.queue_balance
  have hc := h.count_balance
  constructor
  case queue_balance => rw [hpc]; omega
  case count_balance => rw [hpc]; omega
  case count_lt => exact hlt

/-- Taking `wq.lock` changes neither balance. -/
theorem balanced_lockQueue (hb : Balanced initial s) {p : Pc tt.Tid}
    (hs : lockQueue s t p = some s')
    (hpc : s.pc t = .idle ∧ p = .waitLocked ∨ s.pc t = .signalWake ∧ p = .wakeLocked) :
    Balanced initial s' := by
  unfold lockQueue at hs
  split at hs
  · cases hs
    obtain ⟨hpc, rfl⟩ | ⟨hpc, rfl⟩ := hpc <;>
      exact hb.move (t := t) rfl (by rw [hpc]; rfl) (by rw [hpc]; rfl) hb.count_lt
  · cases hs

/-- `semaphore_signal`'s increment: below zero a unit of `-count` becomes a removal owed. -/
theorem balanced_signalCount (hb : Balanced initial s) (h : Linked s) (hpc : s.pc t = .idle)
    (hno : s.count ≠ 2 ^ 31 - 1) : Balanced initial (signalCount s t) := by
  have hlt := hb.count_lt
  have hgt := hb.count_gt h
  have hwrap : wrap32 (s.count + 1) = s.count + 1 := wrap32_eq (by omega) (by omega)
  unfold signalCount
  rw [hwrap]
  by_cases hle : s.count + 1 ≤ 0
  · rw [if_pos hle]
    refine hb.move (t := t) rfl ?_ ?_ ?_ <;> simp [hpc, Pc.blocked, Pc.pending, Pc.inflight] <;>
      omega
  · rw [if_neg hle]
    refine hb.move (t := t) rfl ?_ ?_ ?_ <;> simp [hpc, Pc.blocked, Pc.pending, Pc.inflight] <;>
      omega

/-- `semaphore_wait`'s decrement: below zero the thread joins those about to sleep. -/
theorem balanced_waitCount (hb : Balanced initial s) (h : Linked s) (hpc : s.pc t = .waitLocked) :
    Balanced initial (waitCount s t) := by
  have hlt := hb.count_lt
  have hgt := hb.count_gt h
  have hwrap : wrap32 (s.count - 1) = s.count - 1 := wrap32_eq (by omega) (by omega)
  unfold waitCount
  rw [hwrap]
  by_cases hneg : s.count - 1 < 0
  · rw [if_pos hneg]
    refine hb.move (t := t) rfl ?_ ?_ ?_ <;> simp [hpc, Pc.blocked, Pc.pending, Pc.inflight] <;>
      omega
  · rw [if_neg hneg]
    refine hb.move (t := t) rfl ?_ ?_ ?_ <;> simp [hpc, Pc.blocked, Pc.pending, Pc.inflight] <;>
      omega

/-- The insertion: from about to sleep to asleep. -/
theorem balanced_awaitLocked (hb : Balanced initial s) (hpc : s.pc t = .waitBlock) :
    Balanced initial (awaitLocked s t) := by
  unfold awaitLocked
  refine hb.move (t := t) rfl ?_ ?_ hb.count_lt <;>
    simp [hpc, Pc.blocked, Pc.pending, Pc.inflight]

/-- A wait that need not sleep returns. -/
theorem balanced_waitDone (hb : Balanced initial s) (hpc : s.pc t = .waitPass) :
    Balanced initial (waitDone s t) := by
  unfold waitDone
  refine hb.move (t := t) rfl ?_ ?_ hb.count_lt <;>
    simp [hpc, Pc.blocked, Pc.pending, Pc.inflight]
  omega

/-- A wait that slept returns. -/
theorem balanced_awaitReturn (hb : Balanced initial s) (h : Linked s) (hpc : s.pc t = .woken) :
    Balanced initial (awaitReturn s t) := by
  rw [awaitReturn_eq h hpc]
  refine hb.move (t := t) rfl ?_ ?_ hb.count_lt <;>
    simp [hpc, Pc.blocked, Pc.pending, Pc.inflight]
  omega

/-- While a thread holds `wq.lock` to wake, nobody is about to sleep. -/
theorem Linked.blocked_eq_zero (h : Linked s)
    (hfree : ∀ u, s.lock = some u → (s.pc u).blocked = false) :
    numWith s.pc Pc.blocked = 0 := by
  refine numWith_eq_zero fun u => ?_
  rw [Bool.eq_false_iff]
  intro hu
  have hlocked : (s.pc u).locked = true := by
    cases hpc : s.pc u <;> rw [hpc] at hu <;> first | rfl | cases hu
  rw [hfree u ((h.lock_iff u).mpr hlocked)] at hu
  exact Bool.false_ne_true hu

/-- **A removal finds its waiter.** -/
theorem Balanced.waiters_ne_nil (hb : Balanced initial s) (h : Linked s)
    (hpc : s.pc t = .wakeLocked) : s.waiters ≠ [] := by
  have hlock : s.lock = some t := (h.lock_iff t).mpr (by rw [hpc]; rfl)
  have hblocked : numWith s.pc Pc.blocked = 0 := h.blocked_eq_zero fun u hu => by
    obtain rfl : t = u := Option.some.inj (hlock.symm.trans hu)
    rw [hpc]
    rfl
  have hpending : 0 < numWith s.pc Pc.pending := numWith_pos (t := t) (by rw [hpc]; rfl)
  have hq := hb.queue_balance
  rintro hnil
  rw [hnil, List.length_nil] at hq
  omega

/-- The removal: a sleeper goes, and the removal is no longer owed. -/
theorem balanced_wakeRemove (hb : Balanced initial s) (h : Linked s) (hpc : s.pc t = .wakeLocked) :
    Balanced initial (wakeRemove s t) := by
  obtain ⟨w, rest, hw⟩ := List.exists_cons_of_ne_nil (hb.waiters_ne_nil h hpc)
  have hwpc : s.pc w = .asleep := (h.mem_waiters w).mp (by simp [hw])
  have hne : w ≠ t := by rintro rfl; rw [hpc] at hwpc; cases hwpc
  have hq := hb.queue_balance
  have hc := hb.count_balance
  -- `w` moves first, to a phase that counts as the old one did
  have hmid : ∀ b : Pc tt.Tid → Bool, b .handed = b .asleep →
      numWith (Function.update (Function.update s.pc w .handed) t (.wakeUnlock (some w))) b
        + (b .wakeLocked).toNat = numWith s.pc b + (b (.wakeUnlock (some w))).toNat := by
    intro b hb
    have hboth := numWith_update_update s.pc b hne .handed (.wakeUnlock (some w))
    rw [hwpc, hpc, hb] at hboth
    omega
  have hblocked := hmid Pc.blocked rfl
  have hpending := hmid Pc.pending rfl
  have hinflight := hmid Pc.inflight rfl
  simp only [Pc.blocked, Pc.pending, Pc.inflight, Bool.toNat_false, Bool.toNat_true]
    at hblocked hpending hinflight
  rw [hw, List.length_cons] at hq
  unfold wakeRemove
  rw [hw]
  constructor
  case queue_balance => dsimp only; omega
  case count_balance => dsimp only; omega
  case count_lt => exact hb.count_lt

/-- The unlock in `waitq_wake_one` changes neither balance. -/
theorem balanced_wakeUnlocked {o : Option tt.Tid} (hb : Balanced initial s)
    (hpc : s.pc t = .wakeUnlock o) : Balanced initial (wakeUnlocked s t o) := by
  cases o <;> exact hb.move (t := t) rfl (by rw [hpc]; rfl) (by rw [hpc]; rfl) hb.count_lt

/-- `thread_resume` changes neither balance: the wait is still in flight. -/
theorem balanced_wakeResume (hb : Balanced initial s) (h : Linked s) (hpc : s.pc t = .resuming w) :
    Balanced initial (wakeResume s t w) := by
  have hwpc : s.pc w = .handed := h.inHand_handed t w (by rw [hpc]; rfl)
  have hne : w ≠ t := by rintro rfl; rw [hpc] at hwpc; cases hwpc
  have hwoken : Balanced initial { s with pc := Function.update s.pc w .woken } :=
    hb.move (t := w) rfl (by rw [hwpc]; rfl) (by rw [hwpc]; rfl) hb.count_lt
  have hself : Function.update s.pc w .woken t = .resuming w := by
    rw [Function.update_of_ne hne.symm, hpc]
  exact hwoken.move (t := t) (p := .idle) rfl (by dsimp only [wakeResume]; rw [hself]; rfl)
    (by dsimp only [wakeResume]; rw [hself]; rfl) hb.count_lt

/-! ## Whole runs -/

/-- Every step keeps the links; every step that does not overflow `count` keeps the balances. -/
theorem inv_step {a : Action tt.Tid} (h : Linked s ∧ Balanced initial s) (hno : NoOverflow s a)
    (hs : step s a = some s') : Linked s' ∧ Balanced initial s' := by
  obtain ⟨hl, hb⟩ := h
  cases a with
  | wait t =>
      rw [step] at hs
      split at hs
      · rename_i hpc
        exact ⟨linked_lockQueue hl hs (.inl ⟨hpc, rfl⟩), balanced_lockQueue hb hs (.inl ⟨hpc, rfl⟩)⟩
      · cases hs
  | signal t =>
      rw [step] at hs
      split at hs
      · rename_i hpc
        cases hs
        exact ⟨linked_signalCount hl hpc, balanced_signalCount hb hl hpc hno⟩
      · cases hs
  -- one case for each program counter; a sleeping thread takes no step of its own
  | next t =>
      rw [step, next] at hs
      cases hpc : s.pc t with
      | idle => rw [hpc] at hs; cases hs
      | waitLocked =>
          rw [hpc] at hs; cases hs
          exact ⟨linked_waitCount hl hpc, balanced_waitCount hb hl hpc⟩
      | waitBlock =>
          rw [hpc] at hs; cases hs
          exact ⟨linked_awaitLocked hl hpc, balanced_awaitLocked hb hpc⟩
      | waitPass =>
          rw [hpc] at hs; cases hs
          exact ⟨linked_waitDone hl hpc, balanced_waitDone hb hpc⟩
      | asleep => rw [hpc] at hs; cases hs
      | handed => rw [hpc] at hs; cases hs
      | woken =>
          rw [hpc] at hs; cases hs
          exact ⟨linked_awaitReturn hl hpc, balanced_awaitReturn hb hl hpc⟩
      | signalWake =>
          rw [hpc] at hs
          exact ⟨linked_lockQueue hl hs (.inr ⟨hpc, rfl⟩), balanced_lockQueue hb hs (.inr ⟨hpc, rfl⟩)⟩
      | wakeLocked =>
          rw [hpc] at hs; cases hs
          exact ⟨linked_wakeRemove hl hpc, balanced_wakeRemove hb hl hpc⟩
      | wakeUnlock o =>
          rw [hpc] at hs; cases hs
          exact ⟨linked_wakeUnlocked hl hpc, balanced_wakeUnlocked hb hpc⟩
      | resuming w =>
          rw [hpc] at hs; cases hs
          exact ⟨linked_wakeResume hl hpc, balanced_wakeResume hb hl hpc⟩
      | failed => rw [hpc] at hs; cases hs

/-- What the semaphore promises in one state. -/
structure Conserved (initial : ℤ) (s : State tt.Tid) : Prop where
  /-- A `waitq_wake_one` that has `wq->lock` finds a waiter. -/
  finds_waiter : ∀ t, s.pc t = .wakeLocked → s.waiters ≠ []
  /-- A signal releases at most one waiter. -/
  releases_one : ∀ t, s.released t ≤ 1
  /-- No more waits complete than the initial count and the signals allow. -/
  completed_le : (s.completed : ℤ) ≤ initial + s.begun
  /-- With `wq.lock` free the queue is as long as `count` and the removals owed say. -/
  length_eq : s.lock = none →
    (s.waiters.length : ℤ) = max 0 (-s.count) + numWith s.pc Pc.pending

/-- The invariants give the promises. -/
theorem Balanced.conserved (hb : Balanced initial s) (h : Linked s) : Conserved initial s where
  finds_waiter _ hpc := hb.waiters_ne_nil h hpc
  releases_one := h.released_le
  completed_le := by
    have := hb.count_balance
    have := hb.neg_count_le h
    omega
  length_eq hfree := by
    have hblocked : numWith s.pc Pc.blocked = 0 := h.blocked_eq_zero fun u hu => by
      rw [hfree] at hu
      cases hu
    have := hb.queue_balance
    omega

/-- **Conservation.** In every interleaving in which no signal finds `count` at `2 ^ 31 - 1`, every
wake-up finds a waiter, each signal releases at most one, completed waits are at most the initial
count plus the signals begun, and with `wq.lock` free the queue's length is `max 0 (-count)` plus
the removals owed. -/
theorem semaphore_conservation (wqres : tt.Tid → WaitqResult) (h0 : 0 ≤ initial)
    (hlt : initial < 2 ^ 31) (h : (machine tt.Tid).Reach NoOverflow (init initial wqres) s) :
    Conserved initial s := by
  have hinv : Linked s ∧ Balanced initial s :=
    h.invariant (I := fun s => Linked s ∧ Balanced initial s)
      ⟨linked_init initial wqres, balanced_init wqres h0 hlt⟩
      fun _ _ _ hi hno hs => inv_step hi hno hs
  exact hinv.2.conserved hinv.1

/-- A run in which thread 1 sleeps on an empty semaphore and thread 0 is about to wake it. -/
theorem semaphore_conservation_wake :
    ∃ s, (machine ThreadTable.two.Tid).exec (init 0 fun _ => .kWQTimeout)
        [.wait 1, .next 1, .next 1, .signal 0, .next 0] = some s ∧ s.pc 0 = .wakeLocked ∧
      Conserved 0 s := by
  refine ⟨_, rfl, rfl, ?_⟩
  exact semaphore_conservation (fun _ => .kWQTimeout) le_rfl (by decide)
    (Machine.reach_of_exec (c := fun s a => decide (NoOverflow s a))
      (fun _ _ hc => of_decide_eq_true hc)
      (l := [.wait 1, .next 1, .next 1, .signal 0, .next 0]) rfl rfl)

/-- **The overflow.** A signal of a semaphore at `2 ^ 31 - 1`, on which nobody waits, goes on to
wake a thread that is not there. -/
theorem semaphore_signal_overflow :
    ¬ ∀ s, (machine ThreadTable.two.Tid).Reachable (init (2 ^ 31 - 1) fun _ => .kWQTimeout) s →
      Conserved (2 ^ 31 - 1) s := by
  intro h
  have hrun := h _ (Machine.reachable_of_exec (l := [.signal 0, .next 0]) rfl)
  exact hrun.finds_waiter 0 rfl rfl

end Scalux.Semaphore
