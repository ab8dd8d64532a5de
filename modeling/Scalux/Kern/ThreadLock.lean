import Scalux.Kern.SchedQueues

/-! # Who releases a sleeping thread's lock

`waitq_await_locked` takes `thread->lock` and leaves it to `sched_reschedule` to release it:
"protocol indicates that if you are about to wait, you shall lock yourself and let Scheduler unlock
you".  The scheduler does so only when it finds the state `kThreadWaiting`.  `wq->lock` is free by
then, so a waker on another CPU may have put the thread on its run queue and set `kThreadRunnable`:
no branch of `sched_reschedule` releases the lock of such a thread.

* **`thread_lock_handover`**: if `thread_resume` only ever gets threads that have entered
  `sched_reschedule`, the lock of a thread whose wait returns is free.
* **`thread_lock_kept`**: otherwise the thread returns with its lock held, and its next wait spins. -/

namespace Scalux.Sched

variable {C T W : Type*} {cfg : Config C T} {s s' : State C T W} {t : T} {c : C} {w : W}

/-- The lock of a thread is held on the way to `sched_reschedule` only, and the thread is
`kThreadWaiting` there. -/
structure Handover (s : State C T W) : Prop where
  block_of_locked : ∀ t, s.locked t = true → s.pc (.thread t) = .block
  waiting_of_block : ∀ t, s.pc (.thread t) = .block → s.state t = .kThreadWaiting

/-- A thread that is not on its way to `sched_reschedule` has a free lock. -/
theorem Handover.locked_eq_false (h : Handover s) (hpc : s.pc (.thread t) ≠ .block) :
    s.locked t = false := by
  cases hl : s.locked t with
  | false => rfl
  | true => exact absurd (h.block_of_locked t hl) hpc

/-- A step that neither locks a thread nor changes the state of one on its way to
`sched_reschedule`. -/
theorem Handover.frame (h : Handover s)
    (hlocked : ∀ t, s'.locked t = true → s.locked t = true)
    (hstate : ∀ t, s.pc (.thread t) = .block → s'.state t = s.state t)
    (hpc : ∀ t, s'.pc (.thread t) = .block ↔ s.pc (.thread t) = .block) : Handover s' where
  block_of_locked t ht := (hpc t).mpr (h.block_of_locked t (hlocked t ht))
  waiting_of_block t ht := by
    rw [hstate t ((hpc t).mp ht)]
    exact h.waiting_of_block t ((hpc t).mp ht)

variable [DecidableEq C] [DecidableEq T]

/-- A context that neither is nor gets on its way to `sched_reschedule`. -/
theorem block_update_iff {x y : Ctx C T} {p : Pc T W} (hx : s.pc x ≠ .block) (hp : p ≠ .block) :
    Function.update s.pc x p y = .block ↔ s.pc y = .block := by
  rw [Function.update_apply]
  split
  · rename_i hy
    rw [hy]
    exact iff_of_false hp hx
  · rfl

/-- No thread on its way to `sched_reschedule` can be picked by `sched_next`. -/
def Clear (cfg : Config C T) (s : State C T W) : Prop :=
  ∀ t, s.pc (.thread t) = .block → cfg.isIdle t = false ∧ ∀ c, t ∉ s.runqueue c

omit [DecidableEq C] [DecidableEq T] in
/-- A thread that blocks is not an idle one. -/
theorem Clear.ne_idle (h : Clear cfg s) (ht : s.pc (.thread t) = .block) : t ≠ cfg.idle c := by
  rintro rfl
  have hidle := (h _ ht).1
  rw [cfg.isIdle_idle c] at hidle
  cases hidle

omit [DecidableEq C] [DecidableEq T] in
/-- A thread on its way there that is on a run queue has been made runnable; the idle threads never
sleep. -/
theorem Handover.clear {loc : T → Place C T W} (h : Handover s) (hplaced : Placed cfg loc s) :
    Clear cfg s := by
  intro t ht
  constructor
  · rw [← Bool.not_eq_true]
    exact fun hidle => (hplaced.idle_here t hidle).2.2 ht
  · intro c hc
    have hrunq : loc t = .runq := ((hplaced.runq_iff t c).mp hc).1
    obtain ⟨hcur, hoff⟩ := hplaced.block_cur t ht
    have hblocking := hplaced.blocking (cfg.cpuOf t) hoff (hcur.symm ▸ ht)
    rw [hcur, hrunq, h.waiting_of_block t ht] at hblocking
    obtain ⟨-, ⟨w, hw⟩ | ⟨x, hx⟩⟩ | ⟨hstate, -⟩ := hblocking
    · cases hw
    · cases hx
    · cases hstate

/-- `sched_next` changes the state of the thread it picks only. -/
theorem handover_schedNext (h : Handover s) (hclear : Clear cfg s) :
    Handover (schedNext cfg s c) := by
  unfold schedNext
  split
  · refine h.frame (fun _ ht => ht) (fun t ht => ?_) fun _ => .rfl
    exact Function.update_of_ne (hclear.ne_idle ht) _ _
  · rename_i u rest hq
    refine h.frame (fun _ ht => ht) (fun t ht => ?_) fun _ => .rfl
    have hne : t ≠ u := by
      rintro rfl
      refine (hclear t ht).2 c ?_
      rw [hq]
      exact List.mem_cons_self
    exact Function.update_of_ne hne _ _

/-- A thread that is not about to sleep is put on no queue, or on its run queue. -/
theorem handover_yield (h : Handover s) (hclear : Clear cfg s)
    (hpc : s.pc (.thread (s.cur c)) ≠ .block) (hs : schedReschedule cfg s c = some s') :
    Handover s' := by
  unfold schedReschedule at hs
  split at hs
  · split at hs
    · cases hs
      exact handover_schedNext h hclear
    · cases hs
  · split at hs
    · cases hs
      refine handover_schedNext (h.frame (fun t ht => ?_) (fun _ _ => rfl) fun _ => .rfl) hclear
      dsimp only at ht
      rw [Function.update_apply] at ht
      split at ht
      · cases ht
      · exact ht
    · cases hs
      exact handover_schedNext h hclear
    · cases hs
      refine handover_schedNext (h.frame (fun _ ht => ht) (fun _ _ => rfl) fun _ => .rfl) ?_
      -- what joins the run queue is the thread that yields, and it is not on its way to sleep
      intro t ht
      obtain ⟨hidle, hnot⟩ := hclear t ht
      refine ⟨hidle, fun d hd => ?_⟩
      dsimp only at hd
      rw [Function.update_apply] at hd
      split at hd
      · rename_i heq
        rcases List.mem_append.mp hd with hd | hd
        · exact hnot c hd
        · rw [List.mem_singleton] at hd
          exact hpc (hd ▸ ht)
      · exact hnot d hd
    · cases hs
      exact handover_schedNext h hclear

/-- The switch out of `waitq_await_locked` releases the lock of the thread. -/
theorem handover_block (h : Handover s) (hclear : Clear cfg s)
    (hpc : s.pc (.thread (s.cur c)) = .block)
    (hs : schedReschedule cfg
      { s with pc := Function.update s.pc (.thread (s.cur c)) .blocked } c = some s') :
    Handover s' := by
  unfold schedReschedule at hs
  rw [if_neg (hclear.ne_idle hpc)] at hs
  dsimp only at hs
  rw [h.waiting_of_block _ hpc] at hs
  cases hs
  -- the thread leaves the window in which its lock is held
  have hblock : ∀ t, Function.update s.pc (.thread (s.cur c)) .blocked (.thread t) = .block →
      t ≠ s.cur c ∧ s.pc (.thread t) = .block := by
    intro t ht
    rw [Function.update_apply] at ht
    split at ht
    · cases ht
    · rename_i hne
      exact ⟨fun heq => hne (congrArg _ heq), ht⟩
  refine handover_schedNext ⟨fun t ht => ?_, fun t ht => h.waiting_of_block t (hblock t ht).2⟩
    fun t ht => hclear t (hblock t ht).2
  dsimp only at ht ⊢
  rw [Function.update_apply] at ht
  split at ht
  · cases ht
  · rename_i hne
    rw [Function.update_of_ne fun heq => hne (Ctx.thread.inj heq)]
    exact h.block_of_locked t ht

/-- `waitq_await_locked` takes the thread from a free lock into the window. -/
theorem handover_awaitLocked [DecidableEq W] (h : Handover s)
    (hs : awaitLocked s t w = some s') : Handover s' := by
  unfold awaitLocked at hs
  split at hs
  · cases hs
  · cases hs
    constructor
    · intro u hu
      dsimp only at hu ⊢
      by_cases heq : u = t
      · rw [heq, Function.update_self]
      · rw [Function.update_of_ne heq] at hu
        rw [Function.update_of_ne fun hctx => heq (Ctx.thread.inj hctx)]
        exact h.block_of_locked u hu
    · intro u hu
      dsimp only at hu ⊢
      by_cases heq : u = t
      · rw [heq, Function.update_self]
      · rw [Function.update_of_ne fun hctx => heq (Ctx.thread.inj hctx)] at hu
        rw [Function.update_of_ne heq]
        exact h.waiting_of_block u hu

/-- A step that changes the program counter of a context outside the window, and no lock and no
state. -/
theorem handover_pc {x : Ctx C T} {p : Pc T W} (h : Handover s) (hlocked : s'.locked = s.locked)
    (hstate : s'.state = s.state) (hpc : s'.pc = Function.update s.pc x p)
    (hx : s.pc x ≠ .block) (hp : p ≠ .block) : Handover s' := by
  refine h.frame (fun t ht => hlocked ▸ ht) (fun t _ => congrFun hstate t) fun t => ?_
  rw [hpc]
  exact block_update_iff hx hp

/-- Waking a thread keeps the locks handed over. -/
theorem handover_waitqWakeOne [DecidableEq W] {x : Ctx C T} (h : Handover s)
    (hx : s.pc x ≠ .block) : Handover (waitqWakeOne s x w) := by
  unfold waitqWakeOne
  split
  · exact handover_pc h rfl rfl rfl hx (by simp)
  · exact handover_pc h rfl rfl rfl hx (by simp)

/-- The end of `handle_int`, outside the critical sections. -/
theorem handover_handleIntTail (h : Handover s) (hclear : Clear cfg s)
    (hpc : s.pc (.thread (s.cur c)) ≠ .block) (hs : handleIntTail cfg s c = some s') :
    Handover s' := by
  unfold handleIntTail at hs
  split at hs
  · have hflag : Handover { s with preempted := Function.update s.preempted c false } :=
      h.frame (fun _ ht => ht) (fun _ _ => rfl) fun _ => .rfl
    exact handover_yield hflag hclear hpc hs
  · cases hs
    exact h

/-- The end of `thread_resume`. -/
theorem handover_threadResumed (h : Handover s) (hclear : Clear cfg s)
    (hpc : s.pc (ctx s c) = .resumed t) (hs : threadResumed cfg s c t = some s') :
    Handover s' := by
  have hne : s.pc (ctx s c) ≠ .block := by
    rw [hpc]
    simp
  have hrun : Handover { s with pc := Function.update s.pc (ctx s c) .run } :=
    handover_pc h rfl rfl rfl hne (by simp)
  have hclear' : Clear cfg { s with pc := Function.update s.pc (ctx s c) .run } := by
    intro u hu
    have hto : (.run : Pc T W) ≠ .block := by simp
    exact hclear u ((block_update_iff hne hto).mp hu)
  unfold threadResumed at hs
  dsimp only at hs
  -- the resumed thread is of this CPU, or its own one is sent an interrupt
  by_cases hcpu : cfg.cpuOf t = c
  · rw [if_pos hcpu] at hs
    -- inside an interrupt the switch is left for its end, outside it is made at once
    by_cases hin : s.inInterrupt c = true
    · rw [if_pos hin] at hs
      cases hs
      exact hrun.frame (fun _ ht => ht) (fun _ _ => rfl) fun _ => .rfl
    · rw [if_neg hin] at hs
      have hctx : ctx s c = .thread (s.cur c) := if_neg hin
      refine handover_yield hrun hclear' ?_ hs
      dsimp only
      rw [hctx, Function.update_self]
      simp
  · rw [if_neg hcpu] at hs
    cases hs
    exact hrun

/-- The condition on a step: the thread that `thread_resume` makes runnable has entered
`sched_reschedule`, if it was waiting. -/
def SwitchedOut (s : State C T W) : Action C T W → Prop
  | .next c =>
      match s.pc (ctx s c) with
      | .resume t => s.pc (.thread t) ≠ .block
      | _ => True
  | _ => True

instance [DecidableEq W] (s : State C T W) : (a : Action C T W) → Decidable (SwitchedOut s a)
  | .next c =>
      match h : s.pc (ctx s c) with
      | .resume t => decidable_of_iff (s.pc (.thread t) ≠ .block) (by rw [SwitchedOut, h])
      | .run | .wake _ | .resumed _ | .block | .blocked => .isTrue (by rw [SwitchedOut, h]; trivial)
  | .threadResume .. | .waitqAwait .. | .semaphoreWait .. | .waitqWakeOne .. | .semaphoreSignal ..
  | .schedReschedule .. | .exit .. | .interrupt .. | .schedTimeslice .. | .interruptReturn ..
  | .exceptionReturn .. => .isTrue trivial

/-- `thread_resume` under the condition. -/
theorem handover_threadResume {x : Ctx C T} (h : Handover s) (hx : s.pc x = .resume t)
    (ht : s.pc (.thread t) ≠ .block) : Handover (threadResume cfg s x t) := by
  refine h.frame (fun _ hu => hu) (fun u hu => ?_) fun u => block_update_iff ?_ (by simp)
  · have hne : u ≠ t := by
      rintro rfl
      exact ht hu
    exact Function.update_of_ne hne _ _
  · rw [hx]
    simp

/-- The step of a CPU inside a function. -/
theorem handover_next [DecidableEq W] {loc : T → Place C T W} (h : Handover s)
    (hplaced : Placed cfg loc s) (hc : SwitchedOut s (.next c)) (hs : next cfg s c = some s') :
    Handover s' := by
  have hclear := h.clear hplaced
  rw [SwitchedOut] at hc
  unfold next at hs
  -- by the program counter of the context that moves
  cases hpc : s.pc (ctx s c) with
  | run => rw [hpc] at hs; cases hs
  | wake w =>
      rw [hpc] at hs; cases hs
      exact handover_waitqWakeOne h (by rw [hpc]; simp)
  | resume t =>
      rw [hpc] at hs hc; cases hs
      exact handover_threadResume h hpc hc
  | resumed t =>
      rw [hpc] at hs
      exact handover_threadResumed h hclear hpc hs
  | block =>
      rw [hpc] at hs
      exact handover_block h hclear (hplaced.ctx_of_block hpc ▸ hpc) hs
  | blocked =>
      rw [hpc] at hs; cases hs
      exact handover_pc h rfl rfl rfl (by rw [hpc]; simp) (by simp)

/-- Every step under the condition keeps the window. -/
theorem handover_step [DecidableEq W] {loc : T → Place C T W} {a : Action C T W} (h : Handover s)
    (hplaced : Placed cfg loc s) (hc : SwitchedOut s a) (hs : step cfg s a = some s') :
    Handover s' := by
  have hclear := h.clear hplaced
  -- a step that touches neither locks, states nor program counters
  have hflags : ∀ {s₁ : State C T W}, s₁.locked = s.locked → s₁.state = s.state → s₁.pc = s.pc →
      Handover s₁ := fun hl hst hpc =>
    h.frame (fun t ht => hl ▸ ht) (fun t _ => congrFun hst t) fun t => by rw [hpc]
  have hrun : ∀ {x : Ctx C T}, s.pc x = .run → s.pc x ≠ .block := fun hx => hx ▸ (by simp)
  cases a with
  | threadResume c t =>
      rw [step] at hs
      split at hs
      · rename_i hguard
        cases hs
        exact handover_pc h rfl rfl rfl (hrun hguard.1) (by simp)
      · cases hs
  | waitqAwait c w =>
      rw [step] at hs
      split at hs
      · exact handover_awaitLocked h hs
      · cases hs
  | semaphoreWait c w =>
      rw [step] at hs
      split at hs
      · unfold semaphoreWait at hs
        dsimp only at hs
        have hcount : ∀ n, Handover { s with count := Function.update s.count w n } :=
          fun n => hflags rfl rfl rfl
        split at hs
        · exact handover_awaitLocked (hcount _) hs
        · cases hs
          exact hflags rfl rfl rfl
      · cases hs
  | waitqWakeOne c w =>
      rw [step] at hs
      split at hs
      · rename_i hpc
        cases hs
        exact handover_waitqWakeOne h (hrun hpc)
      · cases hs
  | semaphoreSignal c w =>
      rw [step] at hs
      split at hs
      · rename_i hpc
        cases hs
        refine handover_pc h rfl rfl rfl (hrun hpc) ?_
        split <;> simp
      · cases hs
  | schedReschedule c =>
      rw [step] at hs
      split at hs
      · rename_i hguard
        exact handover_yield h hclear (hrun hguard.2) hs
      · cases hs
  | exit c =>
      rw [step] at hs
      split at hs
      · rename_i hmay
        have hexit : Handover { s with
            state := Function.update s.state (s.cur c) .kThreadExiting } := by
          refine h.frame (fun _ ht => ht) (fun t ht => ?_) fun _ => .rfl
          -- the thread that exits is running
          have hne : t ≠ s.cur c := by
            rintro rfl
            exact hrun hmay.2.1 ht
          exact Function.update_of_ne hne _ _
        exact handover_yield hexit hclear (hrun hmay.2.1) hs
      · cases hs
  | interrupt c =>
      rw [step] at hs
      split at hs
      · cases hs
        exact hflags rfl rfl rfl
      · cases hs
  | schedTimeslice c =>
      rw [step] at hs
      split at hs
      · cases hs
        exact hflags rfl rfl rfl
      · cases hs
  | interruptReturn c =>
      rw [step] at hs
      split at hs
      · rename_i hguard
        have hflag : Handover { s with inInterrupt := Function.update s.inInterrupt c false } :=
          hflags rfl rfl rfl
        exact handover_handleIntTail hflag hclear (hplaced.intr_off c (by simp) hguard.1) hs
      · cases hs
  | exceptionReturn c =>
      rw [step] at hs
      split at hs
      · rename_i hen
        exact handover_handleIntTail h hclear (intrEnabled_ne_block hen) hs
      · cases hs
  | next c => exact handover_next h hplaced hc hs

/-- The step is a return of `waitq_await` or `semaphore_wait` to its caller `t`: after a sleep, or,
from `semaphore_wait`, without one. -/
def Returns (s : State C T W) (a : Action C T W) (s' : State C T W) (t : T) : Prop :=
  match a with
  | .next c => ctx s c = .thread t ∧ s.pc (.thread t) = .blocked
  | .semaphoreWait c _ => s.cur c = t ∧ s'.pc (.thread t) = .run
  | _ => False

/-- In the state `s`, a thread that returns from a wait has a free lock, and one that starts to wait
does not spin on its own. -/
structure LocksFree [DecidableEq W] (cfg : Config C T) (s : State C T W) : Prop where
  returned : ∀ a s' t, step cfg s a = some s' → Returns s a s' t → s'.locked t = false
  no_spin : ∀ c w, mayWait cfg s c → (awaitLocked s (s.cur c) w).isSome = true

/-- The window contains no thread that returns or starts to wait. -/
theorem Handover.locksFree [DecidableEq W] (h : Handover s) : LocksFree cfg s where
  returned a s' t hs hret := by
    cases a with
    | next c =>
        obtain ⟨hctx, hpc⟩ := hret
        rw [step, next, hctx, hpc] at hs
        cases hs
        -- the thread that returns was no longer locked when it was switched to
        exact h.locked_eq_false (by rw [hpc]; simp)
    | semaphoreWait c w =>
        obtain ⟨rfl, hrun⟩ := hret
        rw [step] at hs
        split at hs
        · rename_i hmay
          unfold semaphoreWait at hs
          dsimp only at hs
          split at hs
          · -- the thread sleeps, so this is no return
            unfold awaitLocked at hs
            split at hs
            · cases hs
            · cases hs
              dsimp only at hrun
              rw [Function.update_self] at hrun
              cases hrun
          · cases hs
            exact h.locked_eq_false (by rw [hmay.2.1]; simp)
        · cases hs
    | _ => exact hret.elim
  no_spin c w hmay := by
    have hfree : s.locked (s.cur c) = false := h.locked_eq_false (by rw [hmay.2.1]; simp)
    unfold awaitLocked
    rw [hfree]
    rfl

/-- **The scheduler releases the lock of a thread that waits.** On any number of CPUs, in every run
in which `thread_resume` makes no thread runnable between its unlock of `wq->lock` and its
`sched_reschedule`, the lock of a thread that returns from `waitq_await` or `semaphore_wait` is free,
and `waitq_await_locked` never spins on the lock of its own thread. -/
theorem thread_lock_handover [DecidableEq W] (wqres : T → WaitqResult) (count : W → ℤ)
    (h : (machine W cfg).Reach SwitchedOut (init cfg wqres count) s) : LocksFree cfg s := by
  have hinv : (∃ loc, Placed cfg loc s) ∧ Handover s := by
    refine h.invariant (I := fun s => (∃ loc, Placed cfg loc s) ∧ Handover s) ?_ ?_
    · exact ⟨⟨_, placed_init wqres count⟩, nofun, nofun⟩
    · intro s a s' hi hc hs
      obtain ⟨loc, hplaced⟩ := hi.1
      exact ⟨placed_step hi.1 hs, handover_step hi.2 hplaced hc hs⟩
  exact hinv.2.locksFree

/-- Thread 2 waits and thread 3, on the other CPU, wakes it after `sched_reschedule` has switched
away from it. -/
def wokenAsleep : List (Action (Fin 2) (Fin 4) Unit) :=
  [.threadResume 0 2, .next 0, .next 0, .threadResume 1 3, .next 1, .next 1, .waitqAwait 0 (),
    .next 0, .waitqWakeOne 1 (), .next 1, .next 1, .schedReschedule 0]

/-- A thread that slept is switched to again, and its lock is free when it runs. -/
theorem thread_lock_handover_asleep :
    ∃ s s', (machine Unit twoCpus).exec (init twoCpus (fun _ => .kWQTimeout) fun _ => 0)
        wokenAsleep = some s ∧ step twoCpus s (.next 0) = some s' ∧ Returns s (.next 0) s' 2 ∧
      s'.locked 2 = false := by
  have hreach : ∀ s, (machine Unit twoCpus).exec (init twoCpus (fun _ => .kWQTimeout) fun _ => 0)
      wokenAsleep = some s → (machine Unit twoCpus).Reach SwitchedOut
        (init twoCpus (fun _ => .kWQTimeout) fun _ => 0) s := fun s hs =>
    Machine.reach_of_exec (c := fun s a => decide (SwitchedOut s a))
      (fun _ _ hc => of_decide_eq_true hc) rfl hs
  have hfree := thread_lock_handover (fun _ => .kWQTimeout) (fun _ => 0) (hreach _ rfl)
  exact ⟨_, _, rfl, rfl, And.intro rfl rfl,
    hfree.returned (.next 0) _ 2 rfl (And.intro rfl rfl)⟩

/-- The same threads, with the wake-up before `sched_reschedule`; thread 2 is then picked from its
run queue and returns. -/
def wokenAwake : List (Action (Fin 2) (Fin 4) Unit) :=
  [.threadResume 0 2, .next 0, .next 0, .threadResume 1 3, .next 1, .next 1, .waitqAwait 0 (),
    .waitqWakeOne 1 (), .next 1, .next 0]

/-- **A lock that nobody releases.** Thread 2 is `kThreadRunnable` when it enters
`sched_reschedule`, so it keeps its lock, returns with it, and spins on it in its next wait. -/
theorem thread_lock_kept :
    ¬ ∀ s, (machine Unit twoCpus).Reachable (init twoCpus (fun _ => .kWQTimeout) fun _ => 0) s →
      LocksFree twoCpus s := by
  intro h
  have hfree := h _ (Machine.reachable_of_exec (l := wokenAwake) rfl)
  have hlocked := hfree.returned (.next 0) _ 2 rfl (And.intro rfl rfl)
  exact Bool.noConfusion hlocked

end Scalux.Sched
