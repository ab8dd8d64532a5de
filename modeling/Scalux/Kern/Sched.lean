import Scalux.Lib.Run
import Scalux.Kern.Semaphore

/-! # The scheduler

`thread_resume`, `sched_reschedule` with `sched_next`, `waitq_await`, `waitq_wake_one` and the
semaphore functions (`kern/task.c`) on any number of CPUs, with the part of `handle_int`
(`x86_64/intr.c`) that preempts.  A step is a critical section under `wq->lock` or `sched_lock`
together with the CPU-local code around it; interrupts are off from the first lock of a function to
its end, so a CPU that is inside one takes no interrupt.

A CPU runs in the context of its current thread or of an interrupt; each context has a program
counter, and a thread that is switched out keeps its own.  The timeslicing callout, which
`sched_reschedule` re-arms, appears as `schedTimeslice`, at any time an interrupt is handled. -/

namespace Scalux.Sched

/-- `enum thread_state`. -/
inductive ThreadState
  | kThreadRunnable
  | kThreadRunning
  | kThreadWaiting
  | kThreadExiting
  deriving DecidableEq, Repr

/-- What code runs: a thread, or the interrupt handler of a CPU. -/
inductive Ctx (C T : Type*)
  | thread (t : T)
  | intr (c : C)
  deriving DecidableEq, Repr

/-- Where a context is: the step it takes next. -/
inductive Pc (T W : Type*)
  /-- Outside the functions of this file. -/
  | run
  /-- `semaphore_signal` raised `count` to at most zero; next, `waitq_wake_one`. -/
  | wake (w : W)
  /-- Has `t` in its hands, new or taken off a wait queue; next, `thread_resume`'s section. -/
  | resume (t : T)
  /-- `thread_resume` has put `t` on its run queue; next, the test of `thread->cpu`. -/
  | resumed (t : T)
  /-- `waitq_await_locked` has released `wq->lock`; next, `sched_reschedule`. -/
  | block
  /-- `sched_reschedule` has switched away from `waitq_await_locked`; next, its return. -/
  | blocked
  deriving DecidableEq, Repr

/-- The CPUs' idle threads and the CPU each thread is assigned to; both are fixed. -/
structure Config (C T : Type*) where
  /-- `thread->cpu`. -/
  cpuOf : T → C
  /-- `cpu->idlethread`. -/
  idle : C → T
  /-- Each CPU has an idle thread of its own. -/
  idle_inj : ∀ c c', idle c = idle c' → c = c'
  /-- Whether a thread is an idle thread. -/
  isIdle : T → Bool
  isIdle_iff : ∀ t, isIdle t = true ↔ ∃ c, t = idle c

/-- The CPUs, the threads and the wait queues. -/
structure State (C T W : Type*) where
  /-- `cpu->curthread`. -/
  cur : C → T
  /-- `cpu->runqueue`, head first. -/
  runqueue : C → List T
  /-- `cpu->preempted`. -/
  preempted : C → Bool
  /-- `cpu->inInterrupt`. -/
  inInterrupt : C → Bool
  /-- `thread->state`. -/
  state : T → ThreadState
  /-- Whether `thread->lock` is held. -/
  locked : T → Bool
  /-- `thread->wq`. -/
  wq : T → Option W
  /-- `thread->wqres`. -/
  wqres : T → WaitqResult
  /-- `wq->waiters`, head first. -/
  waiters : W → List T
  /-- `sem->count` of the semaphore whose wait queue this is. -/
  count : W → ℤ
  /-- What each context does next. -/
  pc : Ctx C T → Pc T W
  /-- History: the thread has been given to `thread_resume`, or is an idle thread. -/
  started : T → Bool

/-- What happens next on a CPU. -/
inductive Action (C T W : Type*)
  /-- `thread_resume` of a thread that `thread_new` has made. -/
  | threadResume (c : C) (t : T)
  | waitqAwait (c : C) (w : W)
  | semaphoreWait (c : C) (w : W)
  | waitqWakeOne (c : C) (w : W)
  | semaphoreSignal (c : C) (w : W)
  /-- A yield: the current thread calls `sched_reschedule`. -/
  | schedReschedule (c : C)
  /-- The current thread sets `kThreadExiting` and calls `sched_reschedule`. -/
  | exit (c : C)
  /-- `handle_int` enters the handler of an external interrupt. -/
  | interrupt (c : C)
  /-- `sched_timeslice`, as the timeslicing callout or as the handler of a reschedule IPI. -/
  | schedTimeslice (c : C)
  /-- The handler returns to `handle_int`, which preempts if asked to. -/
  | interruptReturn (c : C)
  /-- `handle_int` after an exception, which preempts if asked to. -/
  | exceptionReturn (c : C)
  /-- The CPU goes on in the function it is in. -/
  | next (c : C)

variable {C T W : Type*} [DecidableEq C] [DecidableEq T] [DecidableEq W]

/-- The context a CPU runs in. -/
def ctx (s : State C T W) (c : C) : Ctx C T := if s.inInterrupt c then .intr c else .thread (s.cur c)

/-- Every CPU runs its idle thread and no other thread has been started. -/
def init (cfg : Config C T) (wqres : T → WaitqResult) (count : W → ℤ) : State C T W where
  cur := cfg.idle
  runqueue := fun _ => []
  preempted := fun _ => false
  inInterrupt := fun _ => false
  state := fun t => if cfg.isIdle t then .kThreadRunning else .kThreadRunnable
  locked := fun _ => false
  wq := fun _ => none
  wqres := wqres
  waiters := fun _ => []
  count := count
  pc := fun _ => .run
  started := cfg.isIdle

/-- `sched_next` and the switch to the thread it picks. -/
def schedNext (cfg : Config C T) (s : State C T W) (c : C) : State C T W :=
  match s.runqueue c with
  -- nothing to run but the idle thread
  | [] =>
      { s with
        cur := Function.update s.cur c (cfg.idle c)
        state := Function.update s.state (cfg.idle c) .kThreadRunning }
  | t :: rest =>
      { s with
        cur := Function.update s.cur c t
        runqueue := Function.update s.runqueue c rest
        state := Function.update s.state t .kThreadRunning }

/-- `sched_reschedule`; `none` when its assertion about the idle thread fails. -/
def schedReschedule (cfg : Config C T) (s : State C T W) (c : C) : Option (State C T W) :=
  if s.cur c = cfg.idle c then
    if s.state (s.cur c) = .kThreadRunning then some (schedNext cfg s c) else none
  else
    match s.state (s.cur c) with
    -- the lock of a thread that goes to sleep is released here
    | .kThreadWaiting =>
        some (schedNext cfg { s with locked := Function.update s.locked (s.cur c) false } c)
    | .kThreadExiting => some (schedNext cfg s c)
    | .kThreadRunning =>
        some (schedNext cfg { s with
          runqueue := Function.update s.runqueue c (s.runqueue c ++ [s.cur c]) } c)
    | .kThreadRunnable => some (schedNext cfg s c)

/-- `waitq_await_locked` up to the unlock of `wq->lock`; it spins while `thread->lock` is held. -/
def awaitLocked (s : State C T W) (t : T) (w : W) : Option (State C T W) :=
  if s.locked t then none
  else some { s with
    locked := Function.update s.locked t true
    waiters := Function.update s.waiters w (s.waiters w ++ [t])
    state := Function.update s.state t .kThreadWaiting
    wq := Function.update s.wq t (some w)
    pc := Function.update s.pc (.thread t) .block }

/-- `semaphore_wait` up to the unlock of `wq->lock`. -/
def semaphoreWait (s : State C T W) (t : T) (w : W) : Option (State C T W) :=
  let count := Semaphore.wrap32 (s.count w - 1)
  let s := { s with count := Function.update s.count w count }
  if count < 0 then awaitLocked s t w else some s

/-- `waitq_wake_one` under `wq->lock`: the removal of the first waiter. -/
def waitqWakeOne (s : State C T W) (x : Ctx C T) (w : W) : State C T W :=
  match s.waiters w with
  | [] => { s with pc := Function.update s.pc x .run }
  | t :: rest =>
      { s with
        waiters := Function.update s.waiters w rest
        wqres := Function.update s.wqres t .kWQSuccess
        pc := Function.update s.pc x (.resume t) }

/-- `semaphore_signal`'s increment and test. -/
def semaphoreSignal (s : State C T W) (x : Ctx C T) (w : W) : State C T W :=
  let count := Semaphore.wrap32 (s.count w + 1)
  { s with
    count := Function.update s.count w count
    pc := Function.update s.pc x (if count ≤ 0 then .wake w else .run) }

/-- `thread_resume` under `sched_lock`. -/
def threadResume (cfg : Config C T) (s : State C T W) (x : Ctx C T) (t : T) : State C T W :=
  { s with
    state := Function.update s.state t .kThreadRunnable
    runqueue := Function.update s.runqueue (cfg.cpuOf t) (t :: s.runqueue (cfg.cpuOf t))
    pc := Function.update s.pc x (.resumed t) }

/-- The end of `thread_resume`: on the thread's own CPU, reschedule now or after the interrupt; on
another, send a reschedule IPI. -/
def threadResumed (cfg : Config C T) (s : State C T W) (c : C) (t : T) : Option (State C T W) :=
  let s := { s with pc := Function.update s.pc (ctx s c) .run }
  if cfg.cpuOf t = c then
    if s.inInterrupt c then some { s with preempted := Function.update s.preempted c true }
    else schedReschedule cfg s c
  else some s

/-- The end of `handle_int`. -/
def handleIntTail (cfg : Config C T) (s : State C T W) (c : C) : Option (State C T W) :=
  if s.preempted c = true ∧ s.inInterrupt c = false then
    schedReschedule cfg { s with preempted := Function.update s.preempted c false } c
  else some s

/-- The CPU goes on in the function its context is in. -/
def next (cfg : Config C T) (s : State C T W) (c : C) : Option (State C T W) :=
  match s.pc (ctx s c) with
  | .run => none
  | .wake w => some (waitqWakeOne s (ctx s c) w)
  | .resume t => some (threadResume cfg s (ctx s c) t)
  | .resumed t => threadResumed cfg s c t
  | .block =>
      schedReschedule cfg { s with pc := Function.update s.pc (.thread (s.cur c)) .blocked } c
  | .blocked => some { s with pc := Function.update s.pc (ctx s c) .run }

/-- A thread, not an interrupt handler, is about to call a function that may sleep; the idle thread
"shouldn't do any sleeping proper". -/
def mayWait (cfg : Config C T) (s : State C T W) (c : C) : Prop :=
  s.inInterrupt c = false ∧ s.pc (.thread (s.cur c)) = .run ∧ s.cur c ≠ cfg.idle c

instance (cfg : Config C T) (s : State C T W) (c : C) : Decidable (mayWait cfg s c) :=
  inferInstanceAs (Decidable (_ ∧ _ ∧ _))

/-- Interrupts are on: the thread that runs is outside every critical section. -/
def intrEnabled (s : State C T W) (c : C) : Bool :=
  match s.pc (.thread (s.cur c)) with
  | .run | .wake _ => !s.inInterrupt c
  | .resume _ | .resumed _ | .block | .blocked => false

/-- One step. -/
def step (cfg : Config C T) (s : State C T W) : Action C T W → Option (State C T W)
  | .threadResume c t =>
      if s.pc (ctx s c) = .run ∧ s.started t = false then
        some { s with
          pc := Function.update s.pc (ctx s c) (.resume t)
          started := Function.update s.started t true }
      else none
  | .waitqAwait c w => if mayWait cfg s c then awaitLocked s (s.cur c) w else none
  | .semaphoreWait c w => if mayWait cfg s c then semaphoreWait s (s.cur c) w else none
  | .waitqWakeOne c w =>
      if s.pc (ctx s c) = .run then some (waitqWakeOne s (ctx s c) w) else none
  | .semaphoreSignal c w =>
      if s.pc (ctx s c) = .run then some (semaphoreSignal s (ctx s c) w) else none
  | .schedReschedule c =>
      if s.inInterrupt c = false ∧ s.pc (.thread (s.cur c)) = .run then schedReschedule cfg s c
      else none
  | .exit c =>
      if mayWait cfg s c then
        schedReschedule cfg { s with
          state := Function.update s.state (s.cur c) .kThreadExiting } c
      else none
  | .interrupt c =>
      if intrEnabled s c then some { s with inInterrupt := Function.update s.inInterrupt c true }
      else none
  | .schedTimeslice c =>
      if s.inInterrupt c then some { s with preempted := Function.update s.preempted c true }
      else none
  | .interruptReturn c =>
      if s.inInterrupt c = true ∧ s.pc (.intr c) = .run then
        handleIntTail cfg { s with inInterrupt := Function.update s.inInterrupt c false } c
      else none
  | .exceptionReturn c => if intrEnabled s c then handleIntTail cfg s c else none
  | .next c => next cfg s c

/-- The CPUs and threads of one configuration. -/
def machine (W : Type*) [DecidableEq W] (cfg : Config C T) :
    Machine (State C T W) (Action C T W) where
  step := step cfg

end Scalux.Sched
