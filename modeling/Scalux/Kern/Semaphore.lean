import Scalux.Lib.Run
import Scalux.Kern.Config
import Mathlib.Data.Int.Basic

/-! # The kernel semaphore

`semaphore_wait` and `semaphore_signal` with the parts of `waitq_await_locked` and `waitq_wake_one`
they run (`kern/task.c`), as a machine in which any number of threads use one semaphore.

`semaphore_wait` decrements `count` and inserts itself while it holds `wq.lock`;
`semaphore_signal` increments `count` outside that lock and takes the lock only to remove a waiter.
Taking the lock, the decrement, the insertion with the unlock, the increment, the removal, the
unlock and the resumption are separate steps.  `count` is an `atomic_int`, so it wraps into
`[-2 ^ 31, 2 ^ 31)`.

Three fields are history, which the code neither has nor reads: the waits that have returned, the
signals begun, and the waiters the last signal of each thread has taken off the queue. -/

namespace Scalux.Semaphore

variable {T : Type*}

/-- A 32-bit two's complement integer. -/
def wrap32 (x : ℤ) : ℤ := Int.bmod x (2 ^ 32)

/-- Where a thread is in `semaphore_wait` or `semaphore_signal`: the step it takes next. -/
inductive Pc (T : Type*)
  /-- Outside both functions. -/
  | idle
  /-- `semaphore_wait`: holds `wq.lock`; next, `--sem->count`. -/
  | waitLocked
  /-- `count` went negative; next, the insertion and the unlock in `waitq_await_locked`. -/
  | waitBlock
  /-- `count` did not go negative; next, the unlock, after which the wait is over. -/
  | waitPass
  /-- On the wait queue, not running. -/
  | asleep
  /-- Taken off the wait queue by a waker that has not yet resumed it. -/
  | handed
  /-- Resumed; next, `waitq_await_locked` returns and its result is checked. -/
  | woken
  /-- `semaphore_signal` made `count` at most zero; next, `wq->lock`. -/
  | signalWake
  /-- `waitq_wake_one` holds `wq->lock`; next, the removal of the first waiter. -/
  | wakeLocked
  /-- `waitq_wake_one` has removed `w` (or found nobody); next, the unlock. -/
  | wakeUnlock (w : Option T)
  /-- Holds the thread `w` it took off the wait queue; next, `thread_resume`. -/
  | resuming (w : T)
  /-- Stopped in the failed assertion of `semaphore_wait`. -/
  | failed
  deriving DecidableEq, Repr

/-- `semaphore_t`, the threads that use it, and the history counts. -/
structure State (T : Type*) where
  /-- `sem->count`, an `atomic_int`. -/
  count : ℤ
  /-- Holder of `sem->wq.lock`. -/
  lock : Option T
  /-- `sem->wq.waiters`, head first. -/
  waiters : List T
  /-- `thread->wqres`. -/
  wqres : T → WaitqResult
  /-- What each thread does next. -/
  pc : T → Pc T
  /-- History: waits that have returned. -/
  completed : ℕ
  /-- History: signals begun. -/
  begun : ℕ
  /-- History: waiters taken off the queue by the last signal of each thread. -/
  released : T → ℕ

/-- A semaphore with the given count and no thread inside; `wqres` starts with any value. -/
def init (count : ℤ) (wqres : T → WaitqResult) : State T where
  count := count
  lock := none
  waiters := []
  wqres := wqres
  pc := fun _ => .idle
  completed := 0
  begun := 0
  released := fun _ => 0

/-- What happens next: a thread calls one of the functions, or goes on in the one it is in. -/
inductive Action (T : Type*)
  | wait (t : T)
  | signal (t : T)
  | next (t : T)

variable [DecidableEq T]

/-- Taking `wq.lock`, which spins while another thread holds it. -/
def lockQueue (s : State T) (t : T) (p : Pc T) : Option (State T) :=
  if s.lock = none then some { s with lock := some t, pc := Function.update s.pc t p } else none

/-- `semaphore_signal`'s `++sem->count <= 0`. -/
def signalCount (s : State T) (t : T) : State T :=
  { s with
    count := wrap32 (s.count + 1)
    pc := Function.update s.pc t (if wrap32 (s.count + 1) ≤ 0 then .signalWake else .idle)
    begun := s.begun + 1
    released := Function.update s.released t 0 }

/-- `semaphore_wait`'s `--sem->count < 0`. -/
def waitCount (s : State T) (t : T) : State T :=
  { s with
    count := wrap32 (s.count - 1)
    pc := Function.update s.pc t (if wrap32 (s.count - 1) < 0 then .waitBlock else .waitPass) }

/-- `waitq_await_locked`: the insertion and the unlock of `wq->lock`, after which it sleeps. -/
def awaitLocked (s : State T) (t : T) : State T :=
  { s with
    lock := none
    waiters := s.waiters ++ [t]
    pc := Function.update s.pc t .asleep }

/-- The branch of `semaphore_wait` that need not sleep: unlock and return. -/
def waitDone (s : State T) (t : T) : State T :=
  { s with
    lock := none
    pc := Function.update s.pc t .idle
    completed := s.completed + 1 }

/-- `waitq_await_locked` returns to `semaphore_wait`, which asserts success and returns. -/
def awaitReturn (s : State T) (t : T) : State T :=
  if s.wqres t = .kWQSuccess then
    { s with pc := Function.update s.pc t .idle, completed := s.completed + 1 }
  else { s with pc := Function.update s.pc t .failed }

/-- `waitq_wake_one`: the removal of the first waiter. -/
def wakeRemove (s : State T) (t : T) : State T :=
  match s.waiters with
  | [] => { s with pc := Function.update s.pc t (.wakeUnlock none) }
  | w :: rest =>
      { s with
        waiters := rest
        pc := Function.update (Function.update s.pc w .handed) t (.wakeUnlock (some w))
        released := Function.update s.released t (s.released t + 1) }

/-- `waitq_wake_one`: the unlock; with nobody removed it only prints a warning and returns. -/
def wakeUnlocked (s : State T) (t : T) (w : Option T) : State T :=
  { s with
    lock := none
    pc := Function.update s.pc t (w.elim .idle .resuming) }

/-- `waitq_wake_one`: `thrd->wqres = kWQSuccess; thread_resume(thrd)`. -/
def wakeResume (s : State T) (t w : T) : State T :=
  { s with
    wqres := Function.update s.wqres w .kWQSuccess
    pc := Function.update (Function.update s.pc w .woken) t .idle }

/-- The next step of thread `t` inside the function it is in. -/
def next (s : State T) (t : T) : Option (State T) :=
  match s.pc t with
  | .idle => none
  | .waitLocked => some (waitCount s t)
  | .waitBlock => some (awaitLocked s t)
  | .waitPass => some (waitDone s t)
  | .asleep => none
  | .handed => none
  | .woken => some (awaitReturn s t)
  | .signalWake => lockQueue s t .wakeLocked
  | .wakeLocked => some (wakeRemove s t)
  | .wakeUnlock w => some (wakeUnlocked s t w)
  | .resuming w => some (wakeResume s t w)
  | .failed => none

/-- One step; a thread begins a call only when it is outside both functions. -/
def step (s : State T) : Action T → Option (State T)
  | .wait t => if s.pc t = .idle then lockQueue s t .waitLocked else none
  | .signal t => if s.pc t = .idle then some (signalCount s t) else none
  | .next t => next s t

/-- Threads waiting on and signalling one semaphore. -/
def machine (T : Type*) [DecidableEq T] : Machine (State T) (Action T) where
  step := step

end Scalux.Semaphore
