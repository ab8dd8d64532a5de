import Scalux.Lib.Run
import Scalux.Kern.Config

/-! # The kernel mutex

`mutex_lock`, `mutex_unlock` and the parts of `waitq_await` and `waitq_wake_one` they run
(`kern/task.c`), as a machine in which any number of threads use one mutex.  A program counter per
thread says which atomic operation the thread performs next, and a step is one such operation:

* `mutex_lock`: `atomic_fetch_add` on `count`; if it returned `≥ 1`, the insertion into
  `wq.waiters` under `wq.lock` and the sleep; then the compare-exchange on `owner`;
* `mutex_unlock`: the compare-exchange on `owner`; `atomic_fetch_sub` on `count`; if it returned
  `> 1`, the removal from `wq.waiters` under `wq.lock` and then `thread_resume`.

`count` is an `atomic_uint`, so its arithmetic is modulo `2 ^ 32`; a failed assertion or the `fatal`
after an unsuccessful wait leaves the thread in `failed`, where it stays. -/

namespace Scalux

namespace Mutex

variable {T : Type*}

/-- Where a thread is in `mutex_lock` or `mutex_unlock`: the atomic operation it performs next. -/
inductive Pc (T : Type*)
  /-- Outside both functions; the next step is `mutex_lock`'s `atomic_fetch_add`. -/
  | idle
  /-- `count` was at least one; next, the insertion into the wait queue. -/
  | awaiting
  /-- On the wait queue, not running. -/
  | asleep
  /-- Taken off the wait queue by a waker that has not yet resumed it. -/
  | handed
  /-- Resumed; `waitq_await` returns next. -/
  | woken
  /-- About to set `owner`. -/
  | acquiring
  /-- `mutex_lock` has returned and `mutex_unlock` has not begun. -/
  | held
  /-- `owner` is cleared; next, `atomic_fetch_sub`. -/
  | releasing
  /-- `count` was above one; next, the removal in `waitq_wake_one`. -/
  | waking
  /-- Holds the thread `w` it took off the wait queue; next, `thread_resume`. -/
  | resuming (w : T)
  /-- Stopped in a failed assertion or in `fatal`. -/
  | failed
  deriving DecidableEq, Repr

/-- `mutex_t` and the threads that use it. -/
structure State (T : Type*) where
  /-- `mtx->owner`. -/
  owner : Option T
  /-- `mtx->count`, an `atomic_uint`. -/
  count : ℕ
  /-- `mtx->wq.waiters`, head first. -/
  waiters : List T
  /-- `thread->wqres`. -/
  wqres : T → WaitqResult
  /-- What each thread does next. -/
  pc : T → Pc T

/-- `MUTEX_INITIALISER`, with no thread inside; a thread's `wqres` starts with any value. -/
def init (wqres : T → WaitqResult) : State T where
  owner := none
  count := 0
  waiters := []
  wqres := wqres
  pc := fun _ => .idle

variable [DecidableEq T]

/-- `mutex_lock`'s `atomic_fetch_add(&mtx->count, 1) >= 1`. -/
def lockCount (s : State T) (t : T) : State T :=
  { s with
    count := (s.count + 1) % 2 ^ 32
    pc := Function.update s.pc t (if 1 ≤ s.count then .awaiting else .acquiring) }

/-- `waitq_await`: the insertion under `wq->lock`, after which the thread sleeps. -/
def await (s : State T) (t : T) : State T :=
  { s with
    waiters := s.waiters ++ [t]
    pc := Function.update s.pc t .asleep }

/-- The `switch` on what `waitq_await` returned. -/
def awaitReturn (s : State T) (t : T) : State T :=
  { s with pc := Function.update s.pc t (if s.wqres t = .kWQSuccess then .acquiring else .failed) }

/-- `mutex_lock`'s `atomic_compare_exchange_strong(&mtx->owner, &nul, curthread())`. -/
def lockOwner (s : State T) (t : T) : State T :=
  if s.owner = none then { s with owner := some t, pc := Function.update s.pc t .held }
  else { s with pc := Function.update s.pc t .failed }

/-- `mutex_unlock`'s `atomic_compare_exchange_strong(&mtx->owner, &expected, NULL)`. -/
def unlockOwner (s : State T) (t : T) : State T :=
  if s.owner = some t then { s with owner := none, pc := Function.update s.pc t .releasing }
  else { s with pc := Function.update s.pc t .failed }

/-- `mutex_unlock`'s `atomic_fetch_sub(&mtx->count, 1) > 1`. -/
def unlockCount (s : State T) (t : T) : State T :=
  { s with
    count := (s.count + (2 ^ 32 - 1)) % 2 ^ 32
    pc := Function.update s.pc t (if 1 < s.count then .waking else .idle) }

/-- `waitq_wake_one`: the removal under `wq->lock`; with no waiter it only prints a warning. -/
def wakeRemove (s : State T) (t : T) : State T :=
  match s.waiters with
  | [] => { s with pc := Function.update s.pc t .idle }
  | w :: rest =>
      { s with
        waiters := rest
        pc := Function.update (Function.update s.pc w .handed) t (.resuming w) }

/-- `waitq_wake_one`: `thrd->wqres = kWQSuccess; thread_resume(thrd)`. -/
def wakeResume (s : State T) (t w : T) : State T :=
  { s with
    wqres := Function.update s.wqres w .kWQSuccess
    pc := Function.update (Function.update s.pc w .woken) t .idle }

/-- The next atomic operation of thread `t`; a sleeping or stopped thread has none. -/
def step (s : State T) (t : T) : Option (State T) :=
  match s.pc t with
  | .idle => some (lockCount s t)
  | .awaiting => some (await s t)
  | .asleep => none
  | .handed => none
  | .woken => some (awaitReturn s t)
  | .acquiring => some (lockOwner s t)
  | .held => some (unlockOwner s t)
  | .releasing => some (unlockCount s t)
  | .waking => some (wakeRemove s t)
  | .resuming w => some (wakeResume s t w)
  | .failed => none

/-- Threads locking and unlocking one mutex; an action is the thread that moves. -/
def machine (T : Type*) [DecidableEq T] : Machine (State T) T where
  step := step

end Mutex

end Scalux
