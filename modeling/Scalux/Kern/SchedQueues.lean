import Scalux.Kern.Sched
import Mathlib.Data.List.Nodup

/-! # No thread is lost or queued twice

The abstract scheduler is a **placement**: a function that says where each thread is, on its CPU,
on its run queue, on one wait queue, in the hands of one waker, not started or gone.  `Placed`
says that a state of the kernel represents a placement; since a placement is a function, a thread
that the state represents is in one place only.

The race the placement has to survive: `waitq_await_locked` releases `wq->lock` before
`sched_reschedule` runs, so another CPU can take the thread off the wait queue and put it on its
run queue while it still executes.  In that window the thread's state says which of the places it
is in (`Placed.blocking`), and so which branch `sched_reschedule` takes.

* **`placed_step`**: every step moves at most the threads it names.
* **`sched_queues`**: no thread is on two queues or twice on one, and none is lost. -/

namespace Scalux.Sched

variable {C T W : Type*}

/-- Where a thread is. -/
inductive Place (C T W : Type*)
  /-- Not yet given to `thread_resume`. -/
  | fresh
  /-- On no queue: running on its CPU, or an idle thread. -/
  | here
  /-- On its CPU's run queue. -/
  | runq
  /-- On the wait queue `w`. -/
  | waitq (w : W)
  /-- In the hands of a context that is about to put it on its run queue. -/
  | hand (x : Ctx C T)
  /-- Exited. -/
  | gone

/-- The state `s` represents the placement `loc`, except that the current thread of the CPU `off`
has been put where it belongs and is about to be replaced. -/
structure PlacedOff (cfg : Config C T) (off : Option C) (loc : T → Place C T W)
    (s : State C T W) : Prop where
  runq_iff : ∀ t c, t ∈ s.runqueue c ↔ loc t = .runq ∧ cfg.cpuOf t = c
  runq_nodup : ∀ c, (s.runqueue c).Nodup
  waitq_iff : ∀ t w, t ∈ s.waiters w ↔ loc t = .waitq w
  waitq_nodup : ∀ w, (s.waiters w).Nodup
  hand_iff : ∀ x t, s.pc x = .resume t ↔ loc t = .hand x
  fresh_iff : ∀ t, loc t = .fresh ↔ s.started t = false
  gone_exiting : ∀ t, loc t = .gone → s.state t = .kThreadExiting
  here_cur : ∀ t, loc t = .here →
    cfg.isIdle t = true ∨ s.cur (cfg.cpuOf t) = t ∧ off ≠ some (cfg.cpuOf t)
  idle_here : ∀ t, cfg.isIdle t = true →
    loc t = .here ∧ s.state t = .kThreadRunning ∧ s.pc (.thread t) ≠ .block
  cur_cpu : ∀ c, s.cur c = cfg.idle c ∨ cfg.isIdle (s.cur c) = false ∧ cfg.cpuOf (s.cur c) = c
  /-- A current thread that is not about to sleep runs, on no queue. -/
  running : ∀ c, off ≠ some c → s.pc (.thread (s.cur c)) ≠ .block →
    s.state (s.cur c) = .kThreadRunning ∧ loc (s.cur c) = .here
  /-- One about to sleep waits on a queue or in a waker's hands, or has been resumed meanwhile. -/
  blocking : ∀ c, off ≠ some c → s.pc (.thread (s.cur c)) = .block →
    (s.state (s.cur c) = .kThreadWaiting ∧
      ((∃ w, loc (s.cur c) = .waitq w) ∨ ∃ x, loc (s.cur c) = .hand x)) ∨
    (s.state (s.cur c) = .kThreadRunnable ∧ loc (s.cur c) = .runq)
  block_cur : ∀ t, s.pc (.thread t) = .block →
    s.cur (cfg.cpuOf t) = t ∧ off ≠ some (cfg.cpuOf t)
  intr_block : ∀ c, s.pc (.intr c) ≠ .block
  /-- Interrupts are off from the insertion to the switch. -/
  intr_off : ∀ c, off ≠ some c → s.inInterrupt c = true → s.pc (.thread (s.cur c)) ≠ .block

/-- The state `s` represents the placement `loc`. -/
abbrev Placed (cfg : Config C T) (loc : T → Place C T W) (s : State C T W) : Prop :=
  PlacedOff cfg none loc s

variable {cfg : Config C T} {loc : T → Place C T W} {s s' : State C T W} {t : T} {c : C} {w : W}
  {x : Ctx C T}

/-- The idle thread of a CPU is an idle thread. -/
theorem Config.isIdle_idle (cfg : Config C T) (c : C) : cfg.isIdle (cfg.idle c) = true :=
  (cfg.isIdle_iff _).mpr ⟨c, rfl⟩

/-- At the start the idle threads are in place and no other thread is started. -/
theorem placed_init (wqres : T → WaitqResult) (count : W → ℤ) :
    Placed cfg (fun t => if cfg.isIdle t then .here else .fresh) (init cfg wqres count) where
  runq_iff := by intro t c; simp only [init]; split <;> simp
  runq_nodup _ := List.nodup_nil
  waitq_iff := by intro t w; simp only [init]; split <;> simp
  waitq_nodup _ := List.nodup_nil
  hand_iff := by intro x t; simp only [init]; split <;> simp
  fresh_iff := by intro t; simp only [init]; split <;> simp_all
  gone_exiting := by intro t; split <;> simp
  here_cur := by intro t; split <;> simp_all
  idle_here := by intro t ht; simp [init, ht]
  cur_cpu _ := .inl rfl
  running := by intro c; simp [init, cfg.isIdle_idle c]
  blocking := by simp [init]
  block_cur := by simp [init]
  intr_block := by simp [init]
  intr_off := by simp [init]

/-! ## Steps that move no thread between places -/

/-- Locks, counts and `preempted` are not part of the placement; `inInterrupt` is set only while
the current thread is not about to sleep. -/
theorem PlacedOff.flags {off : Option C} (h : PlacedOff cfg off loc s)
    (hcur : s'.cur = s.cur) (hrunq : s'.runqueue = s.runqueue) (hstate : s'.state = s.state)
    (hwaiters : s'.waiters = s.waiters) (hstarted : s'.started = s.started) (hpc : s'.pc = s.pc)
    (hintr : ∀ c, s'.inInterrupt c = true →
      s.inInterrupt c = true ∨ s.pc (.thread (s.cur c)) ≠ .block) :
    PlacedOff cfg off loc s' := by
  cases s
  cases s'
  subst hcur hrunq hstate hwaiters hstarted hpc
  exact ⟨h.runq_iff, h.runq_nodup, h.waitq_iff, h.waitq_nodup, h.hand_iff, h.fresh_iff,
    h.gone_exiting, h.here_cur, h.idle_here, h.cur_cpu, h.running, h.blocking, h.block_cur,
    h.intr_block, fun c hoff hc => (hintr c hc).elim (h.intr_off c hoff) id⟩

/-- A thread that is in a queue, in a waker's hands, new or gone is not an idle thread. -/
theorem PlacedOff.not_idle {off : Option C} (h : PlacedOff cfg off loc s) (ht : loc t ≠ .here) :
    cfg.isIdle t = false :=
  Bool.eq_false_iff.mpr fun hi => ht (h.idle_here t hi).1

/-- A thread other than an idle thread is current on its own CPU only. -/
theorem PlacedOff.cur_ne {off : Option C} (h : PlacedOff cfg off loc s)
    (hidle : s.cur c ≠ cfg.idle c) : ∀ d, d ≠ c → s.cur d ≠ s.cur c := by
  intro d hd heq
  obtain ⟨hnotIdle, hcpu⟩ := (h.cur_cpu c).resolve_left hidle
  rcases h.cur_cpu d with hdi | ⟨-, hdc⟩
  · rw [← heq, hdi, cfg.isIdle_idle d] at hnotIdle
    cases hnotIdle
  · exact hd (hdc.symm.trans (heq ▸ hcpu))

/-- With interrupts on, the current thread is not about to sleep. -/
theorem intrEnabled_ne_block (h : intrEnabled s c = true) : s.pc (.thread (s.cur c)) ≠ .block := by
  intro hb
  rw [intrEnabled, hb] at h
  cases h

variable [DecidableEq C] [DecidableEq T]

/-- A step that changes only flags, counts and the program counter of a context that neither has
nor gets a thread in its hands, and neither is nor gets about to sleep. -/
theorem PlacedOff.frame (h : Placed cfg loc s) {p : Pc T W}
    (hcur : s'.cur = s.cur) (hrunq : s'.runqueue = s.runqueue) (hstate : s'.state = s.state)
    (hwaiters : s'.waiters = s.waiters) (hstarted : s'.started = s.started)
    (hintr : s'.inInterrupt = s.inInterrupt) (hpc : s'.pc = Function.update s.pc x p)
    (hfrom : (∀ t, s.pc x ≠ .resume t) ∧ s.pc x ≠ .block)
    (hto : (∀ t, p ≠ .resume t) ∧ p ≠ .block) : Placed cfg loc s' := by
  obtain ⟨hfrom, hfromBlock⟩ := hfrom
  obtain ⟨hto, htoBlock⟩ := hto
  -- the step of `x` neither begins nor ends on its way to sleep
  have hblock : ∀ y, s'.pc y = .block ↔ s.pc y = .block := by
    intro y
    rw [hpc, Function.update_apply]
    split
    · rename_i hy
      rw [hy]
      exact iff_of_false htoBlock hfromBlock
    · rfl
  constructor
  case runq_iff => rw [hrunq]; exact h.runq_iff
  case runq_nodup => rw [hrunq]; exact h.runq_nodup
  case waitq_iff => rw [hwaiters]; exact h.waitq_iff
  case waitq_nodup => rw [hwaiters]; exact h.waitq_nodup
  case hand_iff =>
    intro y t
    rw [← h.hand_iff y t, hpc, Function.update_apply]
    split
    · rename_i hy
      rw [hy]
      exact iff_of_false (hto t) (hfrom t)
    · rfl
  case fresh_iff => rw [hstarted]; exact h.fresh_iff
  case gone_exiting => rw [hstate]; exact h.gone_exiting
  case here_cur => rw [hcur]; exact h.here_cur
  case idle_here =>
    intro t ht
    have hidle := h.idle_here t ht
    rw [hstate]
    exact ⟨hidle.1, hidle.2.1, fun hb => hidle.2.2 ((hblock _).mp hb)⟩
  case cur_cpu => rw [hcur]; exact h.cur_cpu
  case running =>
    intro c hoff hne
    rw [hcur] at hne ⊢
    rw [hstate]
    exact h.running c hoff fun hb => hne ((hblock _).mpr hb)
  case blocking =>
    intro c hoff hb
    rw [hcur] at hb ⊢
    rw [hstate]
    exact h.blocking c hoff ((hblock _).mp hb)
  case block_cur =>
    intro t ht
    rw [hcur]
    exact h.block_cur t ((hblock _).mp ht)
  case intr_block => exact fun c hb => h.intr_block c ((hblock _).mp hb)
  case intr_off =>
    intro c hoff hc hb
    rw [hcur] at hb
    rw [hintr] at hc
    exact h.intr_off c hoff hc ((hblock _).mp hb)

/-! ## Steps that move one thread -/

/-- `thread_resume` is called for a new thread, which is then in the caller's hands. -/
theorem placed_resumeNew (h : Placed cfg loc s) (hpc : s.pc x = .run) (ht : s.started t = false) :
    Placed cfg (Function.update loc t (.hand x))
      { s with pc := Function.update s.pc x (.resume t)
               started := Function.update s.started t true } := by
  have hfresh : loc t = .fresh := (h.fresh_iff t).mpr ht
  -- a thread that is current or an idle thread has been started
  have hidle := h.not_idle (t := t) (by rw [hfresh]; exact nofun)
  have hcur : ∀ c, s.cur c ≠ t := by
    intro c hc
    by_cases hb : s.pc (.thread (s.cur c)) = .block
    · have := h.blocking c (by simp) hb
      grind
    · have := h.running c (by simp) hb
      grind
  constructor
  case runq_iff => intro u c; have := h.runq_iff u c; grind
  case runq_nodup => exact h.runq_nodup
  case waitq_iff => intro u w; have := h.waitq_iff u w; grind
  case waitq_nodup => exact h.waitq_nodup
  case hand_iff => intro y u; have := h.hand_iff y u; grind
  case fresh_iff => intro u; have := h.fresh_iff u; grind
  case gone_exiting => intro u; have := h.gone_exiting u; grind
  case here_cur => intro u; have := h.here_cur u; grind
  case idle_here => intro u; have := h.idle_here u; grind
  case cur_cpu => exact h.cur_cpu
  case running => intro c; have := h.running c; have := hcur c; grind
  case blocking => intro c; have := h.blocking c; have := hcur c; grind
  case block_cur => intro u; have := h.block_cur u; grind
  case intr_block => intro c; have := h.intr_block c; grind
  case intr_off => intro c; have := h.intr_off c; grind

/-- `waitq_wake_one` takes the first waiter into the caller's hands. -/
theorem placed_waitqWakeOne [DecidableEq W] (h : Placed cfg loc s)
    (hpc : (∀ t, s.pc x ≠ .resume t) ∧ s.pc x ≠ .block) :
    ∃ loc', Placed cfg loc' (waitqWakeOne s x w) := by
  unfold waitqWakeOne
  -- an empty queue changes nothing, else its head goes into the hand of the waker
  cases hw : s.waiters w with
  | nil => exact ⟨loc, h.frame rfl rfl rfl rfl rfl rfl rfl hpc (by simp)⟩
  | cons t rest =>
      have ht : loc t = .waitq w := (h.waitq_iff t w).mp (by simp [hw])
      have hnd := hw ▸ h.waitq_nodup w
      have hidle := h.not_idle (t := t) (by rw [ht]; exact nofun)
      refine ⟨Function.update loc t (.hand x), ?_⟩
      constructor
      case runq_iff => intro u c; have := h.runq_iff u c; grind
      case runq_nodup => exact h.runq_nodup
      case waitq_iff => intro u v; have := h.waitq_iff u v; grind
      case waitq_nodup => intro v; have := h.waitq_nodup v; grind
      case hand_iff => intro y u; have := h.hand_iff y u; grind
      case fresh_iff => intro u; have := h.fresh_iff u; grind
      case gone_exiting => intro u; have := h.gone_exiting u; grind
      case here_cur => intro u; have := h.here_cur u; grind
      case idle_here => intro u; have := h.idle_here u; grind
      case cur_cpu => exact h.cur_cpu
      case running => intro c; have := h.running c; grind
      case blocking => intro c; have := h.blocking c; grind
      case block_cur => intro u; have := h.block_cur u; grind
      case intr_block => intro c; have := h.intr_block c; grind
      case intr_off => intro c; have := h.intr_off c; grind

/-- `thread_resume` puts the thread from the caller's hands on its run queue. -/
theorem placed_threadResume (h : Placed cfg loc s) (hpc : s.pc x = .resume t) :
    Placed cfg (Function.update loc t .runq) (threadResume cfg s x t) := by
  have ht : loc t = .hand x := (h.hand_iff x t).mp hpc
  have hidle := h.not_idle (t := t) (by rw [ht]; exact nofun)
  -- the thread goes from the hand of `x` to the run queue of its own CPU
  unfold threadResume
  constructor
  case runq_iff => intro u c; have := h.runq_iff u c; grind
  case runq_nodup =>
    intro c
    have := h.runq_nodup c
    have := h.runq_iff t c
    grind
  case waitq_iff => intro u v; have := h.waitq_iff u v; grind
  case waitq_nodup => exact h.waitq_nodup
  case hand_iff => intro y u; have := h.hand_iff y u; grind
  case fresh_iff => intro u; have := h.fresh_iff u; grind
  case gone_exiting => intro u; have := h.gone_exiting u; grind
  case here_cur => intro u; have := h.here_cur u; grind
  case idle_here => intro u; have := h.idle_here u; grind
  case cur_cpu => exact h.cur_cpu
  case running => intro c; have := h.running c; grind
  case blocking => intro c; have := h.blocking c; grind
  case block_cur => intro u; have := h.block_cur u; grind
  case intr_block => intro c; have := h.intr_block c; grind
  case intr_off => intro c; have := h.intr_off c; grind

/-- `waitq_await_locked` puts the current thread on the wait queue. -/
theorem placed_awaitLocked [DecidableEq W] (h : Placed cfg loc s) (hmay : mayWait cfg s c)
    (hs : awaitLocked s (s.cur c) w = some s') : ∃ loc', Placed cfg loc' s' := by
  obtain ⟨hin, hpc, hnotIdle⟩ := hmay
  have hrun := h.running c (by simp) (by simp [hpc])
  have hcpu := (h.cur_cpu c).resolve_left hnotIdle
  have hother := h.cur_ne hnotIdle
  unfold awaitLocked at hs
  split at hs
  · cases hs
  · cases hs
    -- the thread is on the wait queue from here, and stays current until it has switched
    refine ⟨Function.update loc (s.cur c) (.waitq w), ?_⟩
    constructor
    case runq_iff => intro u d; have := h.runq_iff u d; grind
    case runq_nodup => exact h.runq_nodup
    case waitq_iff => intro u v; have := h.waitq_iff u v; grind
    case waitq_nodup =>
      intro v
      have := h.waitq_nodup v
      have := h.waitq_iff (s.cur c) v
      grind
    case hand_iff => intro y u; have := h.hand_iff y u; grind
    case fresh_iff => intro u; have := h.fresh_iff u; grind
    case gone_exiting => intro u; have := h.gone_exiting u; grind
    case here_cur => intro u; have := h.here_cur u; grind
    case idle_here => intro u; have := h.idle_here u; grind
    case cur_cpu => exact h.cur_cpu
    case running => intro d; have := h.running d; grind
    case blocking => intro d; have := h.blocking d; grind
    case block_cur => intro u; have := h.block_cur u; grind
    case intr_block => intro d; have := h.intr_block d; grind
    case intr_off => intro d; have := h.intr_off d; have := hother d; grind

/-! ## The switch -/

/-- `sched_next` replaces the current thread, which has been put where it belongs, by the first
thread of the run queue, or by the idle thread. -/
theorem placed_schedNext (loc : T → Place C T W) (h : PlacedOff cfg (some c) loc s) :
    ∃ loc', Placed cfg loc' (schedNext cfg s c) := by
  have hidle := h.idle_here (cfg.idle c) (cfg.isIdle_idle c)
  unfold schedNext
  cases hq : s.runqueue c with
  | nil =>
      refine ⟨loc, ?_⟩
      constructor
      case runq_iff => exact h.runq_iff
      case runq_nodup => exact h.runq_nodup
      case waitq_iff => exact h.waitq_iff
      case waitq_nodup => exact h.waitq_nodup
      case hand_iff => exact h.hand_iff
      case fresh_iff => exact h.fresh_iff
      case gone_exiting => intro u; have := h.gone_exiting u; grind
      case here_cur => intro u; have := h.here_cur u; grind
      case idle_here => intro u; have := h.idle_here u; grind
      case cur_cpu => intro d; have := h.cur_cpu d; grind
      case running => intro d; have := h.running d; grind
      case blocking =>
        intro d _ hb
        dsimp only at hb ⊢
        by_cases hd : d = c
        · rw [hd, Function.update_self] at hb
          exact absurd hb hidle.2.2
        · rw [Function.update_of_ne hd] at hb ⊢
          have := h.blocking d (by simpa using Ne.symm hd) hb
          grind
      case block_cur => intro u; have := h.block_cur u; grind
      case intr_block => exact h.intr_block
      case intr_off => intro d; have := h.intr_off d; grind
  | cons t rest =>
      obtain ⟨ht, hcpu⟩ := (h.runq_iff t c).mp (by simp [hq])
      have hnd := hq ▸ h.runq_nodup c
      have hnotIdle := h.not_idle (t := t) (by rw [ht]; exact nofun)
      -- `t` was current only on this CPU, and is not about to sleep
      have hother : ∀ d, d ≠ c → s.cur d ≠ t := by
        intro d hd hdt
        rcases h.cur_cpu d with hdi | ⟨-, hdc⟩
        · have := cfg.isIdle_idle d
          grind
        · grind
      have hblock := h.block_cur t
      refine ⟨Function.update loc t .here, ?_⟩
      constructor
      case runq_iff => intro u d; have := h.runq_iff u d; grind
      case runq_nodup => intro d; have := h.runq_nodup d; grind
      case waitq_iff => intro u v; have := h.waitq_iff u v; grind
      case waitq_nodup => exact h.waitq_nodup
      case hand_iff => intro y u; have := h.hand_iff y u; grind
      case fresh_iff => intro u; have := h.fresh_iff u; grind
      case gone_exiting => intro u; have := h.gone_exiting u; grind
      case here_cur => intro u; have := h.here_cur u; grind
      case idle_here => intro u; have := h.idle_here u; grind
      case cur_cpu => intro d; have := h.cur_cpu d; grind
      case running => intro d; have := h.running d; have := hother d; grind
      case blocking =>
        intro d _ hb
        dsimp only at hb ⊢
        by_cases hd : d = c
        · rw [hd, Function.update_self] at hb
          exact absurd (congrArg some hcpu.symm) (hblock hb).2
        · rw [Function.update_of_ne hd] at hb ⊢
          rw [Function.update_of_ne (hother d hd), Function.update_of_ne (hother d hd)]
          exact h.blocking d (by simpa using Ne.symm hd) hb
      case block_cur => intro u; have := h.block_cur u; grind
      case intr_block => exact h.intr_block
      case intr_off => intro d; have := h.intr_off d; grind

/-- A thread that is not about to sleep yields or is preempted: it goes to the end of its run
queue, unless it is the idle thread. -/
theorem placed_yield (h : Placed cfg loc s) (hpc : s.pc (.thread (s.cur c)) ≠ .block)
    (hs : schedReschedule cfg s c = some s') : ∃ loc', Placed cfg loc' s' := by
  obtain ⟨hrunning, hhere⟩ := h.running c (by simp) hpc
  unfold schedReschedule at hs
  -- the idle thread is never queued; any other goes to the end of the run queue of its CPU
  by_cases hidle : s.cur c = cfg.idle c
  · rw [if_pos hidle, if_pos hrunning] at hs
    cases hs
    have hi := cfg.isIdle_idle c
    refine placed_schedNext loc ?_
    exact { h with
      here_cur := by intro u; have := h.here_cur u; grind
      running := by intro d; have := h.running d; grind
      blocking := by intro d; have := h.blocking d; grind
      block_cur := by intro u; have := h.block_cur u; grind
      intr_off := by intro d; have := h.intr_off d; grind }
  · rw [if_neg hidle, hrunning] at hs
    cases hs
    obtain ⟨hnotIdle, hcpu⟩ := (h.cur_cpu c).resolve_left hidle
    refine placed_schedNext (Function.update loc (s.cur c) .runq) ?_
    constructor
    case runq_iff => intro u d; have := h.runq_iff u d; grind
    case runq_nodup =>
      intro d
      have := h.runq_nodup d
      have := h.runq_iff (s.cur c) d
      grind
    case waitq_iff => intro u v; have := h.waitq_iff u v; grind
    case waitq_nodup => exact h.waitq_nodup
    case hand_iff => intro y u; have := h.hand_iff y u; grind
    case fresh_iff => intro u; have := h.fresh_iff u; grind
    case gone_exiting => intro u; have := h.gone_exiting u; grind
    case here_cur => intro u; have := h.here_cur u; grind
    case idle_here => intro u; have := h.idle_here u; grind
    case cur_cpu => exact h.cur_cpu
    case running =>
      intro d
      have := h.running d
      have := h.cur_cpu d
      have := cfg.isIdle_idle d
      grind
    case blocking => intro d; have := h.blocking d; grind
    case block_cur => intro u; have := h.block_cur u; grind
    case intr_block => exact h.intr_block
    case intr_off => intro d; have := h.intr_off d; grind

/-- The switch out of `waitq_await_locked`: the thread is on a wait queue or in a waker's hands,
or has been put on its run queue meanwhile; `sched_reschedule` puts it on no queue. -/
theorem placed_block (h : Placed cfg loc s) (hpc : s.pc (.thread (s.cur c)) = .block)
    (hs : schedReschedule cfg
      { s with pc := Function.update s.pc (.thread (s.cur c)) .blocked } c = some s') :
    ∃ loc', Placed cfg loc' s' := by
  have hidle : s.cur c ≠ cfg.idle c := fun hi =>
    (h.idle_here (s.cur c) (hi ▸ cfg.isIdle_idle c)).2.2 hpc
  obtain ⟨hnotIdle, hcpu⟩ := (h.cur_cpu c).resolve_left hidle
  have hplace := h.blocking c (by simp) hpc
  -- nothing is claimed about this CPU between the lock of the scheduler and the switch
  have hoff : PlacedOff cfg (some c) loc
      { s with pc := Function.update s.pc (.thread (s.cur c)) .blocked } := by
    have hother := h.cur_ne hidle
    constructor
    case runq_iff => exact h.runq_iff
    case runq_nodup => exact h.runq_nodup
    case waitq_iff => exact h.waitq_iff
    case waitq_nodup => exact h.waitq_nodup
    case hand_iff => intro y u; have := h.hand_iff y u; grind
    case fresh_iff => exact h.fresh_iff
    case gone_exiting => exact h.gone_exiting
    case here_cur => intro u; have := h.here_cur u; grind
    case idle_here => intro u; have := h.idle_here u; grind
    case cur_cpu => exact h.cur_cpu
    case running => intro d; have := h.running d; have := hother d; grind
    case blocking => intro d; have := h.blocking d; have := hother d; grind
    case block_cur => intro u; have := h.block_cur u; grind
    case intr_block => intro d; have := h.intr_block d; grind
    case intr_off => intro d; have := h.intr_off d; have := hother d; grind
  unfold schedReschedule at hs
  rw [if_neg hidle] at hs
  dsimp only at hs
  -- a thread that was woken in between is on the run queue already, and is not queued twice
  rcases hplace with ⟨hwaiting, -⟩ | ⟨hrunnable, -⟩
  · rw [hwaiting] at hs
    cases hs
    exact placed_schedNext loc (hoff.flags rfl rfl rfl rfl rfl rfl fun _ => .inl)
  · rw [hrunnable] at hs
    cases hs
    exact placed_schedNext loc hoff

/-- The current thread exits. -/
theorem placed_exit (h : Placed cfg loc s) (hmay : mayWait cfg s c)
    (hs : schedReschedule cfg
      { s with state := Function.update s.state (s.cur c) .kThreadExiting } c = some s') :
    ∃ loc', Placed cfg loc' s' := by
  obtain ⟨-, hpc, hidle⟩ := hmay
  obtain ⟨hnotIdle, hcpu⟩ := (h.cur_cpu c).resolve_left hidle
  obtain ⟨-, hhere⟩ := h.running c (by simp) (by simp [hpc])
  unfold schedReschedule at hs
  rw [if_neg hidle] at hs
  dsimp only at hs
  rw [Function.update_self] at hs
  cases hs
  have hother := h.cur_ne hidle
  -- an exiting thread is on no queue any more
  refine placed_schedNext (Function.update loc (s.cur c) .gone) ?_
  constructor
  case runq_iff => intro u d; have := h.runq_iff u d; grind
  case runq_nodup => exact h.runq_nodup
  case waitq_iff => intro u v; have := h.waitq_iff u v; grind
  case waitq_nodup => exact h.waitq_nodup
  case hand_iff => intro y u; have := h.hand_iff y u; grind
  case fresh_iff => intro u; have := h.fresh_iff u; grind
  case gone_exiting => intro u; have := h.gone_exiting u; grind
  case here_cur => intro u; have := h.here_cur u; grind
  case idle_here => intro u; have := h.idle_here u; grind
  case cur_cpu => exact h.cur_cpu
  case running => intro d; have := h.running d; have := hother d; grind
  case blocking => intro d; have := h.blocking d; have := hother d; grind
  case block_cur => intro u; have := h.block_cur u; grind
  case intr_block => exact h.intr_block
  case intr_off => intro d; have := h.intr_off d; grind

/-! ## Whole runs -/

/-- The end of `handle_int`, outside the critical sections. -/
theorem placed_handleIntTail (h : Placed cfg loc s) (hpc : s.pc (.thread (s.cur c)) ≠ .block)
    (hs : handleIntTail cfg s c = some s') : ∃ loc', Placed cfg loc' s' := by
  unfold handleIntTail at hs
  split at hs
  · have hflag : Placed cfg loc { s with preempted := Function.update s.preempted c false } :=
      h.flags rfl rfl rfl rfl rfl rfl fun _ => .inl
    exact placed_yield hflag hpc hs
  · cases hs
    exact ⟨loc, h⟩

/-- The end of `thread_resume`. -/
theorem placed_threadResumed (h : Placed cfg loc s) (hpc : s.pc (ctx s c) = .resumed t)
    (hs : threadResumed cfg s c t = some s') : ∃ loc', Placed cfg loc' s' := by
  have hrun : Placed cfg loc { s with pc := Function.update s.pc (ctx s c) .run } :=
    h.frame rfl rfl rfl rfl rfl rfl rfl (by simp [hpc]) (by simp)
  unfold threadResumed at hs
  dsimp only at hs
  by_cases hcpu : cfg.cpuOf t = c
  · rw [if_pos hcpu] at hs
    by_cases hin : s.inInterrupt c = true
    · rw [if_pos hin] at hs
      cases hs
      exact ⟨loc, hrun.flags rfl rfl rfl rfl rfl rfl fun _ => .inl⟩
    · rw [if_neg hin] at hs
      have hctx : ctx s c = .thread (s.cur c) := if_neg hin
      exact placed_yield hrun (by simp [hctx]) hs
  · rw [if_neg hcpu] at hs
    cases hs
    exact ⟨loc, hrun⟩

omit [DecidableEq C] [DecidableEq T] in
/-- Interrupt handlers do not sleep. -/
theorem PlacedOff.ctx_of_block (h : Placed cfg loc s) (hpc : s.pc (ctx s c) = .block) :
    ctx s c = .thread (s.cur c) := by
  unfold ctx at hpc ⊢
  split at hpc
  · exact absurd hpc (h.intr_block c)
  · rename_i hin
    exact if_neg hin

/-- The step of a CPU inside a function. -/
theorem placed_next [DecidableEq W] (h : Placed cfg loc s) (hs : next cfg s c = some s') :
    ∃ loc', Placed cfg loc' s' := by
  unfold next at hs
  cases hpc : s.pc (ctx s c) with
  | run => rw [hpc] at hs; cases hs
  | wake w =>
      rw [hpc] at hs; cases hs
      exact placed_waitqWakeOne h (by simp [hpc])
  | resume t =>
      rw [hpc] at hs; cases hs
      exact ⟨_, placed_threadResume h hpc⟩
  | resumed t =>
      rw [hpc] at hs
      exact placed_threadResumed h hpc hs
  | block =>
      rw [hpc] at hs
      exact placed_block h (h.ctx_of_block hpc ▸ hpc) hs
  | blocked =>
      rw [hpc] at hs; cases hs
      exact ⟨loc, h.frame rfl rfl rfl rfl rfl rfl rfl (by simp [hpc]) (by simp)⟩

/-- Every step leads from a placement to a placement. -/
theorem placed_step [DecidableEq W] {a : Action C T W} (h : ∃ loc, Placed cfg loc s)
    (hs : step cfg s a = some s') : ∃ loc', Placed cfg loc' s' := by
  obtain ⟨loc, h⟩ := h
  cases a with
  | threadResume c t =>
      rw [step] at hs
      split at hs
      · rename_i hguard
        cases hs
        exact ⟨_, placed_resumeNew h hguard.1 hguard.2⟩
      · cases hs
  | waitqAwait c w =>
      rw [step] at hs
      split at hs
      · rename_i hmay
        exact placed_awaitLocked h hmay hs
      · cases hs
  | semaphoreWait c w =>
      rw [step] at hs
      split at hs
      · rename_i hmay
        unfold semaphoreWait at hs
        dsimp only at hs
        -- the invariant does not look at the counts
        have hcount : ∀ n, Placed cfg loc { s with count := Function.update s.count w n } :=
          fun n => h.flags rfl rfl rfl rfl rfl rfl fun _ => .inl
        split at hs
        · exact placed_awaitLocked (hcount _) hmay hs
        · cases hs
          exact ⟨loc, hcount _⟩
      · cases hs
  | waitqWakeOne c w =>
      rw [step] at hs
      split at hs
      · rename_i hpc
        cases hs
        exact placed_waitqWakeOne h (by simp [hpc])
      · cases hs
  | semaphoreSignal c w =>
      rw [step] at hs
      split at hs
      · rename_i hpc
        cases hs
        refine ⟨loc, h.frame (x := ctx s c) rfl rfl rfl rfl rfl rfl rfl (by simp [hpc]) ?_⟩
        split <;> simp
      · cases hs
  | schedReschedule c =>
      rw [step] at hs
      split at hs
      · rename_i hguard
        exact placed_yield h (by simp [hguard.2]) hs
      · cases hs
  | exit c =>
      rw [step] at hs
      split at hs
      · rename_i hmay
        exact placed_exit h hmay hs
      · cases hs
  | interrupt c =>
      rw [step] at hs
      split at hs
      · rename_i hen
        cases hs
        refine ⟨loc, h.flags rfl rfl rfl rfl rfl rfl fun d hd => ?_⟩
        have := intrEnabled_ne_block hen
        dsimp only at hd
        grind
      · cases hs
  -- the tick only asks for a reschedule, the interrupt return carries it out
  | schedTimeslice c =>
      rw [step] at hs
      split at hs
      · cases hs
        exact ⟨loc, h.flags rfl rfl rfl rfl rfl rfl fun _ => .inl⟩
      · cases hs
  | interruptReturn c =>
      rw [step] at hs
      split at hs
      · rename_i hguard
        have hflag : Placed cfg loc
            { s with inInterrupt := Function.update s.inInterrupt c false } := by
          refine h.flags rfl rfl rfl rfl rfl rfl fun d hd => .inl ?_
          dsimp only at hd
          grind
        exact placed_handleIntTail hflag (h.intr_off c (by simp) hguard.1) hs
      · cases hs
  | exceptionReturn c =>
      rw [step] at hs
      split at hs
      · rename_i hen
        exact placed_handleIntTail h (intrEnabled_ne_block hen) hs
      · cases hs
  | next c => exact placed_next h hs

/-- What the run queues and wait queues promise in one state. -/
structure QueuesSound (cfg : Config C T) (s : State C T W) : Prop where
  /-- A thread is at most once on a run queue. -/
  runq_once : ∀ t c, (s.runqueue c).count t ≤ 1
  /-- A thread is at most once on a wait queue. -/
  waitq_once : ∀ t w, (s.waiters w).count t ≤ 1
  /-- A thread is on no run queue but its own CPU's. -/
  runq_own : ∀ t c, t ∈ s.runqueue c → c = cfg.cpuOf t
  /-- A thread is not on two wait queues. -/
  waitq_unique : ∀ t v w, t ∈ s.waiters v → t ∈ s.waiters w → v = w
  /-- A thread is not on a run queue and a wait queue. -/
  disjoint : ∀ t c w, t ∈ s.runqueue c → t ∉ s.waiters w
  /-- A started thread that is neither exiting nor idle nor current nor in a waker's hands is on a
  queue. -/
  present : ∀ t, s.started t = true → s.state t ≠ .kThreadExiting → cfg.isIdle t = false →
    s.cur (cfg.cpuOf t) ≠ t → (∀ x, s.pc x ≠ .resume t) →
    t ∈ s.runqueue (cfg.cpuOf t) ∨ ∃ w, t ∈ s.waiters w

omit [DecidableEq C] in
/-- A state that represents a placement keeps the promises. -/
theorem PlacedOff.queuesSound (h : Placed cfg loc s) : QueuesSound cfg s where
  runq_once t c := List.nodup_iff_count_le_one.mp (h.runq_nodup c) t
  waitq_once t w := List.nodup_iff_count_le_one.mp (h.waitq_nodup w) t
  runq_own t c ht := ((h.runq_iff t c).mp ht).2.symm
  waitq_unique t v w hv hw := by
    have heq := ((h.waitq_iff t v).mp hv).symm.trans ((h.waitq_iff t w).mp hw)
    cases heq
    rfl
  disjoint t c w hc hw := by
    have heq := ((h.runq_iff t c).mp hc).1.symm.trans ((h.waitq_iff t w).mp hw)
    cases heq
  -- each place but a queue is excluded by one of the hypotheses
  present t hstarted hexit hidle hcur hhand := by
    cases hloc : loc t with
    | fresh =>
        rw [(h.fresh_iff t).mp hloc] at hstarted
        cases hstarted
    | here =>
        rcases h.here_cur t hloc with hi | ⟨hc, -⟩
        · rw [hi] at hidle
          cases hidle
        · exact absurd hc hcur
    | runq => exact .inl ((h.runq_iff t _).mpr ⟨hloc, rfl⟩)
    | waitq w => exact .inr ⟨w, (h.waitq_iff t w).mpr hloc⟩
    | hand x => exact absurd ((h.hand_iff x t).mpr hloc) (hhand x)
    | gone => exact absurd (h.gone_exiting t hloc) hexit

/-- **No thread is lost or queued twice.** In every interleaving on any number of CPUs, no thread is
on two queues or twice on one, and every started thread that is neither exiting nor idle, nor the
current thread of its CPU, nor in the hands of a waker, is on its run queue or on a wait queue. -/
theorem sched_queues [DecidableEq W] (wqres : T → WaitqResult) (count : W → ℤ)
    (h : (machine W cfg).Reachable (init cfg wqres count) s) : QueuesSound cfg s := by
  have hplaced : ∃ loc, Placed cfg loc s :=
    h.invariant (I := fun s => ∃ loc, Placed cfg loc s) ⟨_, placed_init wqres count⟩
      fun _ _ _ hi _ hs => placed_step hi hs
  exact hplaced.elim fun _ hp => hp.queuesSound

/-- Two CPUs with their idle threads 0 and 1, and one more thread on each, 2 and 3. -/
def twoCpus : Config (Fin 2) (Fin 4) where
  cpuOf t := if t = 0 ∨ t = 2 then 0 else 1
  idle c := if c = 0 then 0 else 1
  idle_inj := by decide
  isIdle t := t = 0 ∨ t = 1
  isIdle_iff := by decide

/-- A run in which CPU 1 puts thread 2 on the run queue of CPU 0 while CPU 0 still executes it, on
its way from the wait queue to `sched_reschedule`. -/
theorem sched_queues_race :
    ∃ s, (machine Unit twoCpus).exec (init twoCpus (fun _ => .kWQTimeout) fun _ => 0)
        [.threadResume 0 2, .next 0, .next 0, .threadResume 1 3, .next 1, .next 1,
          .waitqAwait 0 (), .waitqWakeOne 1 (), .next 1] = some s ∧
      s.cur 0 = 2 ∧ s.runqueue 0 = [2] ∧ QueuesSound twoCpus s := by
  refine ⟨_, rfl, rfl, rfl, ?_⟩
  exact sched_queues (fun _ => .kWQTimeout) (fun _ => 0)
    (Machine.reachable_of_exec (l := [.threadResume 0 2, .next 0, .next 0, .threadResume 1 3,
      .next 1, .next 1, .waitqAwait 0 (), .waitqWakeOne 1 (), .next 1]) rfl)

end Scalux.Sched
