import Scalux.Lib.Delta
import Scalux.Lib.Run

/-! # Callouts

`callout_enqueue` and `callout_interrupt` (`kern/task.c`) on one CPU: a queue of callouts in which
`nanosecs` is "relative to now if this is the head of the callout queue, otherwise relative to
previous callout", and the CPU's timer.  Both functions run with interrupts off, so a call is a step.
The timer is exact: `md_timer_set(n)` leads to `callout_interrupt` `n` nanoseconds later, and no code
runs between the two moments of an interrupt that is due.  A callback does not touch the queue, as
`sched_timeslice` does not.

`callout_enqueue` looks for its place by going through the queue while the delta it meets is less
than what remains of the new callout's time, and then always inserts *after* the callout it stopped
at, whose delta and whose successor's delta it leaves as they are.

* **`callout_exact`**: if every callout is enqueued before the first deadline or after the last, the
  queue stands for the deadlines, and every callout fires at its own.
* **`Inv.exact_iff`**: any other callout is queued for a later time than its deadline.
* **`callout_late`**: such a callout exists. -/

namespace Scalux.Callout

open Delta

/-- A callout that has run: the deadline it had and the time it ran at. -/
structure Firing (K : Type*) where
  callout : K
  deadline : ℕ
  time : ℕ
  deriving DecidableEq, Repr

/-- The callouts of a CPU. -/
structure State (K : Type*) where
  /-- `cpu->pendingcallouts`, head first, each callout with its `nanosecs`. -/
  queue : List (K × ℕ)
  /-- The nanoseconds left until the timer interrupts; `none` when it is stopped. -/
  timer : Option ℕ
  now : ℕ
  /-- History: the time of the callout's last enqueue plus the `nanosecs` it had then. -/
  deadline : K → ℕ
  /-- History: what has run, first first. -/
  fired : List (Firing K)

/-- What happens next. -/
inductive Action (K : Type*)
  /-- The caller sets `callout->nanosecs` and calls `callout_enqueue`. -/
  | calloutEnqueue (k : K) (nanosecs : ℕ)
  | calloutInterrupt
  /-- Time passes. -/
  | elapse (d : ℕ)

variable {K : Type*}

/-- `md_timer_set`; zero stops the timer. -/
def mdTimerSet (n : ℕ) : Option ℕ := if n = 0 then none else some n

/-- `md_timer_get_remaining`. -/
def mdTimerGetRemaining (s : State K) : ℕ := s.timer.getD 0

/-- The loop of `callout_enqueue` from the callout `co` on, with `n` left of the new callout's time,
and the insertion after the callout it stops at. -/
def insertFrom (k : K) (co : K × ℕ) : List (K × ℕ) → ℕ → List (K × ℕ)
  | [], n => if co.2 < n then [co, (k, n - co.2)] else [co, (k, n)]
  | next :: rest, n =>
      if co.2 < n then co :: insertFrom k next rest (n - co.2) else co :: (k, n) :: next :: rest

/-- The queue with the head's time counted from now, as `callout_enqueue` sees it. -/
def rebased (s : State K) : List (K × ℕ) :=
  match s.queue with
  | [] => []
  | (c, d) :: rest => (c, min (mdTimerGetRemaining s) d) :: rest

/-- `callout_enqueue`; `none` when one of its assertions fails. -/
def calloutEnqueue [DecidableEq K] (s : State K) (k : K) (n : ℕ) : Option (State K) :=
  if n = 0 then none
  else
    let s := { s with deadline := Function.update s.deadline k (s.now + n) }
    match rebased s with
    | [] => some { s with queue := [(k, n)], timer := mdTimerSet n }
    -- the head has been set to what remains of it, which is asserted to be positive
    | (c, d) :: rest =>
        if d = 0 then none
        else if n < d then
          some { s with queue := (k, n) :: (c, d - n) :: rest, timer := mdTimerSet n }
        else some { s with queue := insertFrom k (c, d) rest n }

/-- `callout_interrupt`. -/
def calloutInterrupt (s : State K) : State K :=
  match s.queue with
  | [] => { s with timer := none }
  | (c, _) :: rest =>
      { s with
        queue := rest
        timer := rest.head?.bind fun co => mdTimerSet co.2
        fired := s.fired ++ [⟨c, s.deadline c, s.now⟩] }

/-- One step: the interrupt comes when the timer is at zero, and nothing comes before it then; only a
callout that is not pending is enqueued. -/
def step [DecidableEq K] (s : State K) : Action K → Option (State K)
  | .calloutEnqueue k n =>
      if s.timer ≠ some 0 ∧ k ∉ s.queue.map Prod.fst then calloutEnqueue s k n else none
  | .calloutInterrupt => if s.timer = some 0 then some (calloutInterrupt s) else none
  | .elapse d =>
      if ∀ r ∈ s.timer, d ≤ r then
        some { s with now := s.now + d, timer := s.timer.map (· - d) }
      else none

/-- The callouts of a CPU and its timer. -/
def machine (K : Type*) [DecidableEq K] : Machine (State K) (Action K) where
  step := step

/-- No callout is pending. -/
def Idle (s : State K) : Prop := s.queue = [] ∧ s.timer = none ∧ s.fired = []

/-- The queue stands for the deadlines: the `nanosecs` up to a pending callout add up to its deadline
less the current time, and what has run has run at its deadline and in the order of the deadlines. -/
structure Exact (s : State K) : Prop where
  pending : ∀ A k d B, rebased s = A ++ (k, d) :: B → s.now + total A + d = s.deadline k
  on_time : ∀ f ∈ s.fired, f.time = f.deadline
  in_order : s.fired.Pairwise fun f g => f.deadline ≤ g.deadline

/-- The condition on a step: the deadline of a new callout is before the first one or after the last
one that is pending. -/
def AtAnEnd (s : State K) : Action K → Prop
  | .calloutEnqueue _ n => s.queue = [] ∨ n < mdTimerGetRemaining s ∨ total (rebased s) < n
  | _ => True

instance (s : State K) : (a : Action K) → Decidable (AtAnEnd s a)
  | .calloutEnqueue _ n => inferInstanceAs (Decidable (s.queue = [] ∨
      n < mdTimerGetRemaining s ∨ total (rebased s) < n))
  | .calloutInterrupt => .isTrue trivial
  | .elapse _ => .isTrue trivial

/-! ## The loop -/

variable {s s' : State K} {k c : K} {d n : ℕ} {rest : List (K × ℕ)} {co : K × ℕ}

/-- A callout that is later than all others gets to the end, with what remains of its time. -/
theorem insertFrom_of_total_lt (hlt : total (co :: rest) < n) :
    insertFrom k co rest n = co :: rest ++ [(k, n - total (co :: rest))] := by
  induction rest generalizing co n with
  | nil =>
      obtain ⟨c, d⟩ := co
      rw [total_cons, total_nil, Nat.add_zero] at hlt ⊢
      exact if_pos hlt
  | cons next rest ih =>
      obtain ⟨c, d⟩ := co
      rw [total_cons] at hlt ⊢
      have hd : d < n := by omega
      rw [insertFrom, if_pos hd, ih (by omega), Nat.sub_add_eq]
      rfl

/-- Any other callout is inserted after the first one that it does not come after. -/
theorem insertFrom_of_le_total (hle : n ≤ total (co :: rest)) :
    ∃ A x B, co :: rest = A ++ x :: B ∧ (total A < n ∨ A = []) ∧
      insertFrom k co rest n = A ++ x :: (k, n - total A) :: B := by
  -- the walk goes on exactly while the callouts ahead are due earlier (`d < n`)
  induction rest generalizing co n with
  | nil =>
      obtain ⟨c, d⟩ := co
      rw [total_cons, total_nil, Nat.add_zero] at hle
      exact ⟨[], (c, d), [], rfl, .inr rfl, if_neg (Nat.not_lt.mpr hle)⟩
  | cons next rest ih =>
      obtain ⟨c, d⟩ := co
      rw [total_cons] at hle
      by_cases hd : d < n
      · have hle' : n - d ≤ total (next :: rest) := by omega
        obtain ⟨A, x, B, hsplit, hA, hins⟩ := ih hle'
        refine ⟨(c, d) :: A, x, B, ?_, .inl ?_, ?_⟩
        · rw [hsplit, List.cons_append]
        · rw [total_cons]
          rcases hA with hA | rfl
          · omega
          · rw [total_nil]
            omega
        · rw [insertFrom, if_pos hd, hins, total_cons, Nat.sub_add_eq]
          rfl
      · exact ⟨[], (c, d), next :: rest, rfl, .inr rfl, if_neg hd⟩

/-! ## The invariant -/

/-- Nothing is queued. -/
theorem rebased_nil (hq : s.queue = []) : rebased s = [] := by rw [rebased, hq]

/-- The head is due when the timer runs out. -/
theorem rebased_cons {r : ℕ} (hq : s.queue = (c, d) :: rest) (ht : s.timer = some r)
    (hle : r ≤ d) : rebased s = (c, r) :: rest := by
  rw [rebased, hq]
  dsimp only
  rw [mdTimerGetRemaining, ht, Option.getD_some, Nat.min_eq_left hle]

/-- A timer set to a positive time runs. -/
theorem mdTimerSet_of_pos (hn : 0 < n) : mdTimerSet n = some n := if_neg (Nat.ne_of_gt hn)

/-- The times the queue stands for are the deadlines, the timer is set to the first of them, and no
two deadlines are the same. -/
structure Inv (s : State K) : Prop where
  due_eq : ∀ x ∈ due s.now (rebased s), x.2 = s.deadline x.1
  armed : s.timer.isSome = true ↔ s.queue ≠ []
  le_head : ∀ r ∈ s.timer, ∀ co ∈ s.queue.head?, r ≤ co.2
  pos : ∀ co ∈ s.queue.tail, 0 < co.2
  on_time : ∀ f ∈ s.fired, f.time = f.deadline
  past : ∀ f ∈ s.fired, f.time ≤ s.now
  in_order : s.fired.Pairwise fun f g => f.deadline ≤ g.deadline

/-- The invariant implies what is to be shown. -/
theorem Inv.exact (h : Inv s) : Exact s where
  pending A k d B hsplit := (h.due_eq (k, s.now + total A + d)
    (mem_due_iff.mpr ⟨A, d, B, hsplit, rfl⟩)).symm ▸ rfl
  on_time := h.on_time
  in_order := h.in_order

/-- A queue that is not empty, with the time left until its first deadline. -/
theorem Inv.cases (h : Inv s) : (s.queue = [] ∧ s.timer = none ∧ rebased s = []) ∨
    ∃ c d r rest, s.queue = (c, d) :: rest ∧ s.timer = some r ∧ rebased s = (c, r) :: rest := by
  match hq : s.queue, ht : s.timer with
  | [], none => exact .inl ⟨rfl, rfl, rebased_nil hq⟩
  | [], some r => exact absurd hq (h.armed.mp (by rw [ht]; rfl))
  | (c, d) :: rest, none =>
      have := h.armed.mpr (by rw [hq]; simp)
      rw [ht] at this
      cases this
  | (c, d) :: rest, some r =>
      exact .inr ⟨c, d, r, rest, rfl, rfl, rebased_cons hq ht (h.le_head r ht (c, d) (by rw [hq]; rfl))⟩

/-- The invariant of an idle CPU. -/
theorem inv_idle (h : Idle s) : Inv s where
  due_eq := by rw [rebased, h.1]; simp
  armed := by rw [h.1, h.2.1]; exact iff_of_false (by simp) (fun hne => hne rfl)
  le_head := by rw [h.2.1]; simp
  pos := by rw [h.1]; simp
  on_time := by rw [h.2.2]; simp
  past := by rw [h.2.2]; simp
  in_order := by rw [h.2.2]; exact .nil

/-- Time passes: the head's time is counted from a later moment. -/
theorem inv_elapse (h : Inv s) (hd : ∀ r ∈ s.timer, d ≤ r) :
    Inv { s with now := s.now + d, timer := s.timer.map (· - d) } where
  due_eq := by
    obtain ⟨hq, -, hreb⟩ | ⟨c, e, r, rest, hq, ht, hreb⟩ := h.cases
    · have hreb' : rebased { s with now := s.now + d, timer := s.timer.map (· - d) } = [] :=
        rebased_nil hq
      rw [hreb']
      simp
    · have hdue := h.due_eq
      rw [hreb, due_cons] at hdue
      -- the timer has not fired yet, so what is left of it is the new delta of the head
      have hr : d ≤ r := hd r ht
      have hle : r ≤ e := h.le_head r ht (c, e) (by rw [hq]; rfl)
      have hreb' : rebased { s with now := s.now + d, timer := s.timer.map (· - d) }
          = (c, r - d) :: rest :=
        rebased_cons hq (by rw [ht]; rfl) (by omega)
      rw [hreb', due_cons]
      have hsum : s.now + d + (r - d) = s.now + r := by omega
      dsimp only
      rw [hsum]
      exact hdue
  armed := by
    rw [Option.isSome_map]
    exact h.armed
  le_head r' hr' co hco := by
    obtain ⟨r, hr, rfl⟩ := Option.map_eq_some_iff.mp hr'
    exact Nat.le_trans (Nat.sub_le _ _) (h.le_head r hr co hco)
  pos := h.pos
  on_time := h.on_time
  past f hf := Nat.le_trans (h.past f hf) (Nat.le_add_right _ _)
  in_order := h.in_order

/-- The first callout runs at its deadline. -/
theorem inv_calloutInterrupt (h : Inv s) (ht : s.timer = some 0) : Inv (calloutInterrupt s) := by
  obtain ⟨-, hnone, -⟩ | ⟨c, d, r, rest, hq, ht', hreb⟩ := h.cases
  · rw [ht] at hnone
    cases hnone
  obtain rfl : 0 = r := Option.some.inj (ht.symm.trans ht')
  have hdue := h.due_eq
  rw [hreb, due_cons, Nat.add_zero] at hdue
  have hfirst : s.now = s.deadline c := hdue (c, s.now) List.mem_cons_self
  have hpos : ∀ co ∈ rest, 0 < co.2 := by
    have := h.pos
    rw [hq] at this
    exact this
  have hnext : calloutInterrupt s = { s with
      queue := rest
      timer := rest.head?.bind fun co => mdTimerSet co.2
      fired := s.fired ++ [⟨c, s.deadline c, s.now⟩] } := by
    rw [calloutInterrupt, hq]
  rw [hnext]
  have hset : ∀ co ∈ rest.head?, mdTimerSet co.2 = some co.2 := fun co hco =>
    mdTimerSet_of_pos (hpos co (List.mem_of_mem_head? hco))
  constructor
  case due_eq =>
    -- the next callout's delta counts from the deadline that has just passed
    match rest, hset, hdue with
    | [], _, _ => exact nofun
    | (c', d') :: rest', hset, hdue =>
        rw [rebased_cons (r := d') rfl (hset (c', d') rfl) (Nat.le_refl _)]
        exact fun x hx => hdue x (List.mem_cons_of_mem _ hx)
  case armed =>
    match rest, hset with
    | [], _ => exact iff_of_false (by simp) fun hne => hne rfl
    | co :: rest', hset =>
        dsimp only [List.head?_cons, Option.bind_some]
        rw [hset co rfl]
        exact iff_of_true rfl (by simp)
  case le_head =>
    intro r hr co hco
    dsimp only at hr hco
    rw [Option.mem_def.mp hco, Option.bind_some, hset co hco] at hr
    exact Nat.le_of_eq (Option.some.inj hr).symm
  case pos => exact fun co hco => hpos co (List.mem_of_mem_tail hco)
  case on_time =>
    intro f hf
    rcases List.mem_append.mp hf with hf | hf
    · exact h.on_time f hf
    · rw [List.mem_singleton.mp hf]
      exact hfirst
  case past =>
    intro f hf
    rcases List.mem_append.mp hf with hf | hf
    · exact h.past f hf
    · exact Nat.le_of_eq (congrArg Firing.time (List.mem_singleton.mp hf))
  case in_order =>
    refine List.pairwise_append.mpr ⟨h.in_order, List.pairwise_singleton _ _, fun f hf g hg => ?_⟩
    rw [List.mem_singleton.mp hg, ← h.on_time f hf, ← hfirst]
    exact h.past f hf

section Enqueue

variable [DecidableEq K]

/-- What `callout_enqueue` does to an empty queue, before the head, and from the head on. -/
theorem Inv.enqueue_cases (h : Inv s) (hs : calloutEnqueue s k n = some s') : 0 < n ∧
    ((s.queue = [] ∧ s' = { s with
        deadline := Function.update s.deadline k (s.now + n), queue := [(k, n)], timer := some n }) ∨
      ∃ c d r rest, s.queue = (c, d) :: rest ∧ s.timer = some r ∧ rebased s = (c, r) :: rest ∧
        0 < r ∧ ((n < r ∧ s' = { s with
            deadline := Function.update s.deadline k (s.now + n)
            queue := (k, n) :: (c, r - n) :: rest
            timer := some n }) ∨
          (r ≤ n ∧ s' = { s with
            deadline := Function.update s.deadline k (s.now + n)
            queue := insertFrom k (c, r) rest n }))) := by
  -- the deadline is only kept for the specification
  have hdeadline : rebased { s with deadline := Function.update s.deadline k (s.now + n) }
      = rebased s := rfl
  unfold calloutEnqueue at hs
  dsimp only at hs
  rw [hdeadline] at hs
  split at hs
  · cases hs
  · rename_i hn
    have hpos : 0 < n := Nat.pos_of_ne_zero hn
    refine ⟨hpos, ?_⟩
    obtain ⟨hq, -, hreb⟩ | ⟨c, d, r, rest, hq, ht, hreb⟩ := h.cases
    · rw [hreb, mdTimerSet_of_pos hpos] at hs
      exact .inl ⟨hq, (Option.some.inj hs).symm⟩
    · rw [hreb, mdTimerSet_of_pos hpos] at hs
      dsimp only at hs
      split at hs
      · cases hs
      · rename_i hr
        refine .inr ⟨c, d, r, rest, hq, ht, hreb, Nat.pos_of_ne_zero hr, ?_⟩
        split at hs
        · rename_i hlt
          exact .inl ⟨hlt, (Option.some.inj hs).symm⟩
        · rename_i hlt
          exact .inr ⟨Nat.not_lt.mp hlt, (Option.some.inj hs).symm⟩

/-- A callout that is not pending gets a new deadline; the others keep theirs. -/
theorem due_update (h : Inv s) (hk : k ∉ s.queue.map Prod.fst) (hreb : rebased s = (c, d) :: rest)
    {l : List (K × ℕ)} (hl : ∀ x ∈ l, x = (k, s.now + n) ∨ x ∈ due s.now ((c, d) :: rest)) :
    ∀ x ∈ l, x.2 = Function.update s.deadline k (s.now + n) x.1 := by
  intro x hx
  rcases hl x hx with rfl | hx
  · dsimp only
    rw [Function.update_self]
  · have hne : x.1 ≠ k := by
      rintro rfl
      obtain ⟨A, e, B, hsplit, -⟩ := mem_due_iff.mp (show (x.1, x.2) ∈ _ from hx)
      -- re-basing changes no callout
      have hkeys : (rebased s).map Prod.fst = s.queue.map Prod.fst := by
        unfold rebased
        split
        · rename_i hq
          rw [hq]
        · rename_i hq
          rw [hq]
          rfl
      rw [← hkeys, hreb, hsplit, List.map_append, List.map_cons] at hk
      exact hk (List.mem_append_right _ List.mem_cons_self)
    rw [Function.update_of_ne hne]
    exact h.due_eq x (hreb ▸ hx)

/-- A new callout at an end of the queue leaves the other deadlines as they are. -/
theorem inv_calloutEnqueue (h : Inv s) (hk : k ∉ s.queue.map Prod.fst)
    (hc : AtAnEnd s (.calloutEnqueue k n)) (hs : calloutEnqueue s k n = some s') : Inv s' := by
  obtain ⟨hpos, ⟨hq, rfl⟩ | ⟨c, d, r, rest, hq, ht, hreb, hr, hcase⟩⟩ := h.enqueue_cases hs
  · refine ⟨?_, iff_of_true rfl (by simp), ?_, by simp, h.on_time, h.past, h.in_order⟩
    · rw [rebased_cons (r := n) rfl rfl (Nat.le_refl n)]
      intro x hx
      rw [due_cons, due_nil, List.mem_singleton] at hx
      rw [hx]
      dsimp only
      rw [Function.update_self]
    · intro r hr co hco
      cases hr
      cases hco
      exact Nat.le_refl n
  have hle : r ≤ d := h.le_head r ht (c, d) (by rw [hq]; rfl)
  -- the queue is not empty: the head takes what is left of the timer as its delta
  have htail : ∀ co ∈ rest, 0 < co.2 := by
    have := h.pos
    rw [hq] at this
    exact this
  obtain ⟨hlt, rfl⟩ | ⟨hge, rfl⟩ := hcase
  · -- before the head, whose delta now counts from the new callout
    refine ⟨?_, iff_of_true rfl (by simp), ?_, ?_, h.on_time, h.past, h.in_order⟩
    · rw [rebased_cons (r := n) rfl rfl (Nat.le_refl n)]
      refine due_update h hk hreb fun x hx => ?_
      have hsum : s.now + n + (r - n) = s.now + r := by omega
      rw [due_cons, due_cons, hsum, ← due_cons, List.mem_cons] at hx
      exact hx
    · intro r' hr' co hco
      cases hr'
      cases hco
      exact Nat.le_refl n
    · intro co hco
      rcases List.mem_cons.mp hco with rfl | hco
      · exact Nat.sub_pos_of_lt hlt
      · exact htail co hco
  · -- after the last callout
    have hrem : mdTimerGetRemaining s = r := by rw [mdTimerGetRemaining, ht]; rfl
    have hlast : total ((c, r) :: rest) < n := by
      rcases hc with hnil | hlt | hlt
      · rw [hq] at hnil
        cases hnil
      · omega
      · rw [← hreb]
        exact hlt
    rw [insertFrom_of_total_lt hlast]
    refine ⟨?_, iff_of_true (by rw [ht]; rfl) (by simp), ?_, ?_, h.on_time, h.past, h.in_order⟩
    · have hreb' : rebased { s with
          deadline := Function.update s.deadline k (s.now + n)
          queue := (c, r) :: rest ++ [(k, n - total ((c, r) :: rest))] }
            = (c, r) :: (rest ++ [(k, n - total ((c, r) :: rest))]) :=
        rebased_cons rfl ht (Nat.le_refl r)
      rw [hreb']
      refine due_update h hk hreb fun x hx => ?_
      have hsum : s.now + total ((c, r) :: rest) + (n - total ((c, r) :: rest)) = s.now + n := by
        omega
      have happ := due_append s.now ((c, r) :: rest) [(k, n - total ((c, r) :: rest))]
      rw [due_cons _ k, due_nil, hsum] at happ
      rw [← List.cons_append, happ, List.mem_append, List.mem_singleton] at hx
      exact hx.symm
    · intro r' hr' co hco
      cases hco
      rw [ht] at hr'
      cases hr'
      exact Nat.le_refl r
    · intro co hco
      rcases List.mem_append.mp hco with hco | hco
      · exact htail co hco
      · rw [List.mem_singleton.mp hco]
        exact Nat.sub_pos_of_lt hlast

/-- **The condition is exact.** A callout that is enqueued with a deadline from the first to the last
one pending is queued for a later time. -/
theorem Inv.exact_iff (h : Inv s) (hk : k ∉ s.queue.map Prod.fst)
    (hs : calloutEnqueue s k n = some s') : Exact s' ↔ AtAnEnd s (.calloutEnqueue k n) := by
  refine ⟨fun hexact => ?_, fun hc => (inv_calloutEnqueue h hk hc hs).exact⟩
  by_contra hc
  rw [AtAnEnd, not_or, not_or, Nat.not_lt, Nat.not_lt] at hc
  obtain ⟨hne, hfirst, hlast⟩ := hc
  obtain ⟨-, ⟨hq, -⟩ | ⟨c, d, r, rest, hq, ht, hreb, hr, hcase⟩⟩ := h.enqueue_cases hs
  · exact hne hq
  have hrem : mdTimerGetRemaining s = r := by rw [mdTimerGetRemaining, ht]; rfl
  rw [hrem] at hfirst
  rw [hreb] at hlast
  obtain ⟨hlt, -⟩ | ⟨-, rfl⟩ := hcase
  · omega
  obtain ⟨A, x, B, hsplit, hA, hins⟩ := insertFrom_of_le_total (k := k) hlast
  -- the callout it is put after has time left
  have hx : 0 < x.2 := by
    have hmem : x ∈ (c, r) :: rest := hsplit ▸ List.mem_append_right A List.mem_cons_self
    rcases List.mem_cons.mp hmem with rfl | hmem
    · exact hr
    · have htail := h.pos
      rw [hq] at htail
      exact htail x hmem
  have hreb' : rebased { s with
      deadline := Function.update s.deadline k (s.now + n)
      queue := insertFrom k (c, r) rest n } = (A ++ [x]) ++ (k, n - total A) :: B := by
    rw [List.append_assoc]
    cases A with
    | nil =>
        obtain ⟨rfl, rfl⟩ := List.cons.inj hsplit
        exact rebased_cons hins ht (Nat.le_refl r)
    | cons y A =>
        obtain ⟨rfl, -⟩ := List.cons.inj hsplit
        exact rebased_cons hins ht (Nat.le_refl r)
  have hdeadline := hexact.pending (A ++ [x]) k (n - total A) B hreb'
  obtain ⟨j, e⟩ := x
  rw [total_append, total_cons, total_nil] at hdeadline
  dsimp only at hdeadline hx
  rw [Function.update_self] at hdeadline
  rcases hA with hA | rfl
  · omega
  · rw [total_nil] at hdeadline
    omega

end Enqueue

/-! ## Whole runs -/

variable [DecidableEq K]

/-- Every step under the condition keeps the invariant. -/
theorem inv_step {a : Action K} (h : Inv s) (hc : AtAnEnd s a) (hs : step s a = some s') :
    Inv s' := by
  -- one case for each event, each with the lemma of the function it runs
  cases a with
  | calloutEnqueue k n =>
      rw [step] at hs
      split at hs
      · rename_i hguard
        exact inv_calloutEnqueue h hguard.2 hc hs
      · cases hs
  | calloutInterrupt =>
      rw [step] at hs
      split at hs
      · rename_i ht
        cases hs
        exact inv_calloutInterrupt h ht
      · cases hs
  | elapse d =>
      rw [step] at hs
      split at hs
      · rename_i hd
        cases hs
        exact inv_elapse h hd
      · cases hs

/-- **Callouts fire at their deadlines.** In every run in which each callout is enqueued with a
deadline before the first or after the last one that is pending, the queue stands for the deadlines
of the pending callouts at all times, and the callouts that have run have run at their deadlines and
in their order. -/
theorem callout_exact {s₀ : State K} (h₀ : Idle s₀) (h : (machine K).Reach AtAnEnd s₀ s) :
    Exact s :=
  (h.invariant (inv_idle h₀) fun _ _ _ hi hc hs => inv_step hi hc hs).exact

/-- A CPU at time zero without callouts. -/
def idle : State ℕ := ⟨[], none, 0, fun _ => 0, []⟩

/-- Callouts 1, 2 and 3 are due at 10, 30 and 5, in this order of calls; 3 and 1 have run. -/
def inOrder : List (Action ℕ) :=
  [.calloutEnqueue 1 10, .elapse 2, .calloutEnqueue 2 28, .calloutEnqueue 3 3, .elapse 3,
    .calloutInterrupt, .elapse 5, .calloutInterrupt, .elapse 1]

/-- Three callouts, of which two have fired in time. -/
theorem callout_exact_in_order :
    ∃ s, (machine ℕ).exec idle inOrder = some s ∧ rebased s = [(2, 19)] ∧
      s.fired = [⟨3, 5, 5⟩, ⟨1, 10, 10⟩] ∧ Exact s := by
  refine ⟨_, rfl, rfl, rfl, ?_⟩
  have hidle : Idle idle := ⟨rfl, rfl, rfl⟩
  exact callout_exact hidle (Machine.reach_of_exec
    (c := fun s a => decide (AtAnEnd s a)) (fun _ _ hc => of_decide_eq_true hc)
    (l := inOrder) rfl rfl)

/-- Callouts 1 and 2 are due at 10 and 30, and then 3 at 15. -/
def between : List (Action ℕ) :=
  [.calloutEnqueue 1 10, .calloutEnqueue 2 30, .calloutEnqueue 3 15]

/-- **A callout that comes too late.** Callout 3 is put after callout 2, for the time 35. -/
theorem callout_late :
    ¬ ∀ s₀ s : State ℕ, Idle s₀ → (machine ℕ).Reachable s₀ s → Exact s := by
  intro h
  have hexact := h idle _ ⟨rfl, rfl, rfl⟩ (Machine.reachable_of_exec (l := between) rfl)
  have hdeadline := hexact.pending [(1, 10), (2, 20)] 3 5 [] rfl
  have hwrong : (35 : ℕ) = 15 := hdeadline
  omega

end Scalux.Callout
