import Scalux.Kern.Callout

/-! # Cancelling a callout

`callout_dequeue` (`kern/task.c`) on a CPU whose timer is exact, for any queue of callouts.

Only if the callout is the head does it hand the time on to its successor: the lesser of what remains of
the head and the successor's own time, where what remains is meant.  Another callout is taken out of the
queue, and neither its `nanosecs` nor its `state` is seen to.

* **`dequeue_head`**: the head is cancelled exactly if the sum is that of the two times.
* **`callout_dequeue_iff`**: which callouts can be cancelled. -/

namespace Scalux.Callout

open Delta

/-- `callout->state`. -/
inductive CalloutState
  | kCalloutDisabled
  | kCalloutPending
  deriving DecidableEq, Repr

/-- The callouts of a CPU, with the `state` of each. -/
structure Callouts (K : Type*) extends State K where
  state : K → CalloutState

variable {K : Type*}

/-- `callout_dequeue`; `none` when its assertion fails. -/
def calloutDequeue [DecidableEq K] (s : Callouts K) (c : K) : Option (Callouts K) :=
  if s.state c = .kCalloutPending then
    match s.queue with
    | [] => some s
    | (h, d) :: rest =>
        -- a callout behind the head stays pending, and its time is not added to the one behind it
        if h ≠ c then some { s with queue := ((h, d) :: rest).eraseP (·.1 = c) }
        else
          let s := { s with state := Function.update s.state c .kCalloutDisabled }
          match rest with
          | [] => some { s with queue := [], timer := mdTimerSet 0 }
          | (k, n) :: rest =>
              -- the next one becomes the head, later by what remained of this one, but no more than twice its time
              let n := (n + min (mdTimerGetRemaining s.toState) n) % 2 ^ 64
              some { s with queue := (k, n) :: rest, timer := mdTimerSet n }
  else none

/-- The timer is armed for the deadline of the head. -/
def Armed (s : State K) : Prop := s.timer = (rebased s).head?.map Prod.snd

/-- What `callout_dequeue` is for: the callout is out of the queue and disabled, the deadlines of the
others are what they were, and the timer is armed. -/
structure Cancels [DecidableEq K] (s : Callouts K) (c : K) (s' : Callouts K) : Prop where
  removed : s'.queue.map Prod.fst = (s.queue.map Prod.fst).erase c
  disabled : s'.state c = .kCalloutDisabled
  other_state : ∀ k ≠ c, s'.state k = s.state k
  deadlines : ∀ k ≠ c, ∀ t, (k, t) ∈ due s'.now (rebased s'.toState) ↔
    (k, t) ∈ due s.now (rebased s.toState)
  armed : Armed s'.toState

variable {s s' : Callouts K} {c k : K} {d n : ℕ} {rest : List (K × ℕ)}

/-- A timer that is armed says how much remains of the head. -/
theorem rebased_of_armed {s : State K} (h : Armed s) (hq : s.queue = (c, d) :: rest) :
    rebased s = (c, mdTimerGetRemaining s) :: rest := by
  have hreb : rebased s = (c, min (mdTimerGetRemaining s) d) :: rest := by rw [rebased, hq]
  have hrem : min (mdTimerGetRemaining s) d = mdTimerGetRemaining s := by
    rw [Armed, hreb, List.head?_cons, Option.map_some] at h
    exact (congrArg (Option.getD · 0) h).symm
  rw [hreb, hrem]

/-- A queue whose head has just been given its time. -/
theorem rebased_set {s : State K} (hq : s.queue = (k, n) :: rest) (ht : s.timer = mdTimerSet n) :
    rebased s = (k, n) :: rest := by
  have hrem : mdTimerGetRemaining s = n := by
    rw [mdTimerGetRemaining, ht, mdTimerSet]
    split
    · rename_i hzero
      rw [hzero, Option.getD_none]
    · rfl
  rw [rebased, hq]
  dsimp only
  rw [hrem, Nat.min_self]

/-- The time of the first key, which is not among the others. -/
theorem mem_due_head {b t : ℕ} (hk : k ∉ rest.map Prod.fst) :
    (k, t) ∈ due b ((k, n) :: rest) ↔ t = b + n := by
  rw [due_cons, List.mem_cons, Prod.mk.injEq]
  refine ⟨fun h => ?_, fun h => .inl ⟨rfl, h⟩⟩
  rcases h with ⟨-, heq⟩ | hmem
  · exact heq
  · have hkey : k ∈ (due (b + n) rest).map Prod.fst := List.mem_map_of_mem hmem
    rw [map_fst_due] at hkey
    exact absurd hkey hk

/-! ## The head -/

variable [DecidableEq K]

/-- The head without a successor is cancelled. -/
theorem dequeue_last (hp : s.state c = .kCalloutPending) (h : Armed s.toState) (hq : s.queue = [(c, d)]) :
    ∃ s', calloutDequeue s c = some s' ∧ Cancels s c s' := by
  have hreb := rebased_of_armed h hq
  refine ⟨{ s with state := Function.update s.state c .kCalloutDisabled, queue := [], timer := none }, ?_, ?_⟩
  · unfold calloutDequeue
    rw [if_pos hp, hq]
    dsimp only
    rw [if_neg (not_not_intro rfl)]
    rfl
  · constructor
    · rw [hq, List.map_cons, List.erase_cons_head]
    · exact Function.update_self ..
    · exact fun k hk => Function.update_of_ne hk ..
    · intro k hk t
      rw [hreb, rebased_nil rfl]
      simp [hk]
    · rw [Armed, rebased_nil rfl]
      rfl

/-- The sum of the successor's time and the lesser of the two is the sum of both. -/
theorem handed_on_iff (r n : ℕ) : (n + min r n) % 2 ^ 64 = r + n ∧ (n + min r n) % 2 ^ 64 ≠ 0 ↔
    r ≤ n ∧ 0 < n ∧ r + n < 2 ^ 64 := by
  rcases Nat.le_total r n with hle | hle
  · rw [Nat.min_eq_left hle]
    omega
  · rw [Nat.min_eq_right hle]
    omega

/-- The head with a successor: the time that the successor gets. -/
theorem dequeue_head (hp : s.state c = .kCalloutPending) (h : Armed s.toState)
    (hq : s.queue = (c, d) :: (k, n) :: rest) (hnodup : (s.queue.map Prod.fst).Nodup) :
    (∃ s', calloutDequeue s c = some s' ∧ Cancels s c s') ↔
      mdTimerGetRemaining s.toState ≤ n ∧ 0 < n ∧ mdTimerGetRemaining s.toState + n < 2 ^ 64 := by
  have hreb := rebased_of_armed h hq
  rw [hq, List.map_cons, List.map_cons, List.nodup_cons, List.nodup_cons] at hnodup
  obtain ⟨hc, hk, -⟩ := hnodup
  have hne : k ≠ c := fun heq => hc (heq ▸ List.mem_cons_self)
  generalize hr : mdTimerGetRemaining s.toState = r at hreb ⊢
  rw [← handed_on_iff]
  -- what the source does: the successor gets the smaller of the remaining time and its own delta added
  have hres : calloutDequeue s c = some { s with
      state := Function.update s.state c .kCalloutDisabled
      queue := (k, (n + min r n) % 2 ^ 64) :: rest
      timer := mdTimerSet ((n + min r n) % 2 ^ 64) } := by
    unfold calloutDequeue
    rw [if_pos hp, hq]
    dsimp only
    rw [if_neg (not_not_intro rfl), show mdTimerGetRemaining _ = r from hr]
  generalize (n + min r n) % 2 ^ 64 = n' at hres ⊢
  constructor
  · rintro ⟨s', hs', hcancel⟩
    rw [hres] at hs'
    cases hs'
    have hreb' := rebased_set (s := { s.toState with
      queue := (k, n') :: rest, timer := mdTimerSet n' }) rfl rfl
    have hdue := hcancel.deadlines k hne (s.now + n')
    have harmed := hcancel.armed
    rw [Armed] at harmed
    rw [hreb'] at hdue harmed
    rw [hreb, due_cons_cons, List.mem_cons, mem_due_head hk, mem_due_head hk] at hdue
    refine ⟨?_, fun hzero => ?_⟩
    · rcases hdue.mp rfl with heq | heq
      · exact absurd (congrArg Prod.fst heq) hne
      · omega
    · rw [hzero] at harmed
      cases harmed
  · rintro ⟨heq, hpos⟩
    refine ⟨_, hres, ?_⟩
    have hreb' := rebased_set (s := { s.toState with
      queue := (k, n') :: rest, timer := mdTimerSet n' }) rfl rfl
    constructor
    · rw [hq]
      exact (List.erase_cons_head ..).symm
    · exact Function.update_self ..
    · exact fun k hk => Function.update_of_ne hk ..
    · intro k' hk' t
      rw [hreb', hreb, due_cons_cons, List.mem_cons, heq]
      refine (or_iff_right fun hhead => ?_).symm
      exact hk' (congrArg Prod.fst hhead)
    · rw [Armed, hreb', List.head?_cons, Option.map_some]
      exact if_neg hpos

/-! ## Any callout -/

/-- A callout that is not the head stays pending. -/
theorem pending_of_ne {h : K} (hq : s.queue = (h, d) :: rest) (hne : h ≠ c)
    (hs : calloutDequeue s c = some s') : s'.state c = .kCalloutPending := by
  unfold calloutDequeue at hs
  split at hs
  · rename_i hp
    rw [hq] at hs
    dsimp only at hs
    rw [if_pos hne] at hs
    cases hs
    exact hp
  · cases hs

/-- **Cancelling.** For every queue with its timer armed for the head, and every callout in it:
`callout_dequeue` takes the callout out, disables it, and leaves the deadlines of the others and the timer
right, if and only if it is the head, and the time of its successor, if there is one, is positive, is at
least what remains of the head, and has a sum with it that is a word. -/
theorem callout_dequeue_iff (hp : s.state c = .kCalloutPending) (h : Armed s.toState)
    (hmem : c ∈ s.queue.map Prod.fst) (hnodup : (s.queue.map Prod.fst).Nodup) :
    (∃ s', calloutDequeue s c = some s' ∧ Cancels s c s') ↔
      ∃ d rest, s.queue = (c, d) :: rest ∧ ∀ co ∈ rest.head?,
        mdTimerGetRemaining s.toState ≤ co.2 ∧ 0 < co.2 ∧
          mdTimerGetRemaining s.toState + co.2 < 2 ^ 64 := by
  cases hq : s.queue with
  | nil =>
      rw [hq] at hmem
      cases hmem
  | cons co rest =>
      obtain ⟨j, d⟩ := co
      -- only the head is taken off, in the other branch the source does nothing
      by_cases hj : j = c
      · subst hj
        cases rest with
        | nil => exact iff_of_true (dequeue_last hp h hq) ⟨d, [], rfl, by simp⟩
        | cons co rest =>
            obtain ⟨k, n⟩ := co
            rw [dequeue_head hp h hq hnodup]
            constructor
            · intro hn
              refine ⟨d, (k, n) :: rest, rfl, fun co hco => ?_⟩
              cases hco
              exact hn
            · rintro ⟨d', rest', heq, hn⟩
              cases heq
              exact hn (k, n) rfl
      · refine iff_of_false ?_ ?_
        · rintro ⟨s', hs', hcancel⟩
          have hstill := pending_of_ne hq hj hs'
          rw [hcancel.disabled] at hstill
          cases hstill
        · rintro ⟨d', rest', heq, -⟩
          cases heq
          exact hj rfl

/-- Three callouts, with three nanoseconds left until the first. -/
def threePending : Callouts ℕ where
  queue := [(0, 5), (1, 7), (2, 4)]
  timer := some 3
  now := 0
  deadline := fun _ => 0
  fired := []
  state := fun _ => .kCalloutPending

/-- The first is cancelled. -/
theorem callout_dequeue_first : ∃ s', calloutDequeue threePending 0 = some s' ∧ Cancels threePending 0 s' := by
  have harmed : Armed threePending.toState := rfl
  refine (callout_dequeue_iff rfl harmed (by decide) (by decide)).mpr
    ⟨5, [(1, 7), (2, 4)], rfl, fun co hco => ?_⟩
  cases hco
  decide

/-- The second is not: it stays pending, and the third becomes due seven nanoseconds early. -/
theorem callout_dequeue_second : ¬ ∀ (s : Callouts ℕ) (c : ℕ), s.state c = .kCalloutPending →
    Armed s.toState → c ∈ s.queue.map Prod.fst → (s.queue.map Prod.fst).Nodup →
    ∃ s', calloutDequeue s c = some s' ∧ Cancels s c s' := by
  intro h
  obtain ⟨s', hs', hcancel⟩ := h threePending 1 rfl rfl (by decide) (by decide)
  have hstill := pending_of_ne rfl (by decide) hs'
  rw [hcancel.disabled] at hstill
  cases hstill

end Scalux.Callout
