import Scalux.Lib.Count
import Scalux.Kern.Mutex

/-! # Mutual exclusion of the kernel mutex

The right to the mutex is a **token** that exactly one thread can have: the thread woken or
admitted and about to set `owner`, the holder, and, while the mutex is passed on, the unlocker
that has cleared `owner` and still owes a wake-up.  `Inv` ties the token to the three words of the
mutex that are updated in separate steps: `count` is the number of contending threads, `owner`
names the holder, `waiters` lists the sleepers, and a wake-up in flight keeps `count` positive, so
that no newcomer is admitted meanwhile.

* **`inv_step`**: every atomic operation keeps `Inv`.
* **`mutex_exclusion`**: at most one thread holds the mutex and no owner assertion ever fails. -/

namespace Scalux.Mutex

section Phases

variable {T : Type*}

/-- The thread has raised `count` and not yet lowered it. -/
def Pc.contends : Pc T → Bool
  | .awaiting | .asleep | .handed | .woken | .acquiring | .held | .releasing => true
  | .idle | .waking | .resuming _ | .failed => false

/-- The thread has the right to the mutex or to pass it on. -/
def Pc.token : Pc T → Bool
  | .woken | .acquiring | .held | .releasing | .waking | .resuming _ => true
  | .idle | .awaiting | .asleep | .handed | .failed => false

end Phases

variable {tt : ThreadTable}

/-- The invariant tying `count`, `owner`, the wait queue and the wake-ups in flight. -/
structure Inv (s : State tt.Tid) : Prop where
  count_eq : s.count = numWith s.pc Pc.contends
  token_le : numWith s.pc Pc.token ≤ 1
  owner_iff : ∀ t, s.owner = some t ↔ s.pc t = .held
  mem_waiters : ∀ t, t ∈ s.waiters ↔ s.pc t = .asleep
  waiters_nodup : s.waiters.Nodup
  waking_pos : ∀ t, s.pc t = .waking → 0 < s.count
  resuming_handed : ∀ t w, s.pc t = .resuming w → s.pc w = .handed
  handed_resuming : ∀ w, s.pc w = .handed → ∃ t, s.pc t = .resuming w
  woken_success : ∀ t, s.pc t = .woken → s.wqres t = .kWQSuccess
  not_failed : ∀ t, s.pc t ≠ .failed

variable {s : State tt.Tid} {t u w : tt.Tid}

/-- The initial mutex satisfies the invariant. -/
theorem inv_init (wqres : tt.Tid → WaitqResult) : Inv (init wqres) where
  count_eq := (numWith_eq_zero fun _ => rfl).symm
  token_le := (numWith_eq_zero fun _ => rfl).le.trans (Nat.zero_le 1)
  owner_iff := by simp [init]
  mem_waiters := by simp [init]
  waiters_nodup := List.nodup_nil
  waking_pos := by simp [init]
  resuming_handed := by simp [init]
  handed_resuming := by simp [init]
  woken_success := by simp [init]
  not_failed := by simp [init]

/-- The counter is far from wrapping: it is at most the number of threads. -/
theorem Inv.count_lt (h : Inv s) : s.count < 2 ^ 19 := by
  have hle : numWith s.pc Pc.contends ≤ tt.n := by
    simpa only [Fintype.card_fin] using numWith_le_card (f := s.pc) (b := Pc.contends)
  exact lt_of_le_of_lt (h.count_eq ▸ hle) tt.n_lt

/-- Two threads with the token are the same thread. -/
theorem Inv.token_unique (h : Inv s) (ht : (s.pc t).token = true) (hu : (s.pc u).token = true) :
    t = u :=
  eq_of_numWith_le_one h.token_le ht hu

/-- A contending thread keeps `count` positive. -/
theorem Inv.count_pos (h : Inv s) (ht : (s.pc t).contends = true) : 0 < s.count :=
  h.count_eq ▸ numWith_pos ht

/-- A thread with the token keeps `count` positive, also while it only owes a wake-up. -/
theorem Inv.count_pos_of_token (h : Inv s) (ht : (s.pc t).token = true) : 0 < s.count := by
  cases hpc : s.pc t with
  | waking => exact h.waking_pos t hpc
  | resuming w => exact h.count_pos (t := w) (by rw [h.resuming_handed t w hpc]; rfl)
  | idle => rw [hpc] at ht; cases ht
  | awaiting => rw [hpc] at ht; cases ht
  | asleep => rw [hpc] at ht; cases ht
  | handed => rw [hpc] at ht; cases ht
  | failed => rw [hpc] at ht; cases ht
  | woken => exact h.count_pos (t := t) (by rw [hpc]; rfl)
  | acquiring => exact h.count_pos (t := t) (by rw [hpc]; rfl)
  | held => exact h.count_pos (t := t) (by rw [hpc]; rfl)
  | releasing => exact h.count_pos (t := t) (by rw [hpc]; rfl)

/-- With `count` at zero nobody has the token. -/
theorem Inv.token_eq_zero (h : Inv s) (h0 : s.count = 0) : numWith s.pc Pc.token = 0 := by
  refine numWith_eq_zero fun t => ?_
  rw [Bool.eq_false_iff]
  intro ht
  have := h.count_pos_of_token ht
  omega

/-- While some thread has the token, `owner` is set only if that thread is the holder. -/
theorem Inv.owner_eq_none (h : Inv s) (ht : (s.pc t).token = true) (hne : s.pc t ≠ .held) :
    s.owner = none := by
  rw [Option.eq_none_iff_forall_ne_some]
  intro u hu
  have hheld := (h.owner_iff u).mp hu
  have : t = u := h.token_unique ht (by rw [hheld]; rfl)
  exact hne (this ▸ hheld)

/-! ## One atomic operation

Most operations move one thread and change one word of the mutex.  `Inv.move` says what such a move
has to respect; the counts change as `numWith_update` says, and every other clause is about the
thread that moved or is unchanged. -/

/-- **One thread moves.** Thread `t` goes to `p`: `count` follows the contenders, the token is not
taken from nothing, `owner` and `waiters` follow `t`, and a count that drops is dropped by the
thread with the token. -/
theorem Inv.move (h : Inv s) {s' : State tt.Tid} {p : Pc tt.Tid}
    (hpc : s'.pc = Function.update s.pc t p)
    (hcount : s'.count + (s.pc t).contends.toNat = s.count + p.contends.toNat)
    (htoken : p.token = true → (s.pc t).token = true ∨ s.count = 0)
    (howner : ∀ u, s'.owner = some u ↔ if u = t then p = .held else s.owner = some u)
    (hwaiters : ∀ u, u ∈ s'.waiters ↔ if u = t then p = .asleep else u ∈ s.waiters)
    (hnodup : s'.waiters.Nodup)
    (hdrop : s.count ≤ s'.count ∨ (s.pc t).token = true)
    (hwaking : p = .waking → 0 < s'.count)
    (hwqres : s'.wqres = s.wqres)
    (hfrom : s.pc t ≠ .handed ∧ ∀ w, s.pc t ≠ .resuming w)
    (hto : p ≠ .handed ∧ (∀ w, p ≠ .resuming w) ∧ p ≠ .woken ∧ p ≠ .failed) : Inv s' := by
  have hcontends := numWith_update s.pc Pc.contends t p
  have htokens := numWith_update s.pc Pc.token t p
  -- a contender is counted, so the count cannot fall below zero
  have hpos : 0 < s.count ∨ (s.pc t).contends.toNat = 0 := by
    cases hc : (s.pc t).contends with
    | false => exact .inr rfl
    | true => exact .inl (h.count_pos hc)
  constructor
  case count_eq =>
    have := h.count_eq
    rw [hpc]
    omega
  -- the token is taken over from `t` itself, or there was none because nobody contended
  case token_le =>
    have hle := h.token_le
    rw [hpc]
    cases hp : p.token with
    | false => rw [hp, Bool.toNat_false] at htokens; omega
    | true =>
        rw [hp, Bool.toNat_true] at htokens
        rcases htoken hp with ht | h0
        · rw [ht, Bool.toNat_true] at htokens; omega
        · have := h.token_eq_zero h0; omega
  case owner_iff =>
    rw [hpc]
    exact iff_update (g := (· = Pc.held)) h.owner_iff howner
  case mem_waiters =>
    rw [hpc]
    exact iff_update (g := (· = Pc.asleep)) h.mem_waiters hwaiters
  case waiters_nodup => exact hnodup
  -- a thread on its way to wake somebody holds the token, so the count is not lowered under it
  case waking_pos =>
    intro u hu
    rw [hpc, Function.update_apply] at hu
    split at hu
    · exact hwaking hu
    · rename_i hut
      rcases hdrop with hle | ht
      · exact lt_of_lt_of_le (h.waking_pos u hu) hle
      · exact absurd (h.token_unique (by rw [hu]; rfl) ht) hut
  case resuming_handed =>
    intro u w hu
    rw [hpc, Function.update_apply] at hu
    split at hu
    · exact absurd hu (hto.2.1 w)
    · have hw := h.resuming_handed u w hu
      have hwt : w ≠ t := fun hwt => hfrom.1 (hwt ▸ hw)
      rw [hpc, Function.update_of_ne hwt]
      exact hw
  case handed_resuming =>
    intro w hw
    rw [hpc, Function.update_apply] at hw
    split at hw
    · exact absurd hw hto.1
    · obtain ⟨u, hu⟩ := h.handed_resuming w hw
      have hut : u ≠ t := fun hut => hfrom.2 w (hut ▸ hu)
      exact ⟨u, by rw [hpc, Function.update_of_ne hut]; exact hu⟩
  case woken_success =>
    intro u hu
    rw [hpc, Function.update_apply] at hu
    split at hu
    · exact absurd hu hto.2.2.1
    · rw [hwqres]; exact h.woken_success u hu
  case not_failed =>
    intro u hu
    rw [hpc, Function.update_apply] at hu
    split at hu
    · exact hto.2.2.2 hu
    · exact h.not_failed u hu

/-- `owner` and `waiters` of a thread that neither holds nor sleeps follow a move to a program
counter of the same kind. -/
theorem Inv.owner_unmoved (h : Inv s) (hold : s.pc t ≠ .held) {p : Pc tt.Tid} (hp : p ≠ .held)
    (u : tt.Tid) : s.owner = some u ↔ if u = t then p = .held else s.owner = some u := by
  by_cases hu : u = t
  · rw [if_pos hu, hu, h.owner_iff t]
    exact iff_of_false hold hp
  · rw [if_neg hu]

/-- The wait queue follows a move between program counters that are both not asleep. -/
theorem Inv.waiters_unmoved (h : Inv s) (hold : s.pc t ≠ .asleep) {p : Pc tt.Tid}
    (hp : p ≠ .asleep) (u : tt.Tid) :
    u ∈ s.waiters ↔ if u = t then p = .asleep else u ∈ s.waiters := by
  by_cases hu : u = t
  · rw [if_pos hu, hu, h.mem_waiters t]
    exact iff_of_false hold hp
  · rw [if_neg hu]

/-- The owner follows a move to or from holding when there is no other one. -/
theorem owner_moved {o : Option tt.Tid} {p : Pc tt.Tid} (ho : o = if p = .held then some t else none)
    (hs : s.owner = none ∨ s.owner = some t) (u : tt.Tid) :
    o = some u ↔ if u = t then p = .held else s.owner = some u := by
  by_cases hu : u = t
  · simp [hu, ho]
  · rcases hs with hs | hs <;> simp [hu, ho, hs, Ne.symm hu]

/-- `mutex_lock`'s increment: the first contender gets the token, a later one goes to wait. -/
theorem inv_lockCount (h : Inv s) (hpc : s.pc t = .idle) : Inv (lockCount s t) := by
  have hlt := h.count_lt
  have hmod : (s.count + 1) % 2 ^ 32 = s.count + 1 := Nat.mod_eq_of_lt (by omega)
  -- the increment found the mutex held, or it takes it
  by_cases h1 : 1 ≤ s.count
  · have heq : lockCount s t = { s with
        count := s.count + 1, pc := Function.update s.pc t .awaiting } := by
      simp only [lockCount, if_pos h1, hmod]
    rw [heq]
    refine h.move (t := t) (p := .awaiting) rfl ?_ ?_ ?_ ?_ h.waiters_nodup ?_ ?_ rfl ?_ ?_
    case refine_1 => rw [hpc]; rfl
    case refine_2 => exact fun hp => by cases hp
    case refine_3 => exact h.owner_unmoved (by simp [hpc]) (by simp)
    case refine_4 => exact h.waiters_unmoved (by simp [hpc]) (by simp)
    case refine_5 => exact .inl (Nat.le_succ _)
    all_goals simp [hpc]
  · have heq : lockCount s t = { s with
        count := s.count + 1, pc := Function.update s.pc t .acquiring } := by
      simp only [lockCount, if_neg h1, hmod]
    rw [heq]
    refine h.move (t := t) (p := .acquiring) rfl ?_ ?_ ?_ ?_ h.waiters_nodup ?_ ?_ rfl ?_ ?_
    case refine_1 => rw [hpc]; rfl
    case refine_2 => exact fun _ => .inr (by omega)
    case refine_3 => exact h.owner_unmoved (by simp [hpc]) (by simp)
    case refine_4 => exact h.waiters_unmoved (by simp [hpc]) (by simp)
    case refine_5 => exact .inl (Nat.le_succ _)
    all_goals simp [hpc]

/-- The insertion into the wait queue. -/
theorem inv_await (h : Inv s) (hpc : s.pc t = .awaiting) : Inv (await s t) := by
  have hnot : t ∉ s.waiters := by rw [h.mem_waiters t, hpc]; simp
  refine h.move (t := t) (p := .asleep) rfl ?_ ?_ ?_ ?_ ?_ ?_ ?_ rfl ?_ ?_
  case refine_1 => rw [hpc]; rfl
  case refine_2 => exact fun hp => by cases hp
  case refine_3 => exact h.owner_unmoved (by simp [hpc]) (by simp)
  case refine_4 =>
    intro u
    by_cases hu : u = t <;> simp [await, hu]
  case refine_5 =>
    exact List.nodup_append.mpr ⟨h.waiters_nodup, List.nodup_singleton t, by
      intro a ha b hb hab
      rw [List.mem_singleton.mp hb] at hab
      exact hnot (hab ▸ ha)⟩
  case refine_6 => exact .inl le_rfl
  all_goals simp [hpc]

/-- `waitq_await` returns: it returns `kWQSuccess`, so the thread goes on to set `owner`. -/
theorem inv_awaitReturn (h : Inv s) (hpc : s.pc t = .woken) : Inv (awaitReturn s t) := by
  unfold awaitReturn
  rw [if_pos (h.woken_success t hpc)]
  refine h.move (t := t) (p := .acquiring) rfl ?_ ?_ ?_ ?_ h.waiters_nodup ?_ ?_ rfl ?_ ?_
  case refine_1 => rw [hpc]; rfl
  case refine_2 => exact fun _ => .inl (by rw [hpc]; rfl)
  case refine_3 => exact h.owner_unmoved (by simp [hpc]) (by simp)
  case refine_4 => exact h.waiters_unmoved (by simp [hpc]) (by simp)
  case refine_5 => exact .inl le_rfl
  all_goals simp [hpc]

/-- `mutex_lock`'s compare-exchange succeeds: the thread has the token and nobody holds. -/
theorem inv_lockOwner (h : Inv s) (hpc : s.pc t = .acquiring) : Inv (lockOwner s t) := by
  have hnone : s.owner = none := h.owner_eq_none (t := t) (by rw [hpc]; rfl) (by simp [hpc])
  unfold lockOwner
  rw [if_pos hnone]
  refine h.move (t := t) (p := .held) rfl ?_ ?_ ?_ ?_ h.waiters_nodup ?_ ?_ rfl ?_ ?_
  case refine_1 => rw [hpc]; rfl
  case refine_2 => exact fun _ => .inl (by rw [hpc]; rfl)
  case refine_3 => exact owner_moved (if_pos rfl).symm (.inl hnone)
  case refine_4 => exact h.waiters_unmoved (by simp [hpc]) (by simp)
  case refine_5 => exact .inl le_rfl
  all_goals simp [hpc]

/-- `mutex_unlock`'s compare-exchange succeeds: the thread is the holder. -/
theorem inv_unlockOwner (h : Inv s) (hpc : s.pc t = .held) : Inv (unlockOwner s t) := by
  have hown : s.owner = some t := (h.owner_iff t).mpr hpc
  unfold unlockOwner
  rw [if_pos hown]
  refine h.move (t := t) (p := .releasing) rfl ?_ ?_ ?_ ?_ h.waiters_nodup ?_ ?_ rfl ?_ ?_
  case refine_1 => rw [hpc]; rfl
  case refine_2 => exact fun _ => .inl (by rw [hpc]; rfl)
  case refine_3 => exact owner_moved (if_neg nofun).symm (.inr hown)
  case refine_4 => exact h.waiters_unmoved (by simp [hpc]) (by simp)
  case refine_5 => exact .inl le_rfl
  all_goals simp [hpc]

/-- `mutex_unlock`'s decrement: the token is given up with the last contender, or kept for the
wake-up the others are owed. -/
theorem inv_unlockCount (h : Inv s) (hpc : s.pc t = .releasing) : Inv (unlockCount s t) := by
  have hlt := h.count_lt
  have hpos : 0 < s.count := h.count_pos (t := t) (by rw [hpc]; rfl)
  have hmod : (s.count + (2 ^ 32 - 1)) % 2 ^ 32 = s.count - 1 := by omega
  -- somebody waits when more than the owner is counted
  by_cases h1 : 1 < s.count
  · have heq : unlockCount s t = { s with
        count := s.count - 1, pc := Function.update s.pc t .waking } := by
      simp only [unlockCount, if_pos h1, hmod]
    rw [heq]
    refine h.move (t := t) (p := .waking) rfl ?_ ?_ ?_ ?_ h.waiters_nodup ?_ ?_ rfl ?_ ?_
    case refine_1 => rw [hpc]; exact Nat.sub_add_cancel hpos
    case refine_2 => exact fun _ => .inl (by rw [hpc]; rfl)
    case refine_3 => exact h.owner_unmoved (by simp [hpc]) (by simp)
    case refine_4 => exact h.waiters_unmoved (by simp [hpc]) (by simp)
    case refine_5 => exact .inr (by rw [hpc]; rfl)
    case refine_6 => exact fun _ => Nat.sub_pos_of_lt h1
    all_goals simp [hpc]
  · have heq : unlockCount s t = { s with
        count := s.count - 1, pc := Function.update s.pc t .idle } := by
      simp only [unlockCount, if_neg h1, hmod]
    rw [heq]
    refine h.move (t := t) (p := .idle) rfl ?_ ?_ ?_ ?_ h.waiters_nodup ?_ ?_ rfl ?_ ?_
    case refine_1 => rw [hpc]; exact Nat.sub_add_cancel hpos
    case refine_2 => exact fun hp => by cases hp
    case refine_3 => exact h.owner_unmoved (by simp [hpc]) (by simp)
    case refine_4 => exact h.waiters_unmoved (by simp [hpc]) (by simp)
    case refine_5 => exact .inr (by rw [hpc]; rfl)
    all_goals simp [hpc]

/-- The removal in `waitq_wake_one`: the first waiter is handed to the waker; with an empty queue
the token is given up. -/
theorem inv_wakeRemove (h : Inv s) (hpc : s.pc t = .waking) : Inv (wakeRemove s t) := by
  unfold wakeRemove
  cases hw : s.waiters with
  | nil =>
      dsimp only
      refine h.move (t := t) (p := .idle) rfl ?_ ?_ ?_ ?_ (hw ▸ h.waiters_nodup) ?_ ?_ rfl ?_ ?_
      case refine_1 => rw [hpc]; rfl
      case refine_2 => exact fun hp => by cases hp
      case refine_3 => exact h.owner_unmoved (by simp [hpc]) (by simp)
      case refine_4 => exact hw ▸ h.waiters_unmoved (by simp [hpc]) (by simp)
      case refine_5 => exact .inl le_rfl
      all_goals simp [hpc]
  | cons w rest =>
      have hwpc : s.pc w = .asleep := (h.mem_waiters w).mp (by simp [hw])
      have hne : w ≠ t := by rintro rfl; rw [hpc] at hwpc; cases hwpc
      have hnd := hw ▸ h.waiters_nodup
      -- both moves keep the number of contenders; the token stays with the waker
      have hc := numWith_update_update s.pc Pc.contends hne .handed (.resuming w)
      have ht := numWith_update_update s.pc Pc.token hne .handed (.resuming w)
      simp only [hpc, hwpc, Pc.contends, Pc.token, Bool.toNat_false, Bool.toNat_true] at hc ht
      have hcount := h.count_eq
      have htok := h.token_le
      constructor
      case count_eq => dsimp only; omega
      case token_le => dsimp only; omega
      case owner_iff => intro u; have := h.owner_iff u; grind
      case mem_waiters => intro u; have := h.mem_waiters u; grind
      case waiters_nodup => exact (List.nodup_cons.mp hnd).2
      case waking_pos => intro u; have := h.waking_pos u; grind
      case resuming_handed => intro u v; have := h.resuming_handed u v; grind
      case handed_resuming =>
        intro v hv
        by_cases hvw : v = w
        · exact ⟨t, by simp [hvw]⟩
        · have hvold : s.pc v = .handed := by grind
          obtain ⟨u, hu⟩ := h.handed_resuming v hvold
          exact ⟨u, by grind⟩
      case woken_success => intro u; have := h.woken_success u; grind
      case not_failed => intro u; have := h.not_failed u; grind

/-- `thread_resume` of the waiter: the token passes from the waker to the thread it woke. -/
theorem inv_wakeResume (h : Inv s) (hpc : s.pc t = .resuming w) : Inv (wakeResume s t w) := by
  have hwpc : s.pc w = .handed := h.resuming_handed t w hpc
  have hne : w ≠ t := by rintro rfl; rw [hpc] at hwpc; cases hwpc
  have hc := numWith_update_update s.pc Pc.contends hne .woken .idle
  have ht := numWith_update_update s.pc Pc.token hne .woken .idle
  simp only [hpc, hwpc, Pc.contends, Pc.token, Bool.toNat_false, Bool.toNat_true] at hc ht
  have hcount := h.count_eq
  have htok := h.token_le
  unfold wakeResume
  constructor
  case count_eq => dsimp only; omega
  case token_le => dsimp only; omega
  case owner_iff => intro u; have := h.owner_iff u; grind
  case mem_waiters => intro u; have := h.mem_waiters u; grind
  case waiters_nodup => exact h.waiters_nodup
  case waking_pos => intro u; have := h.waking_pos u; grind
  case resuming_handed =>
    intro u v hu
    -- another waker would have the token as well
    have hut : u = t := by
      by_contra hut
      have hold : s.pc u = .resuming v := by grind
      exact hut (h.token_unique (by rw [hold]; rfl) (by rw [hpc]; rfl))
    grind
  case handed_resuming =>
    intro v hv
    have hvw : v ≠ w := by rintro rfl; grind
    obtain ⟨u, hu⟩ := h.handed_resuming v (by grind)
    exact ⟨u, by grind⟩
  case woken_success => intro u; have := h.woken_success u; grind
  case not_failed => intro u; have := h.not_failed u; grind

/-- Every atomic operation keeps the invariant. -/
theorem inv_step {s' : State tt.Tid} (h : Inv s) (hs : step s t = some s') : Inv s' := by
  unfold step at hs
  cases hpc : s.pc t with
  | idle => rw [hpc] at hs; cases hs; exact inv_lockCount h hpc
  | awaiting => rw [hpc] at hs; cases hs; exact inv_await h hpc
  | asleep => rw [hpc] at hs; cases hs
  | handed => rw [hpc] at hs; cases hs
  | woken => rw [hpc] at hs; cases hs; exact inv_awaitReturn h hpc
  | acquiring => rw [hpc] at hs; cases hs; exact inv_lockOwner h hpc
  | held => rw [hpc] at hs; cases hs; exact inv_unlockOwner h hpc
  | releasing => rw [hpc] at hs; cases hs; exact inv_unlockCount h hpc
  | waking => rw [hpc] at hs; cases hs; exact inv_wakeRemove h hpc
  | resuming w => rw [hpc] at hs; cases hs; exact inv_wakeResume h hpc
  | failed => rw [hpc] at hs; cases hs

/-- The invariant holds in every state any interleaving reaches. -/
theorem inv_reach {cond : State tt.Tid → tt.Tid → Prop} {wqres : tt.Tid → WaitqResult}
    (h : (machine tt.Tid).Reach cond (init wqres) s) : Inv s :=
  h.invariant (inv_init wqres) fun _ _ _ hi _ hs => inv_step hi hs

/-- **Mutual exclusion.** In every interleaving of the atomic operations of any number of threads,
at most one thread is between the return of `mutex_lock` and its `mutex_unlock`, and no owner
compare-exchange assertion (nor the `fatal` after a wait) has failed. -/
theorem mutex_exclusion (wqres : tt.Tid → WaitqResult)
    (h : (machine tt.Tid).Reachable (init wqres) s) :
    (∀ t u, s.pc t = .held → s.pc u = .held → t = u) ∧ ∀ t, s.pc t ≠ .failed := by
  have hinv := inv_reach h
  refine ⟨fun t u ht hu => ?_, hinv.not_failed⟩
  exact hinv.token_unique (by rw [ht]; rfl) (by rw [hu]; rfl)

/-- A run of two threads in which the second waits, is woken and gets the mutex. -/
theorem mutex_exclusion_handover :
    ∃ s, (machine ThreadTable.two.Tid).exec (init fun _ => .kWQTimeout)
        [0, 0, 1, 1, 0, 0, 0, 0, 1, 1] = some s ∧ s.pc 1 = .held ∧
      (∀ t u, s.pc t = .held → s.pc u = .held → t = u) ∧ ∀ t, s.pc t ≠ .failed := by
  refine ⟨_, rfl, rfl, ?_⟩
  exact mutex_exclusion _ (Machine.reachable_of_exec
    (l := [0, 0, 1, 1, 0, 0, 0, 0, 1, 1]) rfl)

end Scalux.Mutex
