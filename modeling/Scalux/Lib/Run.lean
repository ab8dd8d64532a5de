import Mathlib.Algebra.NeZero
import Mathlib.Data.Option.Basic
import Mathlib.Data.List.Forall2
import Mathlib.Logic.Relation

/-! # Partial step machines and their finite runs

A `Machine` is a partial step function on states: the action names the next step together with
every choice the environment makes for it (which thread runs, which page the allocator returns),
and `none` means that the step is not enabled or stops the system.  All nondeterminism sits in the
action, so a finite run is a list of actions and every interleaving is such a list.

* **`Machine.exec`** runs a list of actions; it computes, so a concrete run can be evaluated.
* **`Machine.Reach cond s₀ s`**: `s` is reached from `s₀` by a run all of whose steps meet `cond`.
* **`Machine.Reach.invariant`**: what holds initially and is kept by every such step holds in every
  state reached.
* **`Machine.Trace`** is a run with the list of its actions, and **`Machine.Trace.simulates`** the rule
  that relates it to a run of another transition system.
* **`not_deadlock_of_rank`**: no cycle of threads each of which waits for a mutex that the next one has, if a
  rank of the threads grows from each thread that waits to the one it waits for, where the latter waits as
  well. -/

namespace Scalux

/-- A partial step function on states `σ`; actions `α` carry every choice of the environment. -/
structure Machine (σ : Type*) (α : Type*) where
  /-- One step; `none` when the action is not enabled or stops the system. -/
  step : σ → α → Option σ

namespace Machine

variable {σ α : Type*} (M : Machine σ α)

/-- Run a list of actions from left to right. -/
def exec : σ → List α → Option σ
  | s, [] => some s
  | s, a :: as => (M.step s a).bind fun t => exec t as

/-- No action. -/
@[simp] theorem exec_nil (s : σ) : M.exec s [] = some s := rfl

/-- The first action, then the rest. -/
@[simp] theorem exec_cons (s : σ) (a : α) (as : List α) :
    M.exec s (a :: as) = (M.step s a).bind fun t => M.exec t as := rfl

/-- `M.Reach cond s₀ s`: a finite run from `s₀` ends in `s`, and each of its steps is taken in a
state that meets `cond` for the action taken. -/
inductive Reach (cond : σ → α → Prop) (s₀ : σ) : σ → Prop
  | init : Reach cond s₀ s₀
  | step {s s' : σ} {a : α} : Reach cond s₀ s → cond s a → M.step s a = some s' →
      Reach cond s₀ s'

/-- Reachability by a run with no condition on its steps. -/
abbrev Reachable (s₀ s : σ) : Prop := M.Reach (fun _ _ => True) s₀ s

variable {M} {cond : σ → α → Prop} {s₀ s s' : σ}

/-- **The invariant rule.** A predicate that holds initially and is kept by every step that meets
the condition holds in every state reached. -/
theorem Reach.invariant {I : σ → Prop} (h : M.Reach cond s₀ s) (h₀ : I s₀)
    (hstep : ∀ s a s', I s → cond s a → M.step s a = some s' → I s') : I s := by
  induction h with
  | init => exact h₀
  | step _ hc hs ih => exact hstep _ _ _ ih hc hs

/-- Weakening the condition keeps a run. -/
theorem Reach.mono {cond' : σ → α → Prop} (h : M.Reach cond s₀ s)
    (hc : ∀ s a, cond s a → cond' s a) : M.Reach cond' s₀ s := by
  induction h with
  | init => exact .init
  | step _ hcond hs ih => exact .step ih (hc _ _ hcond) hs

/-- Runs compose. -/
theorem Reach.trans (h : M.Reach cond s₀ s) (h' : M.Reach cond s s') : M.Reach cond s₀ s' := by
  induction h' with
  | init => exact h
  | step _ hc hs ih => exact .step ih hc hs

/-- What `exec` computes is reachable. -/
theorem reachable_of_exec {l : List α} (h : M.exec s₀ l = some s) : M.Reachable s₀ s := by
  induction l generalizing s₀ with
  | nil =>
      obtain rfl : s₀ = s := by simpa using h
      exact .init
  | cons a as ih =>
      rw [exec_cons, Option.bind_eq_some_iff] at h
      obtain ⟨t, hst, ht⟩ := h
      exact (Reach.step .init trivial hst).trans (ih ht)

/-- The condition a run meets, evaluated along the run. -/
def meets (M : Machine σ α) (cond : σ → α → Bool) : σ → List α → Bool
  | _, [] => true
  | s, a :: as => cond s a && ((M.step s a).elim true fun t => meets M cond t as)

/-- A run that `exec` computes and whose steps `meets` accepts is a run under the condition. -/
theorem reach_of_exec {c : σ → α → Bool} (hc : ∀ s a, c s a = true → cond s a) {l : List α}
    (hm : M.meets c s₀ l = true) (h : M.exec s₀ l = some s) : M.Reach cond s₀ s := by
  induction l generalizing s₀ with
  | nil =>
      obtain rfl : s₀ = s := by simpa using h
      exact .init
  | cons a as ih =>
      rw [exec_cons, Option.bind_eq_some_iff] at h
      obtain ⟨t, hst, ht⟩ := h
      rw [meets, Bool.and_eq_true, hst] at hm
      exact (Reach.step .init (hc _ _ hm.1) hst).trans (ih hm.2 ht)

variable (M)

/-- A run with its actions, each taken in a state that meets `cond` for it. -/
inductive Trace (cond : σ → α → Prop) : σ → List α → σ → Prop
  | nil (s : σ) : Trace cond s [] s
  | cons {s t s' : σ} {a : α} {l : List α} (hc : cond s a) (hs : M.step s a = some t)
      (h : Trace cond t l s') : Trace cond s (a :: l) s'

/-- A run of a transition relation with its labels. -/
inductive Path {τ β : Type*} (step : τ → β → τ → Prop) : τ → List β → τ → Prop
  | nil (t : τ) : Path step t [] t
  | cons {t u t' : τ} {b : β} {l : List β} (hs : step t b u) (h : Path step u l t') :
      Path step t (b :: l) t'

variable {M}

/-- **The simulation rule.** If every step from a related pair is matched by a step with a label that
it shows, then every run is matched by a run. -/
theorem Trace.simulates {τ β : Type*} {step : τ → β → τ → Prop} {R : σ → τ → Prop}
    {shows : α → β → Prop}
    (hstep : ∀ s a s' t, R s t → cond s a → M.step s a = some s' →
      ∃ b t', shows a b ∧ step t b t' ∧ R s' t')
    {l : List α} {t : τ} (h : M.Trace cond s l s') (hR : R s t) :
    ∃ l' t', List.Forall₂ shows l l' ∧ Path step t l' t' ∧ R s' t' := by
  induction h generalizing t with
  | nil s => exact ⟨[], t, .nil, .nil t, hR⟩
  | cons hc hs _ ih =>
      obtain ⟨b, u, hb, hu, hRu⟩ := hstep _ _ _ _ hR hc hs
      obtain ⟨l', t', hl', ht', hRt'⟩ := ih hRu
      exact ⟨b :: l', t', .cons hb hl', .cons hu ht', hRt'⟩

/-- A run that `exec` computes and whose steps `meets` accepts is a run with these actions. -/
theorem trace_of_exec {c : σ → α → Bool} (hc : ∀ s a, c s a = true → cond s a) {l : List α}
    (hm : M.meets c s₀ l = true) (h : M.exec s₀ l = some s) : M.Trace cond s₀ l s := by
  induction l generalizing s₀ with
  | nil =>
      obtain rfl : s₀ = s := by simpa using h
      exact .nil _
  | cons a as ih =>
      rw [exec_cons, Option.bind_eq_some_iff] at h
      obtain ⟨t, hst, ht⟩ := h
      rw [meets, Bool.and_eq_true, hst] at hm
      exact .cons (hc _ _ hm.1) hst (ih hm.2 ht)

end Machine

/-- A loop over a list keeps what each of its iterations keeps. -/
theorem foldlM_invariant {σ α : Type*} {f : σ → α → Option σ} {P : σ → Prop} {l : List α} {s s' : σ}
    (h : l.foldlM f s = some s') (h₀ : P s)
    (hstep : ∀ s, ∀ a ∈ l, ∀ s', P s → f s a = some s' → P s') : P s' := by
  induction l generalizing s with
  | nil =>
      obtain rfl : s = s' := Option.some.inj h
      exact h₀
  | cons a l ih =>
      rw [List.foldlM_cons] at h
      obtain ⟨t, hst, ht⟩ := Option.bind_eq_some_iff.mp h
      exact ih ht (hstep s a List.mem_cons_self t h₀ hst)
        fun s b hb => hstep s b (List.mem_cons_of_mem a hb)

/-- A loop over a list returns only if each of its iterations does. -/
theorem foldlM_returns {σ α : Type*} {f : σ → α → Option σ} {l : List α} {s s' : σ}
    (h : l.foldlM f s = some s') : ∀ a ∈ l, ∃ t t', f t a = some t' := by
  induction l generalizing s with
  | nil => simp
  | cons a l ih =>
      rw [List.foldlM_cons] at h
      obtain ⟨t, hst, ht⟩ := Option.bind_eq_some_iff.mp h
      intro b hb
      rcases List.mem_cons.mp hb with rfl | hb
      · exact ⟨s, t, hst⟩
      · exact ih ht b hb

/-! ## Literals of concrete runs

`Fin 2` and `Fin 4` name the CPUs and the threads of concrete runs. -/

instance neZeroTwo : @NeZero ℕ Zero.ofOfNat0 2 := ⟨Nat.succ_ne_zero 1⟩

instance neZeroFour : @NeZero ℕ Zero.ofOfNat0 4 := ⟨Nat.succ_ne_zero 3⟩

/-! ## Threads that wait for mutexes

A mutex has at most one owner, and a thread stands before at most one mutex that it has to lock next.
A thread waits for the owner of the mutex before which it stands. -/

section Waiting

variable {T L : Type*} {owner : L → Option T} {wants : T → Option L}

/-- The thread `t` waits for a mutex that `u` has. -/
def WaitsFor (owner : L → Option T) (wants : T → Option L) (t u : T) : Prop :=
  ∃ l, wants t = some l ∧ owner l = some u

/-- A cycle of threads each waiting for a mutex that the next one has. -/
def Deadlock (owner : L → Option T) (wants : T → Option L) : Prop :=
  ∃ t, Relation.TransGen (WaitsFor owner wants) t t

/-- Along a chain of waiting threads the rank grows. -/
theorem rank_lt_of_transGen {rank : T → ℕ}
    (h : ∀ t u, WaitsFor owner wants t u → wants u ≠ none → rank t < rank u) {t u : T}
    (hchain : Relation.TransGen (WaitsFor owner wants) t u) (hu : wants u ≠ none) :
    rank t < rank u := by
  induction hchain using Relation.TransGen.head_induction_on with
  | single hwait => exact h _ _ hwait hu
  | head hwait hchain ih =>
      obtain ⟨d, ⟨l, hl, -⟩, -⟩ := Relation.TransGen.head'_iff.mp hchain
      exact Nat.lt_trans (h _ _ hwait (hl ▸ Option.some_ne_none l)) ih

/-- **The rank rule.** No cycle if the rank grows along it. -/
theorem not_deadlock_of_rank (rank : T → ℕ)
    (h : ∀ t u, WaitsFor owner wants t u → wants u ≠ none → rank t < rank u) :
    ¬ Deadlock owner wants := by
  rintro ⟨t, hcycle⟩
  have hwaits : wants t ≠ none := by
    obtain ⟨d, ⟨l, hl, -⟩, -⟩ := Relation.TransGen.head'_iff.mp hcycle
    exact hl ▸ Option.some_ne_none l
  exact Nat.lt_irrefl _ (rank_lt_of_transGen h hcycle hwaits)

end Waiting

end Scalux
