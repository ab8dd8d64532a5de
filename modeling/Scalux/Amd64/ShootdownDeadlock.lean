import Scalux.Amd64.ShootdownRounds

/-! # Two CPUs that invalidate at once

`pmap_global_invlpg` turns interrupts off before it spins on `invlpg_global_lock`, so a CPU that
spins takes no IPI, and the CPU that has the lock keeps it until all others have taken theirs.  A
CPU may spin only if the one that has the lock has its acknowledgement already, and two CPUs may not
spin at once, since the one that gets the lock will wait for the other.

* **`shootdown_no_deadlock`**: under this condition on the calls no initiator waits for a CPU that
  spins.
* **`shootdown_deadlock`**: two calls that overlap. -/

namespace Scalux.Shootdown

variable {C : Type*} {cfg : Cpus C} {s s' : State C} {c d i : C} {v : ℕ} {rest : List C}

/-- Spins on `invlpg_global_lock`. -/
def Pc.spins : Pc C → Bool
  | .spin .. => true
  | .out | .locked .. | .addrSet .. | .send .. | .wait .. | .done .. | .unlocked .. => false

/-- The CPUs that the one at this point is still going to send an IPI to, itself left aside. -/
def Pc.toTell (cfg : Cpus C) : Pc C → List C
  | .locked .. | .addrSet .. => cfg.cpus
  | .send _ _ rest => rest
  | .out | .spin .. | .wait .. | .done .. | .unlocked .. => []

/-- The CPU `i` waits for the acknowledgement of the CPU `c`. -/
def WaitsFor (s : State C) (i c : C) : Prop :=
  (∃ v iff, (s.cpu i).pc = .wait v iff) ∧ 0 < load (s.cpu c)

/-- No CPU waits for one that spins with interrupts off. -/
def NoDeadlock (s : State C) : Prop :=
  ∀ i c, WaitsFor s i c → ¬ ((s.cpu c).pc.spins = true ∧ (s.cpu c).intr = false)

/-- The condition on a step: a CPU that calls `pmap_global_invlpg` finds no other CPU spinning, and
the CPU that has the lock has sent it its IPI and got the acknowledgement. -/
def Answered (cfg : Cpus C) (s : State C) : Action C → Prop
  | .pmapGlobalInvlpg c _ => (∀ d ∈ cfg.cpus, (s.cpu d).pc.spins = false) ∧
      ∀ i ∈ s.lock, c ∉ (s.cpu i).pc.toTell cfg ∧ load (s.cpu c) = 0
  | _ => True

instance [DecidableEq C] (s : State C) : (a : Action C) → Decidable (Answered cfg s a)
  | .pmapGlobalInvlpg c _ => inferInstanceAs (Decidable
      ((∀ d ∈ cfg.cpus, (s.cpu d).pc.spins = false) ∧
        ∀ i ∈ s.lock, c ∉ (s.cpu i).pc.toTell cfg ∧ load (s.cpu c) = 0))
  | .next _ | .interrupt _ | .handle _ | .mdIntr .. => .isTrue trivial

/-- At most one CPU spins, and it has answered the CPU that has the lock. -/
structure Spinning (cfg : Cpus C) (s : State C) : Prop where
  unique : ∀ c d, (s.cpu c).pc.spins = true → (s.cpu d).pc.spins = true → c = d
  answered : ∀ c i, (s.cpu c).pc.spins = true → s.lock = some i →
    c ∉ (s.cpu i).pc.toTell cfg ∧ load (s.cpu c) = 0

/-- A CPU that waits has the lock. -/
theorem Spinning.noDeadlock [Fintype C] [DecidableEq C] (h : Spinning cfg s) (hinv : Inv cfg s) :
    NoDeadlock s := by
  rintro i c ⟨⟨v, iff, hpc⟩, hload⟩ ⟨hspins, -⟩
  have hlock : s.lock = some i := (hinv.lock_iff i).mpr (by rw [hpc]; rfl)
  have hzero := (h.answered c i hspins hlock).2
  omega

/-- Nobody starts to spin and nobody is told while he spins. -/
theorem Spinning.frame (h : Spinning cfg s)
    (hspins : ∀ d, (s'.cpu d).pc.spins = true → (s.cpu d).pc.spins = true)
    (hlock : ∀ i, s'.lock = some i → s.lock = some i ∧
      ∀ d ∈ (s'.cpu i).pc.toTell cfg, d ∈ (s.cpu i).pc.toTell cfg)
    (hload : ∀ d, (s'.cpu d).pc.spins = true → load (s'.cpu d) ≤ load (s.cpu d)) :
    Spinning cfg s' where
  unique c d hc hd := h.unique c d (hspins c hc) (hspins d hd)
  answered c i hc hi := by
    obtain ⟨hlock', hsub⟩ := hlock i hi
    obtain ⟨hnot, hzero⟩ := h.answered c i (hspins c hc) hlock'
    have := hload c hc
    exact ⟨fun hmem => hnot (hsub c hmem), by omega⟩

variable [DecidableEq C]

/-- One CPU changes. -/
theorem Spinning.setCpu (h : Spinning cfg s) {x : Cpu C}
    (hcpu : s'.cpu = Function.update s.cpu c x)
    (hspins : x.pc.spins = true → (s.cpu c).pc.spins = true)
    (hlock : ∀ i, s'.lock = some i → s.lock = some i)
    (htell : ∀ d ∈ x.pc.toTell cfg, d ∈ (s.cpu c).pc.toTell cfg)
    (hload : load x ≤ load (s.cpu c)) : Spinning cfg s' := by
  -- only the CPU that moved can have changed what is spun on, told or loaded
  refine h.frame (fun d hd => ?_) (fun i hi => ⟨hlock i hi, fun d hd => ?_⟩) fun d _ => ?_
  · rw [hcpu, Function.update_apply] at hd
    split at hd
    · rename_i heq
      rw [heq]
      exact hspins hd
    · exact hd
  · rw [hcpu, Function.update_apply] at hd
    split at hd
    · rename_i heq
      rw [heq]
      exact htell d hd
    · exact hd
  · rw [hcpu, Function.update_apply]
    split
    · rename_i heq
      rw [heq]
      exact hload
    · exact Nat.le_refl _

/-- The CPU that spins gets the lock; no other one spins then. -/
theorem spinning_lock (h : Spinning cfg s) {iff : Bool} (hpc : (s.cpu c).pc = .spin v iff) :
    Spinning cfg (Shootdown.setCpu { s with lock := some c, round := s.round + 1 } c
      { s.cpu c with pc := .locked v iff }) := by
  have hnone : ∀ d, ((Function.update s.cpu c { s.cpu c with pc := .locked v iff }) d).pc.spins
      ≠ true := by
    intro d hd
    rw [Function.update_apply] at hd
    split at hd
    · cases hd
    · rename_i hne
      exact hne (h.unique d c hd (by rw [hpc]; rfl))
  exact ⟨fun d _ hd => absurd hd (hnone d), fun d _ hd => absurd hd (hnone d)⟩

/-- An IPI is sent to a CPU that does not spin. -/
theorem spinning_send (h : Spinning cfg s) {iff : Bool}
    (hpc : (s.cpu c).pc = .send v iff (d :: rest)) (hlock : s.lock = some c) :
    Spinning cfg (mdIpiInvlpg
      (Shootdown.setCpu s c { s.cpu c with pc := .send v iff rest }) d) := by
  -- first the program counter of the sender, then the interrupt that arrives at `d`
  have hmoved : Spinning cfg (Shootdown.setCpu s c { s.cpu c with pc := .send v iff rest }) := by
    refine h.setCpu rfl nofun (fun _ hi => hi) (fun e he => ?_) (Nat.le_refl _)
    rw [hpc]
    exact List.mem_cons_of_mem d he
  set s₁ := Shootdown.setCpu s c { s.cpu c with pc := .send v iff rest }
  have hpc₁ : ∀ e, ((mdIpiInvlpg s₁ d).cpu e).pc = (s₁.cpu e).pc := by
    intro e
    show (Function.update s₁.cpu d _ e).pc = _
    rw [Function.update_apply]
    split
    · rename_i heq
      rw [heq]
    · rfl
  refine hmoved.frame (fun e he => hpc₁ e ▸ he) (fun i hi => ⟨hi, fun e he => ?_⟩) fun e he => ?_
  · rw [hpc₁ i] at he
    exact he
  -- a CPU that spins is not among those still to be asked
  · have hne : e ≠ d := by
      rintro rfl
      rw [hpc₁ e] at he
      have hspins : (s.cpu e).pc.spins = true := by
        by_cases hec : e = c
        · rw [hec] at he
          have hself : s₁.cpu c = { s.cpu c with pc := .send v iff rest } :=
            Function.update_self ..
          rw [hself] at he
          cases he
        · have hother : s₁.cpu e = s.cpu e := Function.update_of_ne hec ..
          rw [hother] at he
          exact he
      refine (h.answered e c hspins hlock).1 ?_
      rw [hpc]
      exact List.mem_cons_self
    show load (Function.update s₁.cpu d _ e) ≤ _
    rw [Function.update_of_ne hne]

/-- Every step of `pmap_global_invlpg` after the call. -/
theorem spinning_next [Fintype C] (h : Spinning cfg s) (hinv : Inv cfg s)
    (hs : next cfg s c = some s') : Spinning cfg s' := by
  unfold next at hs
  dsimp only at hs
  cases hpc : (s.cpu c).pc with
  | out => rw [hpc] at hs; cases hs
  | spin v iff =>
      rw [hpc] at hs
      dsimp only at hs
      split at hs
      · cases hs
        -- the one CPU that spins gets the lock, so none spins any more
        exact spinning_lock h hpc
      · cases hs
  | locked v iff =>
      rw [hpc] at hs
      cases hs
      exact h.setCpu rfl nofun (fun _ hi => hi) (fun d hd => by rw [hpc]; exact hd) (Nat.le_refl _)
  | addrSet v iff =>
      rw [hpc] at hs
      cases hs
      exact h.setCpu rfl nofun (fun _ hi => hi) (fun d hd => by rw [hpc]; exact hd) (Nat.le_refl _)
  | send v iff rest =>
      cases rest with
      | nil =>
          rw [hpc] at hs
          cases hs
          exact h.setCpu rfl nofun (fun _ hi => hi) nofun (Nat.le_refl _)
      | cons d rest =>
          rw [hpc] at hs
          cases hs
          split
          · refine h.setCpu rfl nofun (fun _ hi => hi) (fun e he => ?_) (Nat.le_refl _)
            rw [hpc]
            exact List.mem_cons_of_mem d he
          · exact spinning_send h hpc ((hinv.lock_iff c).mpr (by rw [hpc]; rfl))
  | wait v iff =>
      rw [hpc] at hs
      dsimp only at hs
      split at hs
      · cases hs
        exact h.setCpu rfl nofun (fun _ hi => hi) nofun (Nat.le_refl _)
      · cases hs
  | done v iff =>
      rw [hpc] at hs
      cases hs
      exact h.setCpu rfl nofun nofun nofun (Nat.le_refl _)
  | unlocked v iff =>
      rw [hpc] at hs
      cases hs
      exact h.setCpu rfl nofun (fun _ hi => hi) nofun (Nat.le_refl _)

/-- A CPU calls `pmap_global_invlpg` under the condition. -/
theorem spinning_call (hc : Answered cfg s (.pmapGlobalInvlpg c v))
    (hcpu : s'.cpu = Function.update s.cpu c
      { s.cpu c with intr := false, pc := .spin v (s.cpu c).intr }) (hlock : s'.lock = s.lock) :
    Spinning cfg s' := by
  obtain ⟨hfree, hanswered⟩ := hc
  have honly : ∀ d, (s'.cpu d).pc.spins = true → d = c := by
    intro d hd
    by_contra hne
    rw [hcpu, Function.update_of_ne hne, hfree d (cfg.mem d)] at hd
    cases hd
  refine ⟨fun d e hd he => (honly d hd).trans (honly e he).symm, fun d i hd hi => ?_⟩
  rw [hlock] at hi
  obtain ⟨hnot, hzero⟩ := hanswered i hi
  rw [honly d hd]
  refine ⟨fun hmem => hnot ?_, ?_⟩
  · rw [hcpu, Function.update_apply] at hmem
    split at hmem
    · cases hmem
    · exact hmem
  · rw [hcpu, Function.update_self]
    exact hzero

/-- Every step under the condition. -/
theorem spinning_step [Fintype C] {a : Action C} (h : Spinning cfg s) (hinv : Inv cfg s)
    (hc : Answered cfg s a) (hs : step cfg s a = some s') : Spinning cfg s' := by
  cases a with
  | pmapGlobalInvlpg c v =>
      rw [step] at hs
      split at hs
      · cases hs
        -- the condition of the run is about this step: a call begins
        exact spinning_call hc rfl rfl
      · cases hs
  | next c =>
      rw [step] at hs
      split at hs
      · exact spinning_next h hinv hs
      · cases hs
  | interrupt c =>
      rw [step] at hs
      split at hs
      · cases hs
      · rename_i ipi rest hpending
        split at hs
        · rename_i hintr
          cases hs
          refine h.setCpu rfl (fun hx => hx) (fun _ hi => hi) (fun _ hd => hd) ?_
          rw [load, load, hpending, hinv.handler_off c hintr]
          exact Nat.le_refl _
        · cases hs
  -- handling an interrupt only lowers what is under way
  | handle c =>
      rw [step] at hs
      unfold handle at hs
      dsimp only at hs
      split at hs
      · cases hs
      · rename_i ipi hhandler
        cases hs
        refine h.setCpu rfl (fun hx => hx) (fun _ hi => hi) (fun _ hd => hd) ?_
        rw [load, load, hhandler]
      · rename_i ipi hhandler
        cases hs
        refine h.setCpu rfl (fun hx => hx) (fun _ hi => hi) (fun _ hd => hd) ?_
        rw [load, load, hhandler]
        exact Nat.le_succ _
      · rename_i hhandler
        cases hs
        refine h.setCpu rfl (fun hx => hx) (fun _ hi => hi) (fun _ hd => hd) ?_
        rw [load, load, hhandler]
  | mdIntr c on =>
      rw [step] at hs
      split at hs
      · cases hs
        exact h.setCpu rfl (fun hx => hx) (fun _ hi => hi) (fun _ hd => hd) (Nat.le_refl _)
      · cases hs

/-- **No deadlock without overlapping calls.** On any number of CPUs, in every run in which a CPU
calls `pmap_global_invlpg` only while no other one spins on the lock, and only after it has
acknowledged the IPI of the CPU that has the lock, no CPU waits for the acknowledgement of one that
spins on the lock with interrupts off. -/
theorem shootdown_no_deadlock [Fintype C] (intr : C → Bool)
    (h : (machine cfg).Reach (Answered cfg) (init intr) s) : NoDeadlock s := by
  have hboth : Inv cfg s ∧ Spinning cfg s := by
    refine h.invariant (I := fun s => Inv cfg s ∧ Spinning cfg s) ⟨inv_init intr, nofun, nofun⟩ ?_
    intro s a s' hi hc hs
    exact ⟨inv_step hi.1 hs, spinning_step hi.2 hi.1 hc hs⟩
  exact hboth.2.noDeadlock hboth.1

/-- CPU 1 calls after it has answered CPU 0, which still has the lock and gives it up. -/
def answeredCall : List (Action (Fin 2)) :=
  [.pmapGlobalInvlpg 0 5, .next 0, .next 0, .next 0, .next 0, .next 0, .interrupt 1, .next 0,
    .handle 1, .handle 1, .handle 1, .pmapGlobalInvlpg 1 7, .next 0, .next 0, .next 0, .next 1,
    .next 1, .next 1, .next 1, .next 1, .next 1]

theorem shootdown_no_deadlock_answered :
    ∃ s, (machine twoCpus).exec (init fun _ => true) answeredCall = some s ∧
      WaitsFor s 1 0 ∧ NoDeadlock s := by
  have hreach : ∀ s, (machine twoCpus).exec (init fun _ => true) answeredCall = some s →
      (machine twoCpus).Reach (Answered twoCpus) (init fun _ => true) s := fun s hs =>
    Machine.reach_of_exec (c := fun s a => decide (Answered twoCpus s a))
      (fun _ _ hc => of_decide_eq_true hc) rfl hs
  exact ⟨_, rfl, And.intro ⟨7, true, rfl⟩ Nat.one_pos,
    shootdown_no_deadlock (fun _ => true) (hreach _ rfl)⟩

/-- Both CPUs call, and CPU 0 gets the lock. -/
def overlappingCalls : List (Action (Fin 2)) :=
  [.pmapGlobalInvlpg 0 5, .pmapGlobalInvlpg 1 7, .next 0, .next 0, .next 0, .next 0, .next 0,
    .next 0]

/-- **A deadlock.** CPU 0 waits for CPU 1, which waits for the lock with interrupts off. -/
theorem shootdown_deadlock :
    ¬ ∀ s, (machine twoCpus).Reachable (init fun _ => true) s → NoDeadlock s := by
  intro h
  have hno := h _ (Machine.reachable_of_exec (l := overlappingCalls) rfl)
  exact hno 0 1 (And.intro ⟨5, true, rfl⟩ Nat.one_pos) (And.intro rfl rfl)

end Scalux.Shootdown
