import Mathlib.Algebra.BigOperators.Group.Finset.Piecewise
import Scalux.Amd64.Shootdown

/-! # The rounds of a TLB shootdown

A round is what happens while one CPU holds `invlpg_global_lock`.  Its account is one equation: the
acknowledgements counted in `invlpg_done_cnt`, the IPIs that are on their way or being handled, and
the IPIs still to be sent add up to `ncpu`.  So when the count is `ncpu` nothing is on its way, and
the next round starts with no IPI of this one left.

* **`Round`**: the account, and for each CPU the reason why it will have executed `invlpg`.
* **`inv_step`**: every step keeps the account of the round that is going on.
* **`shootdown_complete`**: what the initiator may rely on when its call returns. -/

namespace Scalux.Shootdown

variable {C : Type*}

/-- Has the lock. -/
def Pc.holds : Pc C → Bool
  | .out | .spin .. | .unlocked .. => false
  | .locked .. | .addrSet .. | .send .. | .wait .. | .done .. => true

/-- The IPIs a CPU has not acknowledged: those pending and the one it is handling. -/
def load (x : Cpu C) : ℕ :=
  x.pending.length + match x.handler with
    | some (.invlpg _) | some (.ack _) => 1
    | some .eoi | none => 0

/-- No IPI is on its way. -/
def Quiet (s : State C) : Prop := ∀ c, load (s.cpu c) = 0

variable {cfg : Cpus C} {s s' : State C} {c d i : C} {v : ℕ} {rest : List C}

/-- Where no CPU has a load, no handler is about to acknowledge. -/
theorem Quiet.handler_ne (h : Quiet s) (ipi : Ipi) : (s.cpu c).handler ≠ some (.ack ipi) := by
  intro hack
  have := h c
  rw [load, hack] at this
  exact Nat.succ_ne_zero _ this

/-- What has been executed stays in the history, and nothing else changes for the round. -/
structure Frame (i : C) (s s' : State C) : Prop where
  load_eq : ∀ c, load (s'.cpu c) = load (s.cpu c)
  handler_ack : ∀ c ipi, (s'.cpu c).handler = some (.ack ipi) →
    (s.cpu c).handler = some (.ack ipi) ∨ (c, s.addr) ∈ s'.since i
  addr_eq : s'.addr = s.addr
  doneCnt_eq : s'.doneCnt = s.doneCnt

/-- What keeps the loads keeps them zero. -/
theorem Quiet.frame (h : Quiet s) (hload : ∀ c, load (s'.cpu c) = load (s.cpu c)) : Quiet s' :=
  fun c => (hload c).trans (h c)

variable [Fintype C] [DecidableEq C]

/-- The round in which `i` invalidates `v`, with the CPUs `rest` still to be told. -/
structure Round (cfg : Cpus C) (s : State C) (i : C) (v : ℕ) (rest : List C) : Prop where
  addr_eq : s.addr = v
  account : s.doneCnt + (∑ c, load (s.cpu c)) + (rest.filter (· ≠ i)).length = cfg.ncpu
  /-- Every other CPU is still to be told, has been told, or has executed `invlpg`. -/
  told : ∀ c, c ≠ i → c ∈ rest ∨ 0 < load (s.cpu c) ∨ (c, v) ∈ s.since i
  acked : ∀ c ipi, (s.cpu c).handler = some (.ack ipi) → (c, v) ∈ s.since i

/-- What holds at each point of `pmap_global_invlpg`. -/
def PhaseOk (cfg : Cpus C) (s : State C) (i : C) : Pc C → Prop
  | .out | .spin .. => True
  | .locked .. => Quiet s
  | .addrSet v _ => Quiet s ∧ s.addr = v
  | .send v _ rest => Round cfg s i v rest
  | .wait v _ => Round cfg s i v [] ∧ (i, v) ∈ s.since i
  | .done v _ => Quiet s ∧ ∀ c, (c, v) ∈ s.since i
  | .unlocked v _ => ∀ c, (c, v) ∈ s.since i

/-- The invariant of the protocol. -/
structure Inv (cfg : Cpus C) (s : State C) : Prop where
  lock_iff : ∀ i, s.lock = some i ↔ (s.cpu i).pc.holds = true
  quiet : s.lock = none → Quiet s
  phase : ∀ i, PhaseOk cfg s i (s.cpu i).pc
  /-- An IPI belongs to the round that is going on. -/
  pending : ∀ c, ∀ ipi ∈ (s.cpu c).pending, ipi = ⟨s.round, s.addr⟩
  handled : ∀ c ipi, (s.cpu c).handler = some (.invlpg ipi) ∨ (s.cpu c).handler = some (.ack ipi) →
    ipi = ⟨s.round, s.addr⟩
  /-- Handlers run with interrupts off. -/
  handler_off : ∀ c, (s.cpu c).intr = true → (s.cpu c).handler = none

/-- The invariant at the start. -/
theorem inv_init (intr : C → Bool) : Inv cfg (init intr) where
  lock_iff i := iff_of_false nofun nofun
  quiet _ _ := rfl
  phase _ := trivial
  pending _ := nofun
  handled _ _ h := by rcases h with h | h <;> cases h
  handler_off _ _ := rfl

/-- A round goes on while its sender, its loads and its counter stay. -/
theorem Round.frame (h : Round cfg s i v rest) (hf : Frame i s s')
    (hsince : ∀ e ∈ s.since i, e ∈ s'.since i) : Round cfg s' i v rest where
  addr_eq := hf.addr_eq.trans h.addr_eq
  account := by
    rw [hf.doneCnt_eq, Finset.sum_congr rfl fun c _ => hf.load_eq c]
    exact h.account
  told c hc := by
    rw [hf.load_eq c]
    exact (h.told c hc).imp_right fun hr => hr.imp_right (hsince _)
  acked c ipi hc := by
    rcases hf.handler_ack c ipi hc with hold | hnew
    · exact hsince _ (h.acked c ipi hold)
    · exact h.addr_eq ▸ hnew

/-- A step that the CPU `i` takes no part in. -/
theorem PhaseOk.frame {p : Pc C} (h : PhaseOk cfg s i p)
    (hf : p.holds = true → Frame i s s') (hsince : ∀ e ∈ s.since i, e ∈ s'.since i) :
    PhaseOk cfg s' i p := by
  cases p with
  | out => trivial
  | spin v iff => trivial
  | locked v iff => exact Quiet.frame h (hf rfl).load_eq
  | addrSet v iff => exact ⟨h.1.frame (hf rfl).load_eq, (hf rfl).addr_eq.trans h.2⟩
  | send v iff rest => exact Round.frame h (hf rfl) hsince
  | wait v iff => exact ⟨h.1.frame (hf rfl) hsince, hsince _ h.2⟩
  | done v iff => exact ⟨h.1.frame (hf rfl).load_eq, fun c => hsince _ (h.2 c)⟩
  | unlocked v iff => exact fun c => hsince _ (h c)

/-! ## Steps of `pmap_global_invlpg` -/

omit [Fintype C] in
/-- The load does not depend on the program counter. -/
theorem load_setPc {p : Pc C} {b : Bool}
    (hcpu : s'.cpu = Function.update s.cpu c { s.cpu c with pc := p, intr := b }) (d : C) :
    load (s'.cpu d) = load (s.cpu d) := by
  rw [hcpu, Function.update_apply]
  split
  · rename_i heq
    rw [heq]
    rfl
  · rfl

omit [Fintype C] in
/-- The handler does not depend on the program counter. -/
theorem handler_setPc {p : Pc C} {b : Bool}
    (hcpu : s'.cpu = Function.update s.cpu c { s.cpu c with pc := p, intr := b }) (d : C) :
    (s'.cpu d).handler = (s.cpu d).handler := by
  rw [hcpu, Function.update_apply]
  split
  · rename_i heq
    rw [heq]
  · rfl

omit [Fintype C] in
/-- Moving the program counter keeps the frame of a round. -/
theorem frame_setPc {p : Pc C} {b : Bool}
    (hcpu : s'.cpu = Function.update s.cpu c { s.cpu c with pc := p, intr := b })
    (haddr : s'.addr = s.addr) (hdone : s'.doneCnt = s.doneCnt) : Frame i s s' :=
  ⟨load_setPc hcpu, fun d _ hd => .inl (handler_setPc hcpu d ▸ hd), haddr, hdone⟩

/-- A CPU moves on and leaves the IPIs as they are. -/
theorem Inv.setPc (h : Inv cfg s) {p : Pc C} {b : Bool}
    (hcpu : s'.cpu = Function.update s.cpu c { s.cpu c with pc := p, intr := b })
    (hb : b = true → (s.cpu c).handler = none)
    (hlock : ∀ i, s'.lock = some i ↔ if i = c then p.holds = true else s.lock = some i)
    (hquiet : s'.lock = none → Quiet s) (hphase : PhaseOk cfg s' c p)
    (hother : ∀ i, i ≠ c → (s.cpu i).pc.holds = true → Frame i s s')
    (hsince : ∀ i, i ≠ c → ∀ e ∈ s.since i, e ∈ s'.since i)
    (hipi : Quiet s ∨ s'.round = s.round ∧ s'.addr = s.addr) : Inv cfg s' := by
  have hload := load_setPc hcpu
  have hpending : ∀ d, (s'.cpu d).pending = (s.cpu d).pending := by
    intro d
    rw [hcpu, Function.update_apply]
    split
    · rename_i heq
      rw [heq]
    · rfl
  have hhandler := handler_setPc hcpu
  constructor
  case lock_iff =>
    intro i
    rw [hlock i, hcpu, Function.update_apply]
    split
    · rfl
    · exact h.lock_iff i
  case quiet => exact fun hnone => (hquiet hnone).frame hload
  case phase =>
    intro i
    rw [hcpu, Function.update_apply]
    split
    · rename_i heq
      exact heq ▸ hphase
    · rename_i hne
      exact (h.phase i).frame (hother i hne) (hsince i hne)
  -- an interrupt under way is of this round: either the round did not change or nothing was under way
  case pending =>
    intro d ipi hmem
    rw [hpending d] at hmem
    rcases hipi with hq | ⟨hround, haddr⟩
    · have hzero := hq d
      rw [load, Nat.add_eq_zero_iff, List.length_eq_zero_iff] at hzero
      rw [hzero.1] at hmem
      cases hmem
    · rw [hround, haddr]
      exact h.pending d ipi hmem
  case handled =>
    intro d ipi hd
    rw [hhandler d] at hd
    rcases hipi with hq | ⟨hround, haddr⟩
    · have hzero := hq d
      rw [load] at hzero
      rcases hd with hd | hd
      · rw [hd] at hzero
        exact absurd hzero (Nat.succ_ne_zero _)
      · rw [hd] at hzero
        exact absurd hzero (Nat.succ_ne_zero _)
    · rw [hround, haddr]
      exact h.handled d ipi hd
  case handler_off =>
    intro d hd
    rw [hhandler d]
    rw [hcpu, Function.update_apply] at hd
    split at hd
    · rename_i heq
      rw [heq]
      exact hb hd
    · exact h.handler_off d hd

/-- Only the CPU that has the lock is past `spinlock_lock`. -/
theorem Inv.not_holds (h : Inv cfg s) (hc : s.lock = some c) (hi : i ≠ c) :
    (s.cpu i).pc.holds ≠ true := by
  intro hholds
  have := (h.lock_iff i).mpr hholds
  rw [hc] at this
  exact hi (Option.some.inj this).symm

/-- The CPU that has the lock moves on and keeps it. -/
theorem Inv.setPc_holds (h : Inv cfg s) {p : Pc C} (hc : (s.cpu c).pc.holds = true)
    (hcpu : s'.cpu = Function.update s.cpu c { s.cpu c with pc := p })
    (hlock : s'.lock = s.lock) (hp : p.holds = true) (hphase : PhaseOk cfg s' c p)
    (hsince : ∀ i, ∀ e ∈ s.since i, e ∈ s'.since i)
    (hipi : Quiet s ∨ s'.round = s.round ∧ s'.addr = s.addr) : Inv cfg s' := by
  have hlocked : s.lock = some c := (h.lock_iff c).mpr hc
  refine h.setPc hcpu (h.handler_off c) (fun i => ?_) (fun hnone => ?_) hphase
    (fun i hi hholds => absurd hholds (h.not_holds hlocked hi)) (fun i _ => hsince i) hipi
  · rw [hlock]
    split
    · rename_i heq
      rw [heq, hlocked]
      exact iff_of_true rfl hp
    · rfl
  · rw [hlock, hlocked] at hnone
    cases hnone

/-- A CPU that does not have the lock moves on without it. -/
theorem Inv.setPc_free (h : Inv cfg s) {p : Pc C} {b : Bool} (hc : (s.cpu c).pc.holds = false)
    (hcpu : s'.cpu = Function.update s.cpu c { s.cpu c with pc := p, intr := b })
    (hb : b = true → (s.cpu c).handler = none) (hlock : s'.lock = s.lock) (hp : p.holds = false)
    (hphase : PhaseOk cfg s' c p) (hround : s'.round = s.round) (haddr : s'.addr = s.addr)
    (hdone : s'.doneCnt = s.doneCnt) (hsince : ∀ i, i ≠ c → s'.since i = s.since i) :
    Inv cfg s' := by
  refine h.setPc hcpu hb (fun i => ?_) (fun hnone => h.quiet (hlock ▸ hnone)) hphase
    (fun i hi _ => frame_setPc hcpu haddr hdone) (fun i hi e he => (hsince i hi).symm ▸ he)
    (.inr ⟨hround, haddr⟩)
  rw [hlock]
  split
  · rename_i heq
    rw [heq, h.lock_iff c, hc, hp]
  · rfl

omit [Fintype C] in
/-- All CPUs but one are to be told. -/
theorem Cpus.length_filter (cfg : Cpus C) (c : C) :
    (cfg.cpus.filter (· ≠ c)).length + 1 = cfg.ncpu := by
  have herase : cfg.cpus.filter (· ≠ c) = cfg.cpus.erase c := by
    rw [cfg.nodup.erase_eq_filter c]
    exact List.filter_congr fun x _ => by rw [bne, decide_not, Bool.beq_eq_decide_eq]
  rw [herase, List.length_erase_of_mem (cfg.mem c), Cpus.ncpu]
  have := List.length_pos_of_mem (cfg.mem c)
  omega

omit [Fintype C] in
/-- `c` tells `d` and moves on: one more IPI is pending there. -/
theorem cpu_send {p : Pc C} (hd : d ≠ c) (e : C) :
    (mdIpiInvlpg (setCpu s c { s.cpu c with pc := p }) d).cpu e =
      { s.cpu e with
        pc := if e = c then p else (s.cpu e).pc
        pending := (s.cpu e).pending ++ if e = d then [⟨s.round, s.addr⟩] else [] } := by
  show Function.update _ d _ e = _
  rw [Function.update_apply]
  dsimp only [setCpu]
  by_cases hed : e = d
  · subst hed
    rw [if_pos rfl, if_pos rfl, if_neg hd, Function.update_of_ne hd]
  · rw [if_neg hed, if_neg hed, List.append_nil, Function.update_apply]
    split
    · rename_i heq
      rw [heq]
    · rfl

omit [Fintype C] in
/-- Sending to a CPU adds one to its load, and nothing to the others. -/
theorem load_send {p : Pc C} (hd : d ≠ c) (e : C) :
    load ((mdIpiInvlpg (setCpu s c { s.cpu c with pc := p }) d).cpu e) =
      load (s.cpu e) + if e = d then 1 else 0 := by
  rw [cpu_send hd, load, load, List.length_append]
  dsimp only
  split
  · rw [List.length_singleton]
    omega
  · rw [List.length_nil]
    omega

/-- One more IPI is on its way, one fewer is to be sent. -/
theorem Round.send {p : Pc C} (h : Round cfg s c v (d :: rest)) (hd : d ≠ c) :
    Round cfg (mdIpiInvlpg (setCpu s c { s.cpu c with pc := p }) d) c v rest where
  addr_eq := h.addr_eq
  account := by
    have haccount := h.account
    rw [List.filter_cons_of_pos (by simpa using hd), List.length_cons] at haccount
    have hsum := Finset.sum_congr rfl fun e (_ : e ∈ Finset.univ) => load_send (s := s) (p := p) hd e
    rw [Finset.sum_add_distrib, Finset.sum_ite_eq', if_pos (Finset.mem_univ d)] at hsum
    rw [hsum]
    show s.doneCnt + _ + _ = _
    omega
  told e he := by
    rw [load_send hd]
    by_cases hed : e = d
    · rw [if_pos hed]
      exact .inr (.inl (Nat.succ_pos _))
    · rw [if_neg hed]
      exact (h.told e he).imp_left fun hmem => (List.mem_cons.mp hmem).resolve_left hed
  acked e ipi he := by
    rw [cpu_send hd] at he
    exact h.acked e ipi he

/-- A round starts with nothing on its way and the initiator's own share counted. -/
theorem Round.start (h : Quiet s) (haddr : s.addr = v) (hdone : s.doneCnt = 1) :
    Round cfg s c v cfg.cpus where
  addr_eq := haddr
  account := by
    rw [Finset.sum_eq_zero fun d _ => h d, ← cfg.length_filter c, hdone]
    omega
  told d _ := .inl (cfg.mem d)
  acked _ ipi hd := absurd hd (h.handler_ne ipi)

/-- The initiator does not tell itself. -/
theorem Round.skip (h : Round cfg s c v (c :: rest)) : Round cfg s c v rest where
  addr_eq := h.addr_eq
  account := by
    have haccount := h.account
    rw [List.filter_cons_of_neg (by simp)] at haccount
    exact haccount
  told e he := (h.told e he).imp_left fun hmem => (List.mem_cons.mp hmem).resolve_left he
  acked := h.acked

/-- The first CPU of the list, another one, is told. -/
theorem inv_send (h : Inv cfg s) {iff : Bool} (hpc : (s.cpu c).pc = .send v iff (d :: rest))
    (hd : d ≠ c) :
    Inv cfg (mdIpiInvlpg (setCpu s c { s.cpu c with pc := .send v iff rest }) d) := by
  have hlocked : s.lock = some c := (h.lock_iff c).mpr (by rw [hpc]; rfl)
  have hround : Round cfg s c v (d :: rest) := by
    have := h.phase c
    rw [hpc] at this
    exact this
  constructor
  case lock_iff =>
    intro e
    rw [cpu_send hd]
    show s.lock = some e ↔ (if e = c then _ else _ : Pc C).holds = true
    split
    · rename_i hec
      exact iff_of_true (hec ▸ hlocked) rfl
    · exact h.lock_iff e
  case quiet =>
    intro hnone
    exact absurd (hlocked.symm.trans hnone) (by simp)
  -- the sender has the lock, so every other call is at a place that asks nothing of the round
  case phase =>
    intro e
    rw [cpu_send hd]
    dsimp only
    split
    · rename_i hec
      exact hec ▸ hround.send hd
    · rename_i hec
      exact (h.phase e).frame (fun hh => absurd hh (h.not_holds hlocked hec)) fun _ he => he
  case pending =>
    intro e ipi hmem
    rw [cpu_send hd] at hmem
    rcases List.mem_append.mp hmem with hmem | hmem
    · exact h.pending e ipi hmem
    · split at hmem
      · exact List.mem_singleton.mp hmem
      · cases hmem
  case handled =>
    intro e ipi he
    rw [cpu_send hd] at he
    exact h.handled e ipi he
  case handler_off =>
    intro e he
    rw [cpu_send hd] at he ⊢
    exact h.handler_off e he

/-- A CPU calls `pmap_global_invlpg`. -/
theorem inv_call (h : Inv cfg s) (hout : outside s c) :
    Inv cfg (setCpu { s with since := Function.update s.since c [] } c
      { s.cpu c with intr := false, pc := .spin v (s.cpu c).intr }) := by
  have hholds : (s.cpu c).pc.holds = false := by rw [hout.1]; rfl
  exact h.setPc_free hholds rfl (by simp) rfl rfl trivial rfl rfl rfl
    fun i hi => Function.update_of_ne hi _ _

/-- When all acknowledgements are in, every CPU has executed `invlpg`. -/
theorem Round.finish (h : Round cfg s i v []) (hdone : s.doneCnt = cfg.ncpu) :
    Quiet s ∧ ∀ c, c ≠ i → (c, v) ∈ s.since i := by
  have hquiet : Quiet s := by
    have haccount := h.account
    rw [List.filter_nil, List.length_nil] at haccount
    have hzero : ∑ c, load (s.cpu c) = 0 := by omega
    exact fun c => Finset.sum_eq_zero_iff.mp hzero c (Finset.mem_univ c)
  refine ⟨hquiet, fun c hc => ?_⟩
  obtain hmem | hpos | hmem := h.told c hc
  · cases hmem
  · rw [hquiet c] at hpos
    exact absurd hpos (Nat.lt_irrefl 0)
  · exact hmem

/-- Every step of `pmap_global_invlpg` keeps the invariant. -/
theorem inv_next (h : Inv cfg s) (hhandler : (s.cpu c).handler = none)
    (hs : next cfg s c = some s') : Inv cfg s' := by
  have hphase := h.phase c
  unfold next at hs
  dsimp only at hs
  cases hpc : (s.cpu c).pc with
  | out => rw [hpc] at hs; cases hs
  | spin v iff =>
      rw [hpc] at hs
      dsimp only at hs
      split at hs
      · rename_i hnone
        cases hs
        -- the lock is free, so no call is inside
        have hfree : ∀ i, (s.cpu i).pc.holds ≠ true := by
          intro i hi
          rw [← h.lock_iff i, hnone] at hi
          cases hi
        refine h.setPc rfl (h.handler_off c) (fun i => ?_) nofun ?_
          (fun i _ hi => absurd hi (hfree i)) (fun _ _ _ he => he) (.inl (h.quiet hnone))
        · show some c = some i ↔ _
          rw [hnone, Option.some_inj]
          split
          · rename_i heq
            exact iff_of_true heq.symm rfl
          · rename_i hne
            exact iff_of_false (fun heq => hne heq.symm) (by simp)
        · exact (h.quiet hnone).frame (load_setPc rfl)
      · cases hs
  | locked v iff =>
      rw [hpc] at hs hphase
      cases hs
      exact h.setPc_holds (by rw [hpc]; rfl) rfl rfl rfl
        ⟨Quiet.frame hphase (load_setPc rfl), rfl⟩ (fun _ _ he => he) (.inl hphase)
  | addrSet v iff =>
      rw [hpc] at hs hphase
      cases hs
      obtain ⟨hquiet, haddr⟩ := hphase
      refine h.setPc_holds (by rw [hpc]; rfl) rfl rfl rfl ?_ (fun _ _ he => he) (.inl hquiet)
      exact Round.start (hquiet.frame (load_setPc rfl)) haddr rfl
  | send v iff rest =>
      cases rest with
      | nil =>
          rw [hpc] at hs hphase
          cases hs
          refine h.setPc_holds (by rw [hpc]; rfl) rfl rfl rfl ?_
            (fun _ _ he => List.mem_cons_of_mem _ he) (.inr ⟨rfl, rfl⟩)
          exact ⟨Round.frame hphase (frame_setPc rfl rfl rfl) fun _ he => List.mem_cons_of_mem _ he,
            List.mem_cons_self⟩
      | cons d rest =>
          rw [hpc] at hs hphase
          cases hs
          split
          · rename_i heq
            subst heq
            refine h.setPc_holds (by rw [hpc]; rfl) rfl rfl rfl ?_ (fun _ _ he => he)
              (.inr ⟨rfl, rfl⟩)
            exact (Round.skip hphase).frame (frame_setPc rfl rfl rfl) fun _ he => he
          · rename_i hne
            exact inv_send h hpc hne
  | wait v iff =>
      rw [hpc] at hs hphase
      dsimp only at hs
      split at hs
      · rename_i hdone
        cases hs
        -- all acknowledged: nothing is under way and every other CPU has invalidated the address
        obtain ⟨hround, hself⟩ := hphase
        obtain ⟨hquiet, hall⟩ := hround.finish hdone
        refine h.setPc_holds (by rw [hpc]; rfl) rfl rfl rfl ?_ (fun _ _ he => he) (.inr ⟨rfl, rfl⟩)
        refine ⟨hquiet.frame (load_setPc rfl), fun d => ?_⟩
        by_cases hdc : d = c
        · rw [hdc]
          exact hself
        · exact hall d hdc
      · cases hs
  | done v iff =>
      rw [hpc] at hs hphase
      cases hs
      have hlocked : s.lock = some c := (h.lock_iff c).mpr (by rw [hpc]; rfl)
      refine h.setPc rfl (h.handler_off c) (fun i => ?_) (fun _ => hphase.1) hphase.2
        (fun i hi hholds => absurd hholds (h.not_holds hlocked hi)) (fun _ _ _ he => he)
        (.inr ⟨rfl, rfl⟩)
      show none = some i ↔ _
      rw [hlocked]
      split
      · exact iff_of_false nofun nofun
      · rename_i hne
        exact iff_of_false (by simp) fun heq => hne (Option.some.inj heq).symm
  -- the interrupts are enabled again, which is allowed outside a handler
  | unlocked v iff =>
      rw [hpc] at hs
      cases hs
      exact h.setPc_free (by rw [hpc]; rfl) rfl (fun _ => hhandler) rfl rfl trivial rfl rfl rfl
        fun _ _ => rfl

/-! ## Steps of the handler -/

/-- A step of `handle_int` in the round that is going on: the rest of the invariant does not change. -/
theorem Inv.setHandler (h : Inv cfg s) {x : Cpu C}
    (hcpu : s'.cpu = Function.update s.cpu c x) (hpc : x.pc = (s.cpu c).pc)
    (hlock : s'.lock = s.lock) (hround : s'.round = s.round) (haddr : s'.addr = s.addr)
    (hquiet : Quiet s → Quiet s')
    (hphase : ∀ i, PhaseOk cfg s i (s.cpu i).pc → PhaseOk cfg s' i (s.cpu i).pc)
    (hpending : ∀ ipi ∈ x.pending, ipi ∈ (s.cpu c).pending)
    (hhandled : ∀ ipi, x.handler = some (.invlpg ipi) ∨ x.handler = some (.ack ipi) →
      ipi = ⟨s.round, s.addr⟩)
    (hoff : x.intr = true → x.handler = none) : Inv cfg s' := by
  -- no program counter moves, only what is under way at `c`
  have hpc' : ∀ d, (s'.cpu d).pc = (s.cpu d).pc := by
    intro d
    rw [hcpu, Function.update_apply]
    split
    · rename_i heq
      rw [heq]
      exact hpc
    · rfl
  constructor
  case lock_iff =>
    intro i
    rw [hlock, hpc' i]
    exact h.lock_iff i
  case quiet =>
    intro hnone
    exact hquiet (h.quiet (hlock ▸ hnone))
  case phase =>
    intro i
    rw [hpc' i]
    exact hphase i (h.phase i)
  case pending =>
    intro d ipi hmem
    rw [hround, haddr]
    rw [hcpu, Function.update_apply] at hmem
    split at hmem
    · exact h.pending c ipi (hpending ipi hmem)
    · exact h.pending d ipi hmem
  case handled =>
    intro d ipi hd
    rw [hround, haddr]
    rw [hcpu, Function.update_apply] at hd
    split at hd
    · exact hhandled ipi hd
    · exact h.handled d ipi hd
  case handler_off =>
    intro d hd
    rw [hcpu, Function.update_apply] at hd ⊢
    split at hd
    · rename_i heq
      rw [if_pos heq]
      exact hoff hd
    · rename_i hne
      rw [if_neg hne]
      exact h.handler_off d hd

omit [Fintype C] in
/-- The other CPUs' loads, and this one's. -/
theorem load_update {x : Cpu C} (hcpu : s'.cpu = Function.update s.cpu c x)
    (hx : load x = load (s.cpu c)) (d : C) : load (s'.cpu d) = load (s.cpu d) := by
  rw [hcpu, Function.update_apply]
  split
  · rename_i heq
    rw [heq, hx]
  · rfl

/-- A CPU takes an IPI. -/
theorem inv_interrupt (h : Inv cfg s) {ipi : Ipi} {rest : List Ipi}
    (hpending : (s.cpu c).pending = ipi :: rest) (hintr : (s.cpu c).intr = true) :
    Inv cfg (setCpu s c
      { s.cpu c with intr := false, pending := rest, handler := some (.invlpg ipi) }) := by
  have hnone := h.handler_off c hintr
  -- the IPI goes from the pending ones to the handler, so the load stays
  have hload : load { s.cpu c with
      intr := false, pending := rest, handler := some (.invlpg ipi) } = load (s.cpu c) := by
    rw [load, load, hpending, hnone]
    rfl
  have hipi : ipi = ⟨s.round, s.addr⟩ := h.pending c ipi (by rw [hpending]; exact List.mem_cons_self)
  refine h.setHandler rfl rfl rfl rfl rfl (fun hq => hq.frame (load_update rfl hload))
    (fun i hp => hp.frame (fun _ => ⟨load_update rfl hload, fun d x hd => .inl ?_, rfl, rfl⟩)
      fun _ he => he) (fun x hx => ?_) (fun x hx => ?_) (by simp)
  · dsimp only [setCpu] at hd
    rw [Function.update_apply] at hd
    split at hd
    · cases hd
    · exact hd
  · rw [hpending]
    exact List.mem_cons_of_mem _ hx
  · rcases hx with hx | hx
    · cases hx
      exact hipi
    · cases hx

/-- One IPI fewer on its way, one acknowledgement more. -/
theorem Round.ack (h : Round cfg s i v rest) {ipi : Ipi}
    (hhandler : (s.cpu c).handler = some (.ack ipi)) :
    Round cfg (setCpu { s with doneCnt := s.doneCnt + 1 } c
      { s.cpu c with handler := some .eoi }) i v rest where
  addr_eq := h.addr_eq
  -- the CPU owes one less, and the counter is one more
  account := by
    have hsum := sum_update s.cpu load c { s.cpu c with handler := some .eoi }
    have hload : load (s.cpu c) = load { s.cpu c with handler := some .eoi } + 1 := by
      rw [load, load, hhandler]
      rfl
    have haccount := h.account
    show s.doneCnt + 1 + (∑ d, load (Function.update s.cpu c _ d)) + _ = _
    omega
  told d hd := by
    by_cases hdc : d = c
    · rw [hdc]
      exact .inr (.inr (h.acked c ipi hhandler))
    · dsimp only [setCpu]
      rw [Function.update_of_ne hdc]
      exact h.told d hd
  acked d x hd := by
    dsimp only [setCpu] at hd
    rw [Function.update_apply] at hd
    split at hd
    · cases hd
    · exact h.acked d x hd

/-- Every step of the handler keeps the invariant. -/
theorem inv_handle (h : Inv cfg s) (hs : handle s c = some s') : Inv cfg s' := by
  unfold handle at hs
  dsimp only at hs
  split at hs
  · cases hs
  · -- `invlpg` of the address of this round
    rename_i ipi hhandler
    cases hs
    have hload : load { s.cpu c with handler := some (.ack ipi) } = load (s.cpu c) := by
      rw [load, load, hhandler]
    refine h.setHandler rfl rfl rfl rfl rfl (fun hq => hq.frame (load_update rfl hload))
      (fun i hp => hp.frame (fun _ => ⟨load_update rfl hload, fun d x hd => ?_, rfl, rfl⟩)
        fun _ he => List.mem_cons_of_mem _ he) (fun _ hx => hx) (fun x hx => ?_) ?_
    · dsimp only [setCpu, pmapInvlpg] at hd
      rw [Function.update_apply] at hd
      split at hd
      · rename_i heq
        rw [heq]
        exact .inr List.mem_cons_self
      · exact .inl hd
    · refine h.handled c x (.inl ?_)
      rcases hx with hx | hx
      · cases hx
      · cases hx
        exact hhandler
    · intro hintr
      have hnone := h.handler_off c hintr
      rw [hhandler] at hnone
      cases hnone
  · -- the acknowledgement
    rename_i ipi hhandler
    cases hs
    refine h.setHandler rfl rfl rfl rfl rfl (fun hq => absurd hhandler (hq.handler_ne ipi))
      (fun i hp => ?_) (fun _ hx => hx) (fun x hx => ?_) ?_
    · cases hpc : (s.cpu i).pc with
      | out => trivial
      | spin v iff => trivial
      | locked v iff =>
          rw [hpc] at hp
          exact absurd hhandler (Quiet.handler_ne hp ipi)
      | addrSet v iff =>
          rw [hpc] at hp
          exact absurd hhandler (hp.1.handler_ne ipi)
      | send v iff rest =>
          rw [hpc] at hp
          exact Round.ack hp hhandler
      | wait v iff =>
          rw [hpc] at hp
          exact ⟨hp.1.ack hhandler, hp.2⟩
      | done v iff =>
          rw [hpc] at hp
          exact absurd hhandler (hp.1.handler_ne ipi)
      | unlocked v iff =>
          rw [hpc] at hp
          exact hp
    · rcases hx with hx | hx <;> cases hx
    · intro hintr
      have hnone := h.handler_off c hintr
      rw [hhandler] at hnone
      cases hnone
  · rename_i hhandler
    cases hs
    have hload : load { s.cpu c with handler := none, intr := true } = load (s.cpu c) := by
      rw [load, load, hhandler]
    refine h.setHandler rfl rfl rfl rfl rfl (fun hq => hq.frame (load_update rfl hload))
      (fun i hp => hp.frame (fun _ => ⟨load_update rfl hload, fun d x hd => .inl ?_, rfl, rfl⟩)
        fun _ he => he) (fun _ hx => hx) (fun x hx => ?_) fun _ => rfl
    · dsimp only [setCpu] at hd
      rw [Function.update_apply] at hd
      split at hd
      · cases hd
      · exact hd
    · rcases hx with hx | hx <;> cases hx

/-! ## Whole runs -/

/-- Every step keeps the invariant. -/
theorem inv_step {a : Action C} (h : Inv cfg s) (hs : step cfg s a = some s') : Inv cfg s' := by
  cases a with
  | pmapGlobalInvlpg c v =>
      rw [step] at hs
      split at hs
      · rename_i hout
        cases hs
        exact inv_call h hout
      · cases hs
  | next c =>
      rw [step] at hs
      split at hs
      · rename_i hhandler
        exact inv_next h hhandler hs
      · cases hs
  | interrupt c =>
      rw [step] at hs
      split at hs
      · cases hs
      · rename_i ipi rest hpending
        split at hs
        · rename_i hintr
          cases hs
          exact inv_interrupt h hpending hintr
        · cases hs
  | handle c => exact inv_handle h hs
  -- a CPU outside a call may switch its interrupts
  | mdIntr c on =>
      rw [step] at hs
      split at hs
      · rename_i hout
        cases hs
        have hfree : (s.cpu c).pc.holds = false := by rw [hout.1]; rfl
        refine h.setPc_free hfree rfl (fun _ => hout.2) rfl hfree ?_ rfl rfl rfl fun _ _ => rfl
        show PhaseOk cfg _ c (s.cpu c).pc
        rw [hout.1]
        trivial
      · cases hs

/-- The invariant in every reachable state. -/
theorem inv_reachable {intr : C → Bool} (h : (machine cfg).Reachable (init intr) s) : Inv cfg s :=
  h.invariant (inv_init intr) fun _ _ _ hi _ hs => inv_step hi hs

/-- The step is the return of `pmap_global_invlpg(v)` on the CPU `c`. -/
def Returns (s : State C) (a : Action C) (c : C) (v : ℕ) : Prop :=
  a = .next c ∧ ∃ iff, (s.cpu c).pc = .unlocked v iff

/-- The acknowledgements of the CPU `i` are being counted. -/
def Counting (s : State C) (i : C) : Prop :=
  ∃ v iff, (s.cpu i).pc = .wait v iff ∨ ∃ rest, (s.cpu i).pc = .send v iff rest

/-- What the shootdown promises in one state. -/
structure Complete (cfg : Cpus C) (s : State C) : Prop where
  /-- A call that returns has been answered by every CPU. -/
  returned : ∀ a s' c v, step cfg s a = some s' → Returns s a c v → ∀ d, (d, v) ∈ s'.since c
  /-- An acknowledgement is counted by the round that sent its IPI. -/
  same_round : ∀ c ipi, (s.cpu c).handler = some (.ack ipi) →
    ipi.round = s.round ∧ ∃ i, s.lock = some i ∧ Counting s i
  /-- The address is the one the IPI was sent with until the handler has read it. -/
  same_addr : ∀ c ipi, ipi ∈ (s.cpu c).pending ∨ (s.cpu c).handler = some (.invlpg ipi) →
    s.addr = ipi.addr

/-- The invariant implies what is to be shown. -/
theorem Inv.complete (h : Inv cfg s) : Complete cfg s where
  returned a s' c v hs hret d := by
    obtain ⟨rfl, iff, hpc⟩ := hret
    have hphase := h.phase c
    rw [hpc] at hphase
    rw [step] at hs
    split at hs
    · rw [next, hpc] at hs
      cases hs
      exact hphase d
    · cases hs
  same_round c ipi hc := by
    refine ⟨by rw [h.handled c ipi (.inr hc)], ?_⟩
    -- while an IPI is being handled somebody has the lock and counts
    cases hlock : s.lock with
    | none => exact absurd hc ((h.quiet hlock).handler_ne ipi)
    | some i =>
        refine ⟨i, rfl, ?_⟩
        have hphase := h.phase i
        have hholds := (h.lock_iff i).mp hlock
        cases hpc : (s.cpu i).pc with
        | out => rw [hpc] at hholds; cases hholds
        | spin v iff => rw [hpc] at hholds; cases hholds
        | locked v iff =>
            rw [hpc] at hphase
            exact absurd hc (Quiet.handler_ne hphase ipi)
        | addrSet v iff =>
            rw [hpc] at hphase
            exact absurd hc (hphase.1.handler_ne ipi)
        | send v iff rest => exact ⟨v, iff, .inr ⟨rest, hpc⟩⟩
        | wait v iff => exact ⟨v, iff, .inl hpc⟩
        | done v iff =>
            rw [hpc] at hphase
            exact absurd hc (hphase.1.handler_ne ipi)
        | unlocked v iff => rw [hpc] at hholds; cases hholds
  same_addr c ipi hc := by
    rcases hc with hc | hc
    · rw [h.pending c ipi hc]
    · rw [h.handled c ipi (.inl hc)]

/-- **TLB shootdown is complete.** On any number of CPUs and in every interleaving, when a call of
`pmap_global_invlpg` returns, every CPU has executed `invlpg` of its address since it began; no
acknowledgement is counted in another round than its own, and `invlpg_addr` does not change between
an IPI and its service. -/
theorem shootdown_complete (intr : C → Bool) (h : (machine cfg).Reachable (init intr) s) :
    Complete cfg s :=
  (inv_reachable h).complete

/-- Two CPUs. -/
def twoCpus : Cpus (Fin 2) := ⟨[0, 1], by decide, by decide⟩

/-- CPU 0 invalidates the page at 5, and CPU 1 answers; CPU 0 is about to return. -/
def oneRound : List (Action (Fin 2)) :=
  [.pmapGlobalInvlpg 0 5, .next 0, .next 0, .next 0, .next 0, .next 0, .interrupt 1, .next 0,
    .handle 1, .handle 1, .next 0, .next 0, .handle 1]

/-- A round of two CPUs: both have invalidated the address when it ends. -/
theorem shootdown_complete_two :
    ∃ s, (machine twoCpus).exec (init fun _ => true) oneRound = some s ∧
      (s.cpu 0).pc = .unlocked 5 true ∧ s.since 0 = [(1, 5), (0, 5)] ∧ Complete twoCpus s :=
  ⟨_, rfl, rfl, rfl, shootdown_complete (fun _ => true)
    (Machine.reachable_of_exec (l := oneRound) rfl)⟩

end Scalux.Shootdown
