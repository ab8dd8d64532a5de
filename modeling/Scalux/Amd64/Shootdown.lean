import Scalux.Lib.Count
import Scalux.Lib.Run

/-! # TLB shootdown

`pmap_global_invlpg` (`x86_64/vm.c`) and the `kIntNumInvlPG` case of `handle_int` (`x86_64/intr.c`) on
any number of CPUs.  A step is one access to the shared data: `invlpg_global_lock`, `invlpg_addr`,
`invlpg_done_cnt`, one IPI, one `invlpg`.  The code outside, which may also run with interrupts off,
turns them on and off.  An IPI that has been sent is delivered once, at any later time at which its
CPU has interrupts on; the interrupt gate turns them off until the handler returns.

* **`shootdown_complete`**: when a call returns, every CPU has executed `invlpg` since it began.
* **`shootdown_no_deadlock`**: an initiator waits for no CPU that spins on the lock, if a CPU that
  calls finds no other one spinning and has answered the initiator that holds the lock.
* **`shootdown_deadlock`**: otherwise it may, with interrupts off, and so for ever. -/

namespace Scalux.Shootdown

/-- The CPUs: `cpus[0]`, ..., `cpus[ncpu - 1]`. -/
structure Cpus (C : Type*) where
  cpus : List C
  nodup : cpus.Nodup
  mem : ∀ c, c ∈ cpus

/-- `ncpu`. -/
def Cpus.ncpu {C : Type*} (cfg : Cpus C) : ℕ := cfg.cpus.length

/-- Where a CPU is in `pmap_global_invlpg(vaddr)`, with the result of its `md_intr_disable`. -/
inductive Pc (C : Type*)
  /-- Outside of it. -/
  | out
  /-- Interrupts are off; next, `spinlock_lock`. -/
  | spin (vaddr : ℕ) (iff : Bool)
  /-- Has the lock; next, `invlpg_addr = vaddr`. -/
  | locked (vaddr : ℕ) (iff : Bool)
  /-- Next, `invlpg_done_cnt = 1`. -/
  | addrSet (vaddr : ℕ) (iff : Bool)
  /-- In the loop over `cpus`, with `rest` to come; after it, `pmap_invlpg`. -/
  | send (vaddr : ℕ) (iff : Bool) (rest : List C)
  /-- Next, the test of `invlpg_done_cnt`. -/
  | wait (vaddr : ℕ) (iff : Bool)
  /-- Next, `spinlock_unlock`. -/
  | done (vaddr : ℕ) (iff : Bool)
  /-- Next, `md_intr_x` and the return. -/
  | unlocked (vaddr : ℕ) (iff : Bool)
  deriving DecidableEq, Repr

/-- An IPI.  History: the round that sent it and `invlpg_addr` at that moment. -/
structure Ipi where
  round : ℕ
  addr : ℕ
  deriving DecidableEq, Repr

/-- Where `handle_int` is with an IPI. -/
inductive Handler
  /-- Next, `pmap_invlpg(invlpg_addr)`. -/
  | invlpg (ipi : Ipi)
  /-- Next, `atomic_fetch_add(&invlpg_done_cnt, 1)`. -/
  | ack (ipi : Ipi)
  /-- Next, `lapic_eoi` and the return. -/
  | eoi
  deriving DecidableEq, Repr

/-- One CPU. -/
structure Cpu (C : Type*) where
  /-- The interrupt flag. -/
  intr : Bool
  pc : Pc C
  /-- The IPIs that it has not taken yet. -/
  pending : List Ipi
  handler : Option Handler
  deriving DecidableEq, Repr

/-- The CPUs and the data they share. -/
structure State (C : Type*) where
  cpu : C → Cpu C
  /-- `invlpg_global_lock`, with the CPU that has it. -/
  lock : Option C
  /-- `invlpg_addr`. -/
  addr : ℕ
  /-- `invlpg_done_cnt`. -/
  doneCnt : ℕ
  /-- History: how many times the lock has been taken. -/
  round : ℕ
  /-- History: which CPUs have executed `invlpg` of what since this CPU's last call began. -/
  since : C → List (C × ℕ)

/-- What happens next. -/
inductive Action (C : Type*)
  /-- The CPU calls `pmap_global_invlpg(vaddr)`. -/
  | pmapGlobalInvlpg (c : C) (vaddr : ℕ)
  /-- The CPU goes on in `pmap_global_invlpg`. -/
  | next (c : C)
  /-- The CPU takes an IPI. -/
  | interrupt (c : C)
  /-- The CPU goes on in `handle_int`. -/
  | handle (c : C)
  /-- Code outside turns interrupts on or off. -/
  | mdIntr (c : C) (on : Bool)

variable {C : Type*} [DecidableEq C]

/-- Change one CPU. -/
def setCpu (s : State C) (c : C) (x : Cpu C) : State C :=
  { s with cpu := Function.update s.cpu c x }

/-- `pmap_invlpg` on a CPU. -/
def pmapInvlpg (s : State C) (c : C) (vaddr : ℕ) : State C :=
  { s with since := fun i => (c, vaddr) :: s.since i }

/-- `md_ipi_invlpg`. -/
def mdIpiInvlpg (s : State C) (c : C) : State C :=
  setCpu s c { s.cpu c with pending := (s.cpu c).pending ++ [⟨s.round, s.addr⟩] }

/-- Going on in `pmap_global_invlpg`; `none` while the CPU spins or waits. -/
def next (cfg : Cpus C) (s : State C) (c : C) : Option (State C) :=
  let x := s.cpu c
  match x.pc with
  | .out => none
  -- the lock is taken when it is free; interrupts are off meanwhile
  | .spin v iff =>
      if s.lock = none then
        some (setCpu { s with lock := some c, round := s.round + 1 } c { x with pc := .locked v iff })
      else none
  | .locked v iff => some (setCpu { s with addr := v } c { x with pc := .addrSet v iff })
  | .addrSet v iff => some (setCpu { s with doneCnt := 1 } c { x with pc := .send v iff cfg.cpus })
  | .send v iff (d :: rest) =>
      let s := setCpu s c { x with pc := .send v iff rest }
      some (if d = c then s else mdIpiInvlpg s d)
  | .send v iff [] => some (pmapInvlpg (setCpu s c { x with pc := .wait v iff }) c v)
  -- every other CPU has counted itself, and this one counts as one
  | .wait v iff =>
      if s.doneCnt = cfg.ncpu then some (setCpu s c { x with pc := .done v iff }) else none
  | .done v iff => some (setCpu { s with lock := none } c { x with pc := .unlocked v iff })
  | .unlocked _ iff => some (setCpu s c { x with pc := .out, intr := if iff then true else x.intr })

/-- `handle_int` with an IPI. -/
def handle (s : State C) (c : C) : Option (State C) :=
  let x := s.cpu c
  match x.handler with
  | none => none
  | some (.invlpg ipi) =>
      some (pmapInvlpg (setCpu s c { x with handler := some (.ack ipi) }) c s.addr)
  | some (.ack _) =>
      some (setCpu { s with doneCnt := s.doneCnt + 1 } c { x with handler := some .eoi })
  | some .eoi => some (setCpu s c { x with handler := none, intr := true })

/-- The CPU runs code outside of `pmap_global_invlpg` and of the handler. -/
def outside (s : State C) (c : C) : Prop := (s.cpu c).pc = .out ∧ (s.cpu c).handler = none

instance (s : State C) (c : C) : Decidable (outside s c) := inferInstanceAs (Decidable (_ ∧ _))

/-- One step. -/
def step (cfg : Cpus C) (s : State C) : Action C → Option (State C)
  | .pmapGlobalInvlpg c v =>
      if outside s c then
        some (setCpu { s with since := Function.update s.since c [] } c
          { s.cpu c with intr := false, pc := .spin v (s.cpu c).intr })
      else none
  | .next c => if (s.cpu c).handler = none then next cfg s c else none
  | .interrupt c =>
      match (s.cpu c).pending with
      | [] => none
      | ipi :: rest =>
          if (s.cpu c).intr then
            some (setCpu s c
              { s.cpu c with intr := false, pending := rest, handler := some (.invlpg ipi) })
          else none
  | .handle c => handle s c
  | .mdIntr c on => if outside s c then some (setCpu s c { s.cpu c with intr := on }) else none

/-- The CPUs of one machine. -/
def machine (cfg : Cpus C) : Machine (State C) (Action C) where
  step := step cfg

/-- Nobody has called `pmap_global_invlpg` yet. -/
def init (intr : C → Bool) : State C where
  cpu c := ⟨intr c, .out, [], none⟩
  lock := none
  addr := 0
  doneCnt := 0
  round := 0
  since _ := []

end Scalux.Shootdown
