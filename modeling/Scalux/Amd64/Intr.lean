import Mathlib.Data.List.FinRange
import Mathlib.Logic.Function.Basic
import Mathlib.Order.Basic
import Scalux.Lib.Run

/-! # The interrupt vectors of the machine

`idt_init`, `handle_int`, `md_intr_alloc` and `md_intr_register` (`x86_64/intr.c`): a driver asks for the
first vector that has no handler, from the first vector of a priority on.

* Whether a vector is in use is read off the table of handlers.  The vectors that `idt_init` registers are in
  that table; `kIntNumSwitch` and `kIntNumInvlPG`, which `handle_int` looks for before it looks at the table,
  and `kIntNumSyscall`, whose gate user mode may use, are not.
* A handler is `none` when it is `NULL`.

* **`mdIntrAlloc_spec`**: what a call does.
* **`handleInt_mdIntrAlloc`**: the interrupts of a vector that is not reserved reach the handler it was
  allocated for.
* **`intr_alloc_run`**: in a run from `idt_init` in which no reserved vector is the first without a handler,
  every call does what it is for; and a call does so only where that is so. -/

namespace Scalux.Intr

/-- The vectors that have a number of their own. -/
abbrev kIntNumSyscall : Fin 256 := 128
abbrev kIntNumLAPICTimer : Fin 256 := 223
abbrev kIntNumSwitch : Fin 256 := 240
abbrev kIntNumInvlPG : Fin 256 := 241
abbrev kIntNumReschedule : Fin 256 := 242

/-- The handlers: those of the kernel, and those of drivers. -/
inductive Handler (H : Type*)
  | pagefaultInterrupt
  | calloutInterrupt
  | schedTimeslice
  | driver (h : H)
  deriving DecidableEq

/-- `struct md_intr_entry`, without the name, which nothing sets. -/
structure Entry (H A : Type*) where
  prio : ℕ
  handler : Option (Handler H)
  arg : Option A
  deriving DecidableEq

/-- `md_intrs`. -/
abbrev Table (H A : Type*) := Fin 256 → Entry H A

variable {H A : Type*}

/-- `md_intr_register`. -/
def mdIntrRegister (md_intrs : Table H A) (vec : Fin 256) (prio : ℕ) (handler : Option (Handler H))
    (arg : Option A) : Table H A :=
  Function.update md_intrs vec ⟨prio, handler, arg⟩

/-- What `idt_init` leaves. -/
def idtInit : Table H A :=
  let t := mdIntrRegister (fun _ => ⟨0, none, none⟩) 14 0 (some .pagefaultInterrupt) none
  let t := mdIntrRegister t kIntNumLAPICTimer 0 (some .calloutInterrupt) none
  mdIntrRegister t kIntNumReschedule 0 (some .schedTimeslice) none

/-- What `handle_int` does with an interrupt before it returns. -/
inductive Handling (H A : Type*)
  | contextSwitch
  | invlpg
  | fatal
  | call (handler : Handler H) (arg : Option A)

/-- `handle_int`, up to the call of the handler. -/
def handleInt (md_intrs : Table H A) (num : Fin 256) : Handling H A :=
  if num = kIntNumSwitch then .contextSwitch
  else if num = kIntNumInvlPG then .invlpg
  else (md_intrs num).handler.elim .fatal fun h => .call h (md_intrs num).arg

/-- The type of a vector's gate: `SPECIAL_INTS` and `NORMAL_INTS`. -/
def gateType (num : Fin 256) : ℕ := if num = kIntNumSyscall then 0xee else 0x8e

/-- The arguments of `md_intr_alloc`. -/
structure Call (H A : Type*) where
  prio : Fin 16
  handler : Option (Handler H)
  arg : Option A

namespace Call

/-- Where the loop starts: `MAX(prio << 4, 32)`. -/
def first (c : Call H A) : ℕ := max (c.prio.val <<< 4) 32

/-- The entry that is registered. -/
def entry (c : Call H A) : Entry H A := ⟨c.prio, c.handler, c.arg⟩

end Call

/-- `md_intr_alloc`: what it returns, and the table after. -/
def mdIntrAlloc (md_intrs : Table H A) (c : Call H A) : ℤ × Table H A :=
  let vec := (((List.finRange 256).drop c.first).find? fun i => (md_intrs i).handler.isNone).getD 0
  if vec = 0 then (-1, md_intrs)
  else ((vec.val : ℤ), mdIntrRegister md_intrs vec c.prio c.handler c.arg)

/-- The vectors that are looked at before the table, and that of system calls. -/
def Reserved (v : Fin 256) : Prop := v = kIntNumSyscall ∨ v = kIntNumSwitch ∨ v = kIntNumInvlPG

instance (v : Fin 256) : Decidable (Reserved v) := by unfold Reserved; infer_instance

/-- The vectors a call may be given. -/
structure Call.Fits (c : Call H A) (t : Table H A) (v : Fin 256) : Prop where
  ge_32 : 32 ≤ v.val
  ge_prio : c.prio.val <<< 4 ≤ v.val
  free : (t v).handler = none
  not_reserved : ¬ Reserved v

/-- What a call is for. -/
structure AllocOk (t : Table H A) (c : Call H A) : Prop where
  returns : (mdIntrAlloc t c).1 = -1 ∨ ∃ v, (mdIntrAlloc t c).1 = (v.val : ℤ) ∧ c.Fits t v ∧
    (mdIntrAlloc t c).2 v = c.entry
  kept : ∀ v, (t v).handler ≠ none → (mdIntrAlloc t c).2 v = t v
  out_of_vectors : (mdIntrAlloc t c).1 = -1 → ∀ v, ¬ c.Fits t v

/-- Where a reserved vector is among those the loop looks at, one before it has no handler. -/
def Spares (t : Table H A) (c : Call H A) : Prop :=
  ∀ r, Reserved r → c.first ≤ r.val → (t r).handler = none →
    ∃ v, c.first ≤ v.val ∧ v < r ∧ (t v).handler = none

/-- The calls, one after another. -/
def machine (H A : Type*) : Machine (Table H A) (Call H A) where
  step t c := some (mdIntrAlloc t c).2

variable {t t' : Table H A} {c : Call H A} {v w : Fin 256}

/-! ## One call -/

/-- The loop visits the vectors from the first on. -/
theorem mem_drop_finRange {n : ℕ} : v ∈ (List.finRange 256).drop n ↔ n ≤ v.val := by
  rw [List.mem_drop_iff_getElem]
  constructor
  · rintro ⟨i, hi, rfl⟩
    simp
  · intro hn
    refine ⟨v.val - n, ?_, ?_⟩
    · rw [List.length_finRange]
      omega
    · rw [List.getElem_finRange]
      exact Fin.ext (Nat.add_sub_cancel' hn)

/-- The two ends of the loop: the first vector without a handler is found, or every vector has one. -/
theorem find_free_cases (t : Table H A) (n : ℕ) :
    (∃ v, ((List.finRange 256).drop n).find? (fun i => (t i).handler.isNone) = some v ∧ n ≤ v.val ∧
      (t v).handler = none ∧ ∀ w, n ≤ w.val → w < v → (t w).handler ≠ none) ∨
    (((List.finRange 256).drop n).find? (fun i => (t i).handler.isNone) = none ∧
      ∀ w : Fin 256, n ≤ w.val → (t w).handler ≠ none) := by
  cases hf : ((List.finRange 256).drop n).find? fun i => (t i).handler.isNone with
  | none =>
      refine .inr ⟨rfl, fun w hw => ?_⟩
      have hnone := List.find?_eq_none.mp hf w (mem_drop_finRange.mpr hw)
      simpa using hnone
  | some v =>
      obtain ⟨hv, l, r, hl, hbefore⟩ := List.find?_eq_some_iff_append.mp hf
      have hmem : v ∈ (List.finRange 256).drop n := List.mem_of_find?_eq_some hf
      refine .inl ⟨v, rfl, mem_drop_finRange.mp hmem, by simpa using hv, fun w hw hlt => ?_⟩
      -- the loop goes upwards, so what is below `v` comes before it
      have hsorted := (List.pairwise_lt_finRange 256).drop (i := n)
      rw [hl] at hsorted
      have hwmem : w ∈ l ++ v :: r := by
        rw [← hl]
        exact mem_drop_finRange.mpr hw
      rcases List.mem_append.mp hwmem with hwl | hwr
      · exact fun hnone => by simpa [hnone] using hbefore w hwl
      · rcases List.mem_cons.mp hwr with rfl | hwr
        · exact absurd hlt (lt_irrefl w)
        · have := List.rel_of_pairwise_cons (List.pairwise_append.mp hsorted).2.1 hwr
          exact absurd hlt (lt_asymm this)

theorem le_first (c : Call H A) : 32 ≤ c.first := Nat.le_max_right _ _

theorem first_le : c.first ≤ v.val ↔ c.prio.val <<< 4 ≤ v.val ∧ 32 ≤ v.val := Nat.max_le

/-- **What a call does.** It takes the first vector without a handler, or there is none. -/
theorem mdIntrAlloc_spec (t : Table H A) (c : Call H A) :
    (∃ v, mdIntrAlloc t c = ((v.val : ℤ), Function.update t v c.entry) ∧ c.first ≤ v.val ∧
      (t v).handler = none ∧ ∀ w, c.first ≤ w.val → w < v → (t w).handler ≠ none) ∨
    (mdIntrAlloc t c = (-1, t) ∧ ∀ w : Fin 256, c.first ≤ w.val → (t w).handler ≠ none) := by
  rcases find_free_cases t c.first with ⟨v, hf, hv, hfree, hlt⟩ | ⟨hf, hnone⟩
  · refine .inl ⟨v, ?_, hv, hfree, hlt⟩
    have hne : v ≠ 0 := by
      rintro rfl
      have := Nat.le_trans (le_first c) hv
      simp at this
    simp only [mdIntrAlloc, hf, Option.getD_some, hne, if_false]
    rfl
  · refine .inr ⟨?_, hnone⟩
    simp only [mdIntrAlloc, hf, Option.getD_none, if_true]

/-- A vector with a handler keeps its entry. -/
theorem mdIntrAlloc_kept (c : Call H A) (hv : (t v).handler ≠ none) : (mdIntrAlloc t c).2 v = t v := by
  rcases mdIntrAlloc_spec t c with ⟨u, heq, _, hfree, _⟩ | ⟨heq, _⟩
  · rw [heq]
    refine Function.update_of_ne ?_ _ _
    rintro rfl
    exact hv hfree
  · rw [heq]

/-- **Exactness.** A call does what it is for when no reserved vector is the first without a handler. -/
theorem allocOk_iff : AllocOk t c ↔ Spares t c := by
  rcases mdIntrAlloc_spec t c with ⟨v, heq, hv, hfree, hlt⟩ | ⟨heq, hnone⟩
  · constructor
    · -- were there none before it, the reserved vector would be the one returned
      intro h r hr hle hrfree
      have hnr : ¬ Reserved v := by
        rcases h.returns with hneg | ⟨u, hu, hfits, _⟩
        · rw [heq] at hneg
          simp at hneg
        · rw [heq] at hu
          obtain rfl : v = u := Fin.ext (Int.ofNat_inj.mp hu)
          exact hfits.not_reserved
      refine ⟨v, hv, ?_, hfree⟩
      rcases lt_trichotomy v r with h | rfl | h
      · exact h
      · exact absurd hr hnr
      · exact absurd hrfree (hlt r hle h)
    · -- the vector returned is no reserved one, as one before that has no handler
      intro h
      have hnr : ¬ Reserved v := fun hr => by
        obtain ⟨w, hw, hwv, hwfree⟩ := h v hr hv hfree
        exact hlt w hw hwv hwfree
      refine ⟨.inr ⟨v, by rw [heq], ⟨(first_le.mp hv).2, (first_le.mp hv).1, hfree, hnr⟩, ?_⟩,
        fun w => mdIntrAlloc_kept c, fun hneg => ?_⟩
      · rw [heq]
        exact Function.update_self _ _ _
      · rw [heq] at hneg
        simp at hneg
  · -- every vector has a handler
    refine ⟨fun _ r _ hle hrfree => absurd hrfree (hnone r hle), fun _ => ?_⟩
    exact ⟨.inl (by rw [heq]), fun w => mdIntrAlloc_kept c,
      fun _ w hw => hnone w (first_le.mpr ⟨hw.ge_prio, hw.ge_32⟩) hw.free⟩

/-! ## The dispatcher -/

/-- `handle_int` calls no handler for the vectors that it looks for. -/
theorem handleInt_of_reserved (t : Table H A) (hv : Reserved v) :
    gateType v = 0xee ∨ handleInt t v = .contextSwitch ∨ handleInt t v = .invlpg := by
  rcases hv with rfl | rfl | rfl
  · exact .inl rfl
  · exact .inr (.inl rfl)
  · exact .inr (.inr rfl)

/-- Any other vector reaches its handler. -/
theorem handleInt_of_not_reserved {h : Handler H} (hv : ¬ Reserved v) (hh : (t v).handler = some h) :
    handleInt t v = .call h (t v).arg ∧ gateType v = 0x8e := by
  have hsyscall : v ≠ kIntNumSyscall := fun h => hv (.inl h)
  have hswitch : v ≠ kIntNumSwitch := fun h => hv (.inr (.inl h))
  have hinvlpg : v ≠ kIntNumInvlPG := fun h => hv (.inr (.inr h))
  simp only [handleInt, gateType, hsyscall, hswitch, hinvlpg, hh, if_false, Option.elim_some, and_self]

/-- The interrupts of a vector that is not reserved reach the handler it was allocated for. -/
theorem handleInt_mdIntrAlloc {h : Handler H} (hok : AllocOk t c) (hh : c.handler = some h)
    (hret : (mdIntrAlloc t c).1 = (v.val : ℤ)) :
    handleInt (mdIntrAlloc t c).2 v = .call h c.arg := by
  rcases hok.returns with hneg | ⟨u, hu, hfits, hentry⟩
  · rw [hret] at hneg
    omega
  · obtain rfl : v = u := Fin.ext (Int.ofNat_inj.mp (hret.symm.trans hu))
    have hhandler : ((mdIntrAlloc t c).2 v).handler = some h := by rw [hentry]; exact hh
    rw [(handleInt_of_not_reserved hfits.not_reserved hhandler).1, hentry]
    rfl

/-! ## Every run -/

/-- The reserved vectors have no handler at first. -/
theorem idtInit_reserved (hv : Reserved v) : ((idtInit : Table H A) v).handler = none := by
  rcases hv with rfl | rfl | rfl <;> rfl

/-- A call that is as it should be leaves the reserved vectors alone. -/
theorem reserved_step (hs : Spares t c) (hr : ∀ r, Reserved r → (t r).handler = none) :
    ∀ r, Reserved r → ((mdIntrAlloc t c).2 r).handler = none := by
  intro r hres
  rcases mdIntrAlloc_spec t c with ⟨v, heq, hv, hfree, hlt⟩ | ⟨heq, _⟩
  · have hne : r ≠ v := by
      rintro rfl
      obtain ⟨w, hw, hwr, hwfree⟩ := hs r hres hv hfree
      exact hlt w hw hwr hwfree
    rw [heq]
    simp only [Function.update_of_ne hne]
    exact hr r hres
  · rw [heq]
    exact hr r hres

/-- A vector with a handler keeps its entry in every run. -/
theorem kept_run {cond : Table H A → Call H A → Prop} (h : (machine H A).Reach cond t t')
    (hv : (t v).handler ≠ none) : t' v = t v := by
  refine h.invariant (I := fun s => s v = t v) rfl fun s c s' hI _ hstep => ?_
  obtain rfl : (mdIntrAlloc s c).2 = s' := Option.some.inj hstep
  rw [mdIntrAlloc_kept c (by rw [hI]; exact hv), hI]

/-- **Every run from `idt_init`** whose calls find a vector before the reserved ones: the registrations made
by then stay, no reserved vector gets a handler, and the next call does what it is for, unless a reserved
vector would be the first without a handler. -/
theorem intr_alloc_run {t₀ t : Table H A} (h₀ : (machine H A).Reach Spares idtInit t₀)
    (h : (machine H A).Reach Spares t₀ t) :
    (∀ v, (t₀ v).handler ≠ none → t v = t₀ v) ∧ (∀ r, Reserved r → (t r).handler = none) ∧
      ∀ c, AllocOk t c ↔ Spares t c := by
  refine ⟨fun v hv => kept_run h hv, ?_, fun c => allocOk_iff⟩
  refine (h₀.trans h).invariant (I := fun s => ∀ r, Reserved r → (s r).handler = none)
    (fun r hr => idtInit_reserved hr) fun s c s' hI hs hstep => ?_
  obtain rfl : (mdIntrAlloc s c).2 = s' := Option.some.inj hstep
  exact reserved_step hs hI

/-- A driver of the lowest priority. -/
theorem intr_alloc_run_driver :
    ∃ t : Table ℕ ℕ, (∀ v, ((idtInit : Table ℕ ℕ) v).handler ≠ none → t v = idtInit v) ∧
      (∀ r, Reserved r → (t r).handler = none) ∧ ∀ c, AllocOk t c ↔ Spares t c := by
  have hspares : Spares (idtInit : Table ℕ ℕ) ⟨0, some (.driver 1), none⟩ := fun r hr _ _ =>
    ⟨32, by decide, by rcases hr with rfl | rfl | rfl <;> decide, rfl⟩
  exact ⟨_, intr_alloc_run .init (.step .init hspares rfl)⟩

/-- The first driver to ask for the highest priority gets the vector of the context switch, and its handler
is never called; the first to ask for priority 8 gets that of system calls. -/
theorem intr_alloc_reserved :
    (mdIntrAlloc (idtInit : Table ℕ ℕ) ⟨15, some (.driver 1), none⟩).1 = 240 ∧
      handleInt (mdIntrAlloc (idtInit : Table ℕ ℕ) ⟨15, some (.driver 1), none⟩).2 240 = .contextSwitch ∧
      (mdIntrAlloc (idtInit : Table ℕ ℕ) ⟨8, some (.driver 1), none⟩).1 = 128 ∧
      ¬ AllocOk (idtInit : Table ℕ ℕ) ⟨15, some (.driver 1), none⟩ := by
  have hret : (mdIntrAlloc (idtInit : Table ℕ ℕ) ⟨15, some (.driver 1), none⟩).1 = 240 := by
    decide +kernel
  refine ⟨hret, rfl, by decide +kernel, fun h => ?_⟩
  rcases h.returns with hneg | ⟨v, hv, hfits, _⟩
  · rw [hret] at hneg
    omega
  · obtain rfl : v = 240 := Fin.ext (Int.ofNat_inj.mp (hv.symm.trans hret))
    exact hfits.not_reserved (by decide)

end Scalux.Intr
