import Mathlib.Data.Fintype.Basic
import Scalux.Vm.Locks

/-! # The order of the locks

`vm_fault` locks a map, then an object, then an anon.  `vm_object_copy` locks an object, then its
anons, and for each of them the page and then, in `pmap_reenter_all_readonly`, the map of every mapping
of the page.  So the map comes first in the one and last in the other.

* **`vm_locks_no_deadlock`**: there is no cycle of waiting threads in any state of a run in which no
  copy comes to wait for the lock of a map while a fault that has this lock is still to lock an object
  or an anon.
* **`vm_locks_deadlock`**: a fault and a fork of one map. -/

namespace Scalux.VmLocks

open Vm

/-! ## Control flow -/

/-- The mutexes that a thread has. -/
def Pc.held : Pc → List Lock
  | .out | .faultMap .. | .deallocMap .. | .copyObj _ => []
  | .faultObj m .. | .faultUnlockMap m | .deallocUnlock m => [.map m]
  | .faultAnon f _ | .faultNew f none => [.map f.map, .obj f.obj]
  | .faultNew f (some old) => [.map f.map, .obj f.obj, .anon old]
  | .faultOld f old newanon => [.map f.map, .obj f.obj, .anon old, .anon newanon]
  | .faultUnlockAnon f anon => [.map f.map, .obj f.obj, .anon anon]
  | .faultUnlockObj m o => [.map m, .obj o]
  | .copyAnon c .. | .copyUnlockObj c => [.obj c.obj]
  | .copyPage c _ oldanon _ | .copyUnlockAnon c _ oldanon => [.obj c.obj, .anon oldanon]
  | .copyMap c _ oldanon page .. | .copyUnlockPage c _ oldanon page =>
      [.obj c.obj, .anon oldanon, .page page]
  | .copyUnlockMap c _ oldanon page m _ => [.obj c.obj, .anon oldanon, .page page, .map m]

/-- The control flow: where a thread may be after a step. -/
inductive Flow (new : Fresh) (s : State) : Pc → Pc → Prop
  | noEntry {m v flags} : Flow new s (.faultMap m v flags) (.faultUnlockMap m)
  | entry {m v flags ent map} (hmap : s.maps.get? m = some map)
      (hent : mapEntryForAddr map.entries v = some ent) :
      Flow new s (.faultMap m v flags) (.faultObj m (pgRoundDown v) flags ent)
  | slot {m v flags ent page anon} :
      Flow new s (.faultObj m v flags ent) (.faultAnon ⟨m, ent.obj, v, page, flags⟩ anon)
  | noSlot {m v flags ent page} :
      Flow new s (.faultObj m v flags ent) (.faultNew ⟨m, ent.obj, v, page, flags⟩ none)
  | noFault {m v flags ent} : Flow new s (.faultObj m v flags ent) (.faultUnlockObj m ent.obj)
  | shared {f anon} : Flow new s (.faultAnon f anon) (.faultNew f (some anon))
  | mapped {f anon} : Flow new s (.faultAnon f anon) (.faultUnlockAnon f anon)
  | zeroed {f} : Flow new s (.faultNew f none) (.faultUnlockAnon f new.anon)
  | copied {f old} : Flow new s (.faultNew f (some old)) (.faultOld f old new.anon)
  | unlockOld {f old anon} : Flow new s (.faultOld f old anon) (.faultUnlockAnon f anon)
  | unlockAnon {f anon} : Flow new s (.faultUnlockAnon f anon) (.faultUnlockObj f.map f.obj)
  | unlockObj {m o} : Flow new s (.faultUnlockObj m o) (.faultUnlockMap m)
  | unlockMap {m} : Flow new s (.faultUnlockMap m) .out
  | deallocated {m start size} : Flow new s (.deallocMap m start size) (.deallocUnlock m)
  | deallocUnlock {m} : Flow new s (.deallocUnlock m) .out
  | copyFirst {c i a} : Flow new s (.copyObj c) (.copyAnon c i a)
  | copyEmpty {c} : Flow new s (.copyObj c) (.copyUnlockObj c)
  | copyShare {c i a p} : Flow new s (.copyAnon c i a) (.copyPage c i a p)
  | pvFirst {c i a p pv tmp} (hpv : (s.pv p).head? = some pv) :
      Flow new s (.copyPage c i a p) (.copyMap c i a p pv tmp)
  | pvEmpty {c i a p} : Flow new s (.copyPage c i a p) (.copyUnlockPage c i a p)
  | pvReenter {c i a p pv tmp} :
      Flow new s (.copyMap c i a p pv tmp) (.copyUnlockMap c i a p pv.1 tmp)
  | pvNext {c i a p m pv tmp} :
      Flow new s (.copyUnlockMap c i a p m (some pv)) (.copyMap c i a p pv tmp)
  | pvLast {c i a p m} : Flow new s (.copyUnlockMap c i a p m none) (.copyUnlockPage c i a p)
  | unlockPage {c i a p} : Flow new s (.copyUnlockPage c i a p) (.copyUnlockAnon c i a)
  | copyNext {c i a j b} : Flow new s (.copyUnlockAnon c i a) (.copyAnon c j b)
  | copyLast {c i a} : Flow new s (.copyUnlockAnon c i a) (.copyUnlockObj c)
  | forkNext {c d} : Flow new s (.copyUnlockObj c) (.copyObj d)
  | copyReturn {c} : Flow new s (.copyUnlockObj c) .out

variable {new : Fresh} {st st' : State} {pc pc' : Pc} {op : Op} {l : Lock} {m : MapId}

/-- `amap_copy` goes on with an anon or ends. -/
theorem copyFrom_cases {c : Copy} {i : ℕ} (h : copyFrom st c i = some (st', pc')) :
    (∃ j a, pc' = .copyAnon c j a) ∨ pc' = .copyUnlockObj c := by
  unfold copyFrom at h
  obtain ⟨obj, -, h⟩ := Option.bind_eq_some_iff.mp h
  split at h
  · cases h
    exact .inl ⟨_, _, rfl⟩
  · cases h
    exact .inr rfl

/-- The walk through the `pv_table` goes on with an entry or ends. -/
theorem copyPv_cases {c : Copy} {i : ℕ} {a : AnonId} {p : Page} {x : Option (MapId × ℕ)}
    (h : copyPv st c i a p x = some (st', pc')) :
    (∃ pv tmp, x = some pv ∧ pc' = .copyMap c i a p pv tmp) ∨
      (x = none ∧ pc' = .copyUnlockPage c i a p) := by
  cases x with
  | none =>
      cases h
      exact .inr ⟨rfl, rfl⟩
  | some pv =>
      obtain ⟨tmp, -, h⟩ := Option.bind_eq_some_iff.mp h
      cases h
      exact .inl ⟨pv, tmp, rfl, rfl⟩

/-- `vm_map_fork` goes on with a copy or returns. -/
theorem forkFrom_cases {newmap : MapId} {newobj : ObjId} {x : Option Entry}
    (h : forkFrom st m newmap newobj x = some (st', pc')) :
    (∃ d, pc' = .copyObj d) ∨ pc' = .out := by
  cases x with
  | none =>
      cases h
      exact .inr rfl
  | some ent =>
      obtain ⟨obj, -, h⟩ := Option.bind_eq_some_iff.mp h
      split at h
      · obtain ⟨objs, -, h⟩ := Option.bind_eq_some_iff.mp h
        cases h
        exact .inl ⟨_, rfl⟩
      · cases h

/-- The code follows the control flow. -/
theorem flow_after (h : after new st pc = some (st', pc')) : Flow new st pc pc' := by
  cases pc with
  | out => cases h
  -- the branches of `vm_fault`, each with the locks it still has to release
  | faultMap m v flags =>
      obtain ⟨map, hmap, h⟩ := Option.bind_eq_some_iff.mp h
      split at h
      · cases h
        exact .noEntry
      · rename_i ent hent
        cases h
        exact .entry hmap hent
  | faultObj m v flags ent =>
      obtain ⟨obj, -, h⟩ := Option.bind_eq_some_iff.mp h
      split at h
      · obtain ⟨slots, -, h⟩ := Option.bind_eq_some_iff.mp h
        split at h
        · cases h
          exact .slot
        · split at h
          · cases h
            exact .noFault
          · cases h
            exact .noSlot
      · cases h
        exact .noFault
  | faultAnon f a =>
      obtain ⟨anon, -, h⟩ := Option.bind_eq_some_iff.mp h
      split at h
      · split at h
        · split at h
          · cases h
            exact .shared
          · split at h
            · cases h
            · cases h
              exact .mapped
        · obtain ⟨s, -, h⟩ := Option.bind_eq_some_iff.mp h
          cases h
          exact .mapped
      · split at h
        · cases h
        · cases h
          exact .mapped
  | faultNew f old =>
      obtain ⟨obj, -, h⟩ := Option.bind_eq_some_iff.mp h
      cases old with
      | none =>
          obtain ⟨s, -, h⟩ := Option.bind_eq_some_iff.mp h
          cases h
          exact .zeroed
      | some old =>
          obtain ⟨anon, -, h⟩ := Option.bind_eq_some_iff.mp h
          obtain ⟨s, -, h⟩ := Option.bind_eq_some_iff.mp h
          obtain ⟨s', -, h⟩ := Option.bind_eq_some_iff.mp h
          cases h
          exact .copied
  | faultOld f old a =>
      obtain ⟨anon, -, h⟩ := Option.bind_eq_some_iff.mp h
      cases h
      exact .unlockOld
  | faultUnlockAnon f a =>
      cases h
      exact .unlockAnon
  | faultUnlockObj m o =>
      cases h
      exact .unlockObj
  | faultUnlockMap m =>
      cases h
      exact .unlockMap
  | deallocMap m start size =>
      obtain ⟨s, -, h⟩ := Option.bind_eq_some_iff.mp h
      cases h
      exact .deallocated
  | deallocUnlock m =>
      cases h
      exact .deallocUnlock
  -- the copy of an object: its slots in turn, for each the mappings of its page in turn
  | copyObj c =>
      obtain ⟨obj, -, h⟩ := Option.bind_eq_some_iff.mp h
      split at h
      · obtain ⟨j, a, rfl⟩ | rfl := copyFrom_cases h
        · exact .copyFirst
        · exact .copyEmpty
      · cases h
  | copyAnon c i a =>
      obtain ⟨anon, -, h⟩ := Option.bind_eq_some_iff.mp h
      cases h
      exact .copyShare
  | copyPage c i a p =>
      obtain ⟨pv, tmp, hpv, rfl⟩ | ⟨-, rfl⟩ := copyPv_cases h
      · exact .pvFirst hpv
      · exact .pvEmpty
  | copyMap c i a p pv tmp =>
      change afterCopyMap st c i a p pv tmp = _ at h
      unfold afterCopyMap at h
      split at h
      · cases h
        exact .pvReenter
      · cases h
  | copyUnlockMap c i a p m tmp =>
      obtain ⟨pv, tmp', rfl, rfl⟩ | ⟨rfl, rfl⟩ := copyPv_cases h
      · exact .pvNext
      · exact .pvLast
  | copyUnlockPage c i a p =>
      cases h
      exact .unlockPage
  | copyUnlockAnon c i a =>
      obtain ⟨j, b, rfl⟩ | rfl := copyFrom_cases h
      · exact .copyNext
      · exact .copyLast
  | copyUnlockObj c =>
      change afterCopy st c new = _ at h
      unfold afterCopy at h
      split at h
      · obtain ⟨x, -, h⟩ := Option.bind_eq_some_iff.mp h
        cases h
        exact .copyReturn
      · obtain ⟨⟨r, s₁⟩, -, h⟩ := Option.bind_eq_some_iff.mp h
        cases r with
        | error e => cases h
        | ok addr =>
            obtain ⟨s₂, -, h⟩ := Option.bind_eq_some_iff.mp h
            obtain ⟨map, -, h⟩ := Option.bind_eq_some_iff.mp h
            obtain ⟨next, -, h⟩ := Option.bind_eq_some_iff.mp h
            obtain ⟨d, rfl⟩ | rfl := forkFrom_cases h
            · exact .forkNext
            · exact .copyReturn

/-- A thread has what it has locked and not unlocked. -/
theorem Flow.held (h : Flow new st pc pc') (hop : pc.op new = some op) :
    (∀ l ∈ pc.held, op ≠ .mutexUnlock l → l ∈ pc'.held) ∧
      ∀ l, op = .mutexLock l ∨ op = .initLock l → l ∈ pc'.held := by
  cases h <;> cases hop <;> simp [Pc.held]

/-! ## Waiting -/

/-- A fault that has its map and is still to lock an object or an anon. -/
def Pc.faultWaits : Pc → Bool
  | .faultObj .. | .faultAnon .. => true
  | _ => false

/-- The map that a fault locks to go on with an entry of it. -/
def Pc.faultLocks (s : State) : Pc → Option MapId
  | .faultMap m v _ => do
      let map ← s.maps.get? m
      let _ ← mapEntryForAddr map.entries v
      return m
  | _ => none

/-- The map of the mapping that a copy makes read-only next. -/
def Pc.copyWants : Pc → Option MapId
  | .copyMap _ _ _ _ pv _ => some pv.1
  | _ => none

/-- The map that a copy stands before after its next step. -/
def Pc.nextMap (s : State) : Pc → Option MapId
  | .copyPage _ _ _ p => (s.pv p).head?.map Prod.fst
  | .copyUnlockMap _ _ _ _ _ tmp => tmp.map Prod.fst
  | _ => none

/-- A copy comes to a map from the walk through the `pv_table`. -/
theorem Flow.nextMap (h : Flow new st pc pc') (hm : pc'.copyWants = some m) :
    pc.nextMap st = some m := by
  cases h <;> cases hm
  case pvFirst hpv => simp [Pc.nextMap, hpv]
  case pvNext => rfl

/-- A fault has locked its map and now locks another mutex, or it locks its map as the first one. -/
theorem Flow.faultWaits (h : Flow new st pc pc') (hop : pc.op new = some op)
    (hw : pc'.faultWaits = true) :
    (pc.faultWaits = true ∧ ∀ m, op ≠ .mutexLock (.map m) ∧ op ≠ .initLock (.map m)) ∨
      ∃ m, pc.faultLocks st = some m ∧ pc.held = [] ∧ op = .mutexLock (.map m) := by
  cases h <;> cases hw
  case entry m v flags ent map hmap hent =>
    cases hop
    exact .inr ⟨m, by simp [Pc.faultLocks, hmap, hent], rfl, rfl⟩
  case slot =>
    cases hop
    exact .inl ⟨rfl, fun m => ⟨by simp, by simp⟩⟩

variable {T : Type} [DecidableEq T] {s s' : LockState T} {t u : T}

/-- The condition on a step: a copy comes to wait for the lock of a map only if it is not a fault with
more to lock that has it, and a fault that goes on to an object locks a map only if no copy waits for
it. -/
def Apart (s : LockState T) : Action T → Prop
  | .run t _ =>
      (∀ m ∈ (s.pc t).nextMap s.sys.st, ∀ u ∈ s.owner (.map m), (s.pc u).faultWaits = false) ∧
        ∀ m ∈ (s.pc t).faultLocks s.sys.st, ∀ u, (s.pc u).copyWants ≠ some m
  | _ => True

instance [Fintype T] (s : LockState T) : (a : Action T) → Decidable (Apart s a)
  | .run t _ => inferInstanceAs (Decidable
      ((∀ m ∈ (s.pc t).nextMap s.sys.st, ∀ u ∈ s.owner (.map m), (s.pc u).faultWaits = false) ∧
        ∀ m ∈ (s.pc t).faultLocks s.sys.st, ∀ u, (s.pc u).copyWants ≠ some m))
  | .vmFault .. | .vmDeallocate .. | .vmMapObject .. | .vmMapFork .. | .call _ => .isTrue trivial

/-- The owners of the mutexes, and no copy that waits for a fault with more to lock. -/
structure Inv (s : LockState T) : Prop where
  /-- The owner of a mutex is at a place where it has it. -/
  owned : ∀ l t, s.owner l = some t → l ∈ (s.pc t).held
  apart : ∀ t u m, (s.pc t).copyWants = some m → s.owner (.map m) = some u →
    (s.pc u).faultWaits = false

/-- How far a thread that waits has got in the order. -/
def rank : Pc → ℕ
  | .faultMap .. | .deallocMap .. => 0
  | .faultObj .. | .copyObj _ => 1
  | .faultAnon .. | .copyAnon .. => 2
  | .copyPage .. => 3
  | _ => 4

/-- Which threads that wait have a mutex: for that of a map it is a fault. -/
def Lock.Before (pc : Pc) : Lock → Prop
  | .map _ => pc.faultWaits = true
  | .obj _ => 1 < rank pc
  | .anon _ => 2 < rank pc
  | .page _ => 3 < rank pc

/-- A thread that waits has only mutexes that come before the one it waits for. -/
theorem before_of_held (hheld : l ∈ pc.held) (hwants : pc.wants ≠ none) : l.Before pc := by
  cases pc
  case faultObj m v flags ent =>
    obtain rfl := List.mem_singleton.mp hheld
    rfl
  case faultAnon f anon =>
    obtain rfl | hl := List.mem_cons.mp hheld
    · rfl
    · obtain rfl := List.mem_singleton.mp hl
      exact Nat.lt_succ_self 1
  case copyAnon c i oldanon =>
    obtain rfl := List.mem_singleton.mp hheld
    exact Nat.lt_succ_self 1
  case copyPage c i oldanon page =>
    simp only [Pc.held, List.mem_cons, List.not_mem_nil, or_false] at hheld
    obtain rfl | rfl := hheld <;> simp [Lock.Before, rank]
  case copyMap c i oldanon page pv tmp =>
    simp only [Pc.held, List.mem_cons, List.not_mem_nil, or_false] at hheld
    obtain rfl | rfl | rfl := hheld <;> simp [Lock.Before, rank]
  all_goals first | exact absurd rfl hwants | cases hheld

/-- The order: a map for a fault, an object, an anon, a page, a map for a copy. -/
theorem rank_lt (hl : pc.wants = some l) (hheld : l ∈ pc'.held) (hwants : pc'.wants ≠ none)
    (hapart : ∀ m, pc.copyWants = some m → l = .map m → pc'.faultWaits = false) :
    rank pc < rank pc' := by
  have hbefore := before_of_held hheld hwants
  have hmap : pc'.faultWaits = true → 0 < rank pc' := by
    intro hwaits
    cases pc' <;> cases hwaits <;> exact Nat.succ_pos _
  cases pc <;> cases hl
  case faultMap m v flags => exact hmap hbefore
  case deallocMap m start size => exact hmap hbefore
  case copyMap c i oldanon page pv tmp =>
    have hno := hapart pv.1 rfl rfl
    rw [Lock.Before, hno] at hbefore
    cases hbefore
  all_goals exact hbefore

omit [DecidableEq T] in
/-- Under the invariant there is no cycle. -/
theorem Inv.not_deadlocked (h : Inv s) : ¬ Deadlocked s := by
  refine not_deadlock_of_rank (fun t => rank (s.pc t)) ?_
  rintro t u ⟨l, hl, hu⟩ hwants
  refine rank_lt hl (h.owned l u hu) hwants ?_
  rintro m hm rfl
  exact h.apart t u m hm hu

/-! ## Steps -/

/-- What an operation leaves to other threads. -/
theorem perform_other {owner owner' : Lock → Option T} (h : perform owner t op = some owner')
    (hne : u ≠ t) (hl : owner' l = some u) : owner l = some u := by
  -- taking a lock makes `t` its owner and no other thread
  have hset : ∀ l₀, Function.update owner l₀ (some t) l = some u → owner l = some u := by
    intro l₀ hl
    rw [Function.update_apply] at hl
    split at hl
    · exact absurd (Option.some.inj hl).symm hne
    · exact hl
  cases op with
  | mutexLock l₀ =>
      rw [perform] at h
      split at h
      · cases h
        exact hset l₀ hl
      · cases h
  | initLock l₀ =>
      cases h
      exact hset l₀ hl
  | mutexUnlock l₀ =>
      rw [perform] at h
      split at h
      · cases h
        rw [Function.update_apply] at hl
        split at hl
        · cases hl
        · exact hl
      · cases h

/-- What a thread has after an operation: what it had, unless it unlocks it, and what it locks. -/
theorem perform_self {owner owner' : Lock → Option T} (h : perform owner t op = some owner')
    (hl : owner' l = some t) :
    (owner l = some t ∧ op ≠ .mutexUnlock l) ∨ op = .mutexLock l ∨ op = .initLock l := by
  -- what `t` holds after its operation it held before or has just taken
  cases op with
  | mutexLock l₀ =>
      rw [perform] at h
      split at h
      · cases h
        by_cases heq : l = l₀
        · exact .inr (.inl (heq ▸ rfl))
        · rw [Function.update_of_ne heq] at hl
          exact .inl ⟨hl, by simp⟩
      · cases h
  | initLock l₀ =>
      cases h
      by_cases heq : l = l₀
      · exact .inr (.inr (heq ▸ rfl))
      · rw [Function.update_of_ne heq] at hl
        exact .inl ⟨hl, by simp⟩
  | mutexUnlock l₀ =>
      rw [perform] at h
      split at h
      · cases h
        by_cases heq : l = l₀
        · rw [heq, Function.update_self] at hl
          cases hl
        · rw [Function.update_of_ne heq] at hl
          exact .inl ⟨hl, fun hop => heq (Op.mutexUnlock.inj hop).symm⟩
      · cases h

omit [DecidableEq T] in
/-- `mutex_init` gives a mutex to nobody. -/
theorem owner_of_update {owner : Lock → Option T} {l₀ : Lock}
    (h : Function.update owner l₀ none l = some t) : owner l = some t := by
  rw [Function.update_apply] at h
  split at h
  · cases h
  · exact h

omit [DecidableEq T] in
/-- The `mutex_init` of `vm_object_copy`. -/
theorem owner_of_initObj {owner : Lock → Option T} (h : initObj owner pc l = some t) :
    owner l = some t := by
  cases pc
  case copyObj c => exact owner_of_update h
  all_goals exact h

omit [DecidableEq T] in
/-- Mutexes that lose their owners, and threads that stay where they are. -/
theorem Inv.init (h : Inv s) (howner : ∀ l t, s'.owner l = some t → s.owner l = some t)
    (hpc : s'.pc = s.pc) : Inv s' where
  owned l t hl := by
    rw [hpc]
    exact h.owned l t (howner l t hl)
  apart t u m hm hu := by
    rw [hpc] at hm ⊢
    exact h.apart t u m hm (howner _ u hu)

omit [DecidableEq T] in
/-- A copy is not a fault. -/
theorem faultWaits_of_copyWants (h : pc.copyWants = some m) : pc.faultWaits = false := by
  cases pc <;> cases h
  rfl

omit [DecidableEq T] in
/-- One thread moves.  What it has it has by its place; it comes to no map that a fault with more to
lock has, and if it is such a fault then no copy waits for its map. -/
theorem Inv.move (h : Inv s) (hpc : ∀ u, u ≠ t → s'.pc u = s.pc u)
    (howner : ∀ l u, u ≠ t → s'.owner l = some u → s.owner l = some u)
    (howned : ∀ l, s'.owner l = some t → l ∈ (s'.pc t).held)
    (hcopy : ∀ m u, u ≠ t → (s'.pc t).copyWants = some m → s.owner (.map m) = some u →
      (s.pc u).faultWaits = false)
    (hfault : ∀ m a, a ≠ t → (s'.pc t).faultWaits = true → s'.owner (.map m) = some t →
      (s.pc a).copyWants ≠ some m) : Inv s' := by
  constructor
  case owned =>
    intro l u hl
    by_cases hu : u = t
    · subst hu
      exact howned l hl
    · rw [hpc u hu]
      exact h.owned l u (howner l u hu hl)
  -- `t` is the one that waits, the one that owns, both or neither
  case apart =>
    intro a u m hm hl
    by_cases hu : u = t
    · subst hu
      by_cases ha : a = u
      · subst ha
        exact faultWaits_of_copyWants hm
      · rw [hpc a ha] at hm
        exact Bool.eq_false_iff.mpr fun hwaits => hfault m a ha hwaits hl hm
    · rw [hpc u hu]
      have hl := howner _ u hu hl
      by_cases ha : a = t
      · subst ha
        exact hcopy m u hu hm hl
      · rw [hpc a ha] at hm
        exact h.apart a u m hm hl

/-- A call has no mutex when it begins. -/
theorem Inv.enter {x : Option (State × Pc)} (h : Inv s) (hs : enter s t x = some s')
    (hx : ∀ st pc, x = some (st, pc) → pc.faultWaits = false ∧ pc.copyWants = none) : Inv s' := by
  unfold VmLocks.enter at hs
  split at hs
  · rename_i hout
    obtain ⟨⟨st, pc⟩, hpc, rfl⟩ := Option.map_eq_some_iff.mp hs
    obtain ⟨hwaits, hwants⟩ := hx st pc hpc
    have hself : Function.update s.pc t pc t = pc := Function.update_self t pc s.pc
    -- a thread that enters holds nothing and waits for nothing
    refine h.move (t := t) (fun u hu => Function.update_of_ne hu pc s.pc) (fun _ _ _ hl => hl) ?_ ?_ ?_
    · intro l hl
      have hmem := h.owned l t hl
      rw [hout] at hmem
      cases hmem
    · intro m u _ hm _
      have hm : (Function.update s.pc t pc t).copyWants = some m := hm
      rw [hself, hwants] at hm
      cases hm
    · intro m a _ hw _
      have hw : (Function.update s.pc t pc t).faultWaits = true := hw
      rw [hself, hwaits] at hw
      cases hw
  · cases hs

/-- A thread runs up to its next operation on a mutex. -/
theorem Inv.run (h : Inv s) (hok : Apart s (.run t new)) (hs : step s (.run t new) = some s') :
    Inv s' := by
  obtain ⟨op, hop, hs⟩ := Option.bind_eq_some_iff.mp hs
  obtain ⟨owner, hperform, hs⟩ := Option.bind_eq_some_iff.mp hs
  obtain ⟨⟨st, pc⟩, hafter, hs⟩ := Option.bind_eq_some_iff.mp hs
  cases hs
  have hflow := flow_after hafter
  have hself : Function.update s.pc t pc t = pc := Function.update_self t pc s.pc
  -- a lock that `t` has after the step it had before, or it has just taken or made it
  have hhas : ∀ l, initObj owner (s.pc t) l = some t →
      (s.owner l = some t ∧ op ≠ .mutexUnlock l) ∨ op = .mutexLock l ∨ op = .initLock l :=
    fun l hl => perform_self hperform (owner_of_initObj hl)
  refine h.move (t := t) (fun u hu => Function.update_of_ne hu pc s.pc) ?_ ?_ ?_ ?_
  · intro l u hu hl
    exact perform_other hperform hu (owner_of_initObj hl)
  · intro l hl
    show l ∈ (Function.update s.pc t pc t).held
    rw [hself]
    obtain ⟨hl, hop'⟩ | hop' := hhas l hl
    · exact (hflow.held hop).1 l (h.owned l t hl) hop'
    · exact (hflow.held hop).2 l hop'
  · intro m u _ hm hl
    have hm : (Function.update s.pc t pc t).copyWants = some m := hm
    rw [hself] at hm
    exact hok.1 m (hflow.nextMap hm) u hl
  · intro m a ha hw hl hm
    have hw : (Function.update s.pc t pc t).faultWaits = true := hw
    rw [hself] at hw
    obtain ⟨hwaits, hne⟩ | ⟨m', hlocks, hheld, rfl⟩ := hflow.faultWaits hop hw
    · obtain ⟨hl, -⟩ | hop' | hop' := hhas _ hl
      -- it waited before this step already: the invariant excludes it
      · have hno := h.apart a t m hm hl
        rw [hwaits] at hno
        cases hno
      · exact (hne m).1 hop'
      · exact (hne m).2 hop'
    · obtain ⟨hl, -⟩ | hop' | hop' := hhas _ hl
      · have hmem := h.owned _ t hl
        rw [hheld] at hmem
        cases hmem
      · cases hop'
        exact hok.2 m hlocks a hm
      · cases hop'

/-- A copy begins before the lock of its object. -/
theorem beginCopy_cases {caller : Caller} {o newobj : ObjId}
    (h : beginCopy st caller o newobj = some (st', pc')) : ∃ c, pc' = .copyObj c := by
  obtain ⟨objs, -, h⟩ := Option.bind_eq_some_iff.mp h
  cases h
  exact ⟨_, rfl⟩

/-- A fork begins with a copy, or there is nothing to copy. -/
theorem beginFork_cases {newmap : MapId} {pool : List Vmem.Tag} {newobj : ObjId}
    (h : beginFork st m newmap pool newobj = some (st', pc')) : (∃ c, pc' = .copyObj c) ∨ pc' = .out := by
  obtain ⟨s, -, h⟩ := Option.bind_eq_some_iff.mp h
  split at h
  · cases h
    exact .inr rfl
  · obtain ⟨map, -, h⟩ := Option.bind_eq_some_iff.mp h
    exact forkFrom_cases h

/-- Every step that meets the condition keeps the invariant. -/
theorem inv_step {a : Action T} (h : Inv s) (hok : Apart s a) (hs : step s a = some s') : Inv s' := by
  cases a with
  | vmFault t m v flags =>
      refine h.enter hs ?_
      rintro st pc ⟨⟩
      exact ⟨rfl, rfl⟩
  | vmDeallocate t m start size =>
      refine h.enter hs ?_
      rintro st pc ⟨⟩
      exact ⟨rfl, rfl⟩
  | vmMapObject t m o vaddr size offset newobj =>
      rw [step] at hs
      split at hs
      · refine h.enter hs ?_
        intro st pc hx
        obtain ⟨c, rfl⟩ := beginCopy_cases hx
        exact ⟨rfl, rfl⟩
      · cases hs
  | vmMapFork t m newmap pool newobj =>
      refine h.enter hs ?_
      intro st pc hx
      obtain ⟨c, rfl⟩ | rfl := beginFork_cases hx
      · exact ⟨rfl, rfl⟩
      · exact ⟨rfl, rfl⟩
  -- a call begins without locks; the locks move in the steps it takes
  | run t new => exact h.run hok hs
  | call c =>
      obtain ⟨init, -, hs⟩ := Option.bind_eq_some_iff.mp hs
      obtain ⟨sys, -, hs⟩ := Option.bind_eq_some_iff.mp hs
      cases hs
      refine h.init ?_ rfl
      intro l t hl
      cases init with
      | none => exact hl
      | some o => exact owner_of_update hl

/-- **No deadlock.** In every run in which no copy comes to wait for the lock of a map while a fault
with more to lock has it, no state has a cycle of waiting threads. -/
theorem vm_locks_no_deadlock {s₀ s : LockState T} (h₀ : Initial s₀)
    (h : machine.Reach Apart s₀ s) : ¬ Deadlocked s := by
  have hinv : Inv s := by
    refine h.invariant (I := Inv) ⟨?_, ?_⟩ fun s a s' hi hok hs => inv_step hi hok hs
    · intro l t hl
      rw [h₀.owner_eq l] at hl
      cases hl
    · intro t u m _ hl
      rw [h₀.owner_eq] at hl
      cases hl
  exact hinv.not_deadlocked

/-- Two threads after boot. -/
def bootLocks : LockState Bool := ⟨bootSys, fun _ => none, fun _ => .out⟩

/-- Nobody has a mutex after boot. -/
theorem initial_bootLocks : Initial bootLocks := ⟨fun _ => rfl, fun _ => rfl⟩

/-- A map with an object of two pages, the first of which a fault maps in; then the other thread forks
the map and runs `n` steps. -/
def forkAfterFault (n : ℕ) : List (Action Bool) :=
  [.call (.vmMapNew 1 [0, 1]), .call (.segRefill 1 [2, 3]), .call (.vmAllocate 1 0 0x2000 0x2000),
    .vmFault true 1 0x2000 ⟨false, true⟩] ++ List.replicate 6 (.run true ⟨0, 0, 0⟩) ++
  .vmMapFork false 1 2 [4, 5, 6, 7] 1 :: List.replicate n (.run false ⟨0, 0, 0⟩)

/-- A fault on the second page, which locks the map. -/
def faultAgain : List (Action Bool) := [.vmFault true 1 0x3000 ⟨false, true⟩, .run true ⟨0, 0, 0⟩]

/-- The fork has locked the object, and the fault locks the map and waits for the object. -/
theorem vm_locks_no_deadlock_waiting :
    ∃ s, machine.exec bootLocks (forkAfterFault 1 ++ faultAgain) = some s ∧
      WaitsFor s.owner (fun t => (s.pc t).wants) true false ∧ ¬ Deadlocked s := by
  have hrun : (machine.exec bootLocks (forkAfterFault 1 ++ faultAgain)).map
      (fun s => ((s.pc true).wants, s.owner (.obj 0))) = some (some (.obj 0), some false) := by
    decide
  obtain ⟨s, hs, hval⟩ := Option.map_eq_some_iff.mp hrun
  obtain ⟨hwants, howner⟩ := Prod.mk.inj hval
  refine ⟨s, hs, ⟨_, hwants, howner⟩, ?_⟩
  exact vm_locks_no_deadlock initial_bootLocks (Machine.reach_of_exec
    (c := fun s a => decide (Apart s a)) (fun _ _ hc => of_decide_eq_true hc) (by decide) hs)

/-- **A deadlock.** The fork has locked the object, its first anon and the page of the anon and waits for
the map, which is that of the fault; the fault waits for the object. -/
theorem vm_locks_deadlock :
    ∃ s, machine.exec bootLocks (forkAfterFault 3 ++ faultAgain) = some s ∧ Deadlocked s := by
  have hrun : (machine.exec bootLocks (forkAfterFault 3 ++ faultAgain)).map
      (fun s => ((s.pc true).wants, s.owner (.obj 0), (s.pc false).wants, s.owner (.map 1)))
        = some (some (.obj 0), some false, some (.map 1), some true) := by
    decide
  obtain ⟨s, hs, hval⟩ := Option.map_eq_some_iff.mp hrun
  simp only [Prod.mk.injEq] at hval
  obtain ⟨hfault, hobj, hcopy, hmap⟩ := hval
  refine ⟨s, hs, true, ?_⟩
  exact .head ⟨_, hfault, hobj⟩ (.single ⟨_, hcopy, hmap⟩)

end Scalux.VmLocks
