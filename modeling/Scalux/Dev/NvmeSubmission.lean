import Scalux.Dev.Nvme

/-! # The submission ring

The driver keeps no copy of the controller's position.  While fewer than `sqslots - 1` commands are
unfetched when a command is submitted, no command is lost; the pool has `sqslots` requests, so that the
driver may submit one more than that.

* **`RingSound`**: the controller has fetched what was submitted, first first, up to the entries between
  its position and the doorbell, and these are still in their slots.
* **`ring_sound`**: it holds in every run in which the condition is met. -/

namespace Scalux.Nvme

variable {C K : Type} {q q' : Queue C K}

/-- No command is lost: what was fetched is a beginning of what was submitted, the commands not fetched
are in their slots, the controller regards the ring as empty only if there are none, and it comes to
fetch them all. -/
structure RingSound (q : Queue C K) : Prop where
  order : q.fetched <+: q.submitted
  kept : ∀ j e, q.fetched.length ≤ j → q.submitted[j]? = some e → q.sq (j % sqslots) = e
  empty_iff : q.sqhead = q.sqtdbl ↔ q.fetched = q.submitted
  drains : ∃ n q', (machine C K).exec q (List.replicate n .fetch) = some q' ∧
    q'.fetched = q.submitted

/-- The condition on a step: a command is submitted only if it does not fill the ring. -/
def NotFull (q : Queue C K) : Action C K → Prop
  | .submitRequest _ => q.submitted.length + 1 < q.fetched.length + sqslots
  | _ => True

instance (q : Queue C K) : (a : Action C K) → Decidable (NotFull q a)
  | .submitRequest _ => Nat.decLt _ _
  | .takeRequest | .setUp .. | .queueCompleteRequests | .completeOne | .fetch | .post .. =>
      .isTrue trivial

/-- Both sides' positions in the ring. -/
structure RingInv (q : Queue C K) : Prop where
  order : q.fetched <+: q.submitted
  room : q.submitted.length < q.fetched.length + sqslots
  kept : ∀ j e, q.fetched.length ≤ j → q.submitted[j]? = some e → q.sq (j % sqslots) = e
  tail_eq : q.sqtail = q.submitted.length % sqslots
  doorbell : q.sqtdbl = q.sqtail
  head_eq : q.sqhead = q.fetched.length % sqslots

/-- The next position is the slot of the next element. -/
theorem wrap_mod {n : ℕ} (hn : 0 < n) (i : ℕ) : wrap n (i % n) = (i + 1) % n :=
  (Ring.slot_succ hn i).symm

theorem sqslots_pos : 0 < sqslots := by decide

/-- The initial ring is empty. -/
theorem ringInv_queueAlloc [Inhabited C] : RingInv (queueAlloc : Queue C K) where
  order := List.prefix_refl _
  room := by simp [queueAlloc, sqslots_pos]
  kept j e _ he := by simp [queueAlloc] at he
  tail_eq := rfl
  doorbell := rfl
  head_eq := rfl

/-- The invariant depends only on the ring. -/
theorem RingInv.congr (h : RingInv q) (hsq : q'.sq = q.sq) (htail : q'.sqtail = q.sqtail)
    (hdbl : q'.sqtdbl = q.sqtdbl) (hhead : q'.sqhead = q.sqhead) (hsub : q'.submitted = q.submitted)
    (hfet : q'.fetched = q.fetched) : RingInv q' where
  order := by rw [hfet, hsub]; exact h.order
  room := by rw [hfet, hsub]; exact h.room
  kept := by rw [hfet, hsub, hsq]; exact h.kept
  tail_eq := by rw [htail, hsub]; exact h.tail_eq
  doorbell := by rw [hdbl, htail]; exact h.doorbell
  head_eq := by rw [hhead, hfet]; exact h.head_eq

/-- A command goes to the slot after the last one, which no unfetched command has. -/
theorem RingInv.submit {cid : ℕ} (h : RingInv q)
    (hroom : q.submitted.length + 1 < q.fetched.length + sqslots)
    (hs : submitRequest q cid = some q') : RingInv q' := by
  obtain ⟨io, -, hs⟩ := Option.bind_eq_some_iff.mp hs
  cases hs
  have hlen : (q.submitted ++ [(⟨cid, io⟩ : Sqe C)]).length = q.submitted.length + 1 := by simp
  constructor
  case order => exact h.order.trans (List.prefix_append _ _)
  case room =>
    show (q.submitted ++ _).length < _
    rw [hlen]
    exact hroom
  case kept =>
    intro j e hj he
    show Function.update q.sq q.sqtail ⟨cid, io⟩ (j % sqslots) = e
    rw [h.tail_eq]
    rcases Nat.lt_trichotomy j q.submitted.length with hlt | rfl | hgt
    · -- an unfetched command: it is less than a lap before the new one
      rw [List.getElem?_append_left hlt] at he
      have hne : j % sqslots ≠ q.submitted.length % sqslots :=
        Ring.slot_ne hlt (by have hj : q.fetched.length ≤ j := hj; omega)
      rw [Function.update_of_ne hne]
      exact h.kept j e hj he
    -- the new command is in the slot the tail was at
    · rw [List.getElem?_concat_length] at he
      rw [Function.update_self]
      exact Option.some.inj he
    · rw [List.getElem?_eq_none (by rw [hlen]; omega)] at he
      cases he
  case tail_eq =>
    show wrap sqslots q.sqtail = (q.submitted ++ _).length % sqslots
    rw [hlen, h.tail_eq, wrap_mod sqslots_pos]
  case doorbell => rfl
  case head_eq => exact h.head_eq

/-- The controller sees an empty ring only if everything was fetched. -/
theorem RingInv.empty_iff (h : RingInv q) : q.sqhead = q.sqtdbl ↔ q.fetched = q.submitted := by
  have hle := h.order.length_le
  rw [h.doorbell, h.head_eq, h.tail_eq]
  constructor
  · intro heq
    refine h.order.eq_of_length (Nat.le_antisymm hle (Nat.le_of_not_lt fun hlt => ?_))
    exact Ring.slot_ne hlt h.room heq
  · intro heq
    rw [heq]

/-- The controller fetches the first command that it has not fetched. -/
theorem RingInv.fetch (h : RingInv q) (hs : fetch q = some q') :
    RingInv q' ∧ q'.submitted = q.submitted ∧ q'.fetched.length = q.fetched.length + 1 := by
  unfold Nvme.fetch at hs
  split at hs
  · cases hs
  · rename_i hne
    cases hs
    have hlt : q.fetched.length < q.submitted.length := by
      refine Nat.lt_of_le_of_ne h.order.length_le fun heq => ?_
      exact hne (h.empty_iff.mpr (h.order.eq_of_length heq))
    -- the head is at the slot of the first command that is not fetched
    have hentry : q.sq q.sqhead = q.submitted[q.fetched.length] := by
      rw [h.head_eq]
      exact h.kept _ _ (Nat.le_refl _) (List.getElem?_eq_getElem hlt)
    have hfetched : q.fetched = q.submitted.take q.fetched.length := List.prefix_iff_eq_take.mp h.order
    have hlen : (q.fetched ++ [q.sq q.sqhead]).length = q.fetched.length + 1 := by simp
    refine ⟨?_, rfl, hlen⟩
    constructor
    case order =>
      show q.fetched ++ [q.sq q.sqhead] <+: q.submitted
      rw [hentry]
      nth_rewrite 1 [hfetched]
      rw [← List.take_succ_eq_append_getElem hlt]
      exact List.take_prefix _ _
    case room =>
      show q.submitted.length < (q.fetched ++ _).length + sqslots
      rw [hlen]
      have hroom := h.room
      omega
    case kept =>
      intro j e hj he
      have hj : (q.fetched ++ [q.sq q.sqhead]).length ≤ j := hj
      exact h.kept j e (by omega) he
    case tail_eq => exact h.tail_eq
    case doorbell => exact h.doorbell
    case head_eq =>
      show wrap sqslots q.sqhead = (q.fetched ++ _).length % sqslots
      rw [hlen, h.head_eq, wrap_mod sqslots_pos]

/-- Each step keeps the ring. -/
theorem ringInv_step {a : Action C K} (h : RingInv q) (hc : NotFull q a) (hs : step q a = some q') :
    RingInv q' := by
  cases a with
  -- the steps about requests and completions leave the submission ring as it is
  | takeRequest =>
      rw [step] at hs
      split at hs
      · cases hs
      · unfold takeRequest at hs
        split at hs
        · cases hs
        · cases hs
          exact h.congr rfl rfl rfl rfl rfl rfl
  | setUp cid completion nbytes io =>
      rw [step] at hs
      split at hs
      · cases hs
        exact h.congr rfl rfl rfl rfl rfl rfl
      · cases hs
  -- the condition leaves one slot empty, so a full ring does not look like an empty one
  | submitRequest cid =>
      rw [step] at hs
      split at hs
      · cases hs
      · exact h.submit hc hs
  | queueCompleteRequests =>
      rw [step] at hs
      split at hs
      · cases hs
      · cases hs
        exact h.congr rfl rfl rfl rfl rfl rfl
  | completeOne =>
      rw [step] at hs
      split at hs
      · unfold completeOne at hs
        dsimp only at hs
        split at hs
        · cases hs
          exact h.congr rfl rfl rfl rfl rfl rfl
        · split at hs
          · cases hs
          · split at hs
            · split at hs
              · cases hs
              · cases hs
                exact h.congr rfl rfl rfl rfl rfl rfl
            · cases hs
      · cases hs
  | fetch => exact (h.fetch hs).1
  | post cid status =>
      rw [step] at hs
      unfold post at hs
      split at hs
      · cases hs
        exact h.congr rfl rfl rfl rfl rfl rfl
      · cases hs

/-- The controller comes to fetch every command. -/
theorem RingInv.drains (h : RingInv q) : ∃ n q',
    (machine C K).exec q (List.replicate n .fetch) = some q' ∧ q'.fetched = q.submitted := by
  -- the induction is on the number of unfetched commands
  obtain ⟨d, hd⟩ : ∃ d, q.fetched.length + d = q.submitted.length :=
    Nat.exists_eq_add_of_le' h.order.length_le |>.imp fun d hd => by omega
  induction d generalizing q with
  | zero => exact ⟨0, q, rfl, h.order.eq_of_length hd⟩
  | succ d ih =>
      have hne : ¬ q.sqhead = q.sqtdbl := by
        intro heq
        have hlen := congrArg List.length (h.empty_iff.mp heq)
        omega
      obtain ⟨q₁, hq₁⟩ : ∃ q₁, Nvme.fetch q = some q₁ := by
        unfold Nvme.fetch
        rw [if_neg hne]
        exact ⟨_, rfl⟩
      obtain ⟨h₁, hsub, hlen⟩ := h.fetch hq₁
      obtain ⟨n, q', hexec, hfetched⟩ := ih h₁ (by rw [hsub, hlen]; omega)
      refine ⟨n + 1, q', ?_, hfetched.trans hsub⟩
      rw [List.replicate_succ, Machine.exec_cons]
      have hstep : (machine C K).step q .fetch = some q₁ := hq₁
      rw [hstep]
      exact hexec

/-- **The submission ring loses no command.** In every run in which a command is submitted only while
fewer than `sqslots - 1` commands are unfetched. -/
theorem ring_sound [Inhabited C] (hreach : (machine C K).Reach NotFull queueAlloc q) : RingSound q := by
  have hinv : RingInv q := by
    refine hreach.invariant (I := RingInv) ringInv_queueAlloc ?_
    intro q a q' h hc hs
    exact ringInv_step h hc hs
  exact ⟨hinv.order, hinv.kept, hinv.empty_iff, hinv.drains⟩

/-- A call of `readBlocks` that takes the request `cid`. -/
def readBlocks (cid : ℕ) : List (Action ℕ ℕ) := [.takeRequest, .setUp cid cid 512 cid, .submitRequest cid]

/-- Two commands, of which the controller has fetched one. -/
theorem ring_sound_two :
    ∃ q, (machine ℕ ℕ).exec queueAlloc (readBlocks 63 ++ [.fetch] ++ readBlocks 62) = some q ∧
      q.submitted = [⟨63, 63⟩, ⟨62, 62⟩] ∧ q.fetched = [⟨63, 63⟩] ∧ RingSound q := by
  have hreach : ∀ q, (machine ℕ ℕ).exec queueAlloc (readBlocks 63 ++ [.fetch] ++ readBlocks 62) = some q →
      (machine ℕ ℕ).Reach NotFull queueAlloc q := by
    intro q hq
    refine Machine.reach_of_exec (c := fun q a => decide (NotFull q a)) ?_ (by decide) hq
    exact fun q a hc => of_decide_eq_true hc
  exact ⟨_, rfl, rfl, rfl, ring_sound (hreach _ rfl)⟩

/-- **A full pool fills the ring.** With all requests of the pool submitted and none fetched the tail is
at the controller's position again, and the controller regards the ring as empty. -/
theorem ring_lost : ¬ ∀ q : Queue ℕ ℕ, (machine ℕ ℕ).Reachable queueAlloc q → RingSound q := by
  intro h
  have hrun : ((machine ℕ ℕ).exec queueAlloc ((List.range 64).reverse.flatMap readBlocks)).map
      (fun q => (q.sqhead, q.sqtdbl, q.fetched.length, q.submitted.length)) = some (0, 0, 0, 64) := by
    decide +kernel
  obtain ⟨q, hexec, hq⟩ := Option.map_eq_some_iff.mp hrun
  simp only [Prod.mk.injEq] at hq
  obtain ⟨hhead, htail, hfetched, hsubmitted⟩ := hq
  have heq := (h q (Machine.reachable_of_exec hexec)).empty_iff.mp (hhead.trans htail.symm)
  rw [heq, hsubmitted] at hfetched
  cases hfetched

end Scalux.Nvme
