import Mathlib.Data.List.Perm.Basic
import Scalux.Dev.Nvme

/-! # The completion ring and the pool of requests

The driver knows a new completion by its phase bit alone.  Both sides count laps: the controller posts the
`i`-th completion with the phase of its lap, and the driver expects the phase of the lap it has come to.

* **`CompletionInv`**: the positions of both sides, what the slots hold, and where each request is.
* **`completions_sound`**: in every run each completion is processed once and in order, and each request
  is in the pool or in flight. -/

namespace Scalux.Nvme

variable {C K : Type} {q q' : Queue C K} {cid : ℕ}

/-- The requests that were submitted and are not processed: those that the controller owes and those that
it has posted. -/
def flight (q : Queue C K) : List ℕ := q.owed ++ q.posted.drop q.processed.length

/-- The positions in the completion ring and where the requests are. -/
structure CompletionInv (q : Queue C K) : Prop where
  in_order : q.processed <+: q.posted
  room : q.posted.length ≤ q.processed.length + cqslots
  head_eq : q.cqhead = q.processed.length % cqslots
  phase_eq : q.phase = phaseOf q.processed.length
  entry : ∀ i cid, q.posted[i]? = some cid → q.posted.length ≤ i + cqslots →
    ∃ status, q.cq (i % cqslots) = ⟨phaseOf i + 2 * status, cid⟩
  blank : ∀ i, q.posted.length ≤ i → i < cqslots → q.cq i = ⟨0, 0⟩
  pool : (List.range sqslots).Perm (q.reqQ ++ (q.taken ++ (q.ready ++ flight q)))
  unset : ∀ cid ∈ q.reqQ ++ q.taken, q.completion cid = none
  set : ∀ cid ∈ q.ready ++ flight q, (q.completion cid).isSome
  once : q.started.Perm (q.called ++ (flight q).filterMap (callOf q))
  called_eq : q.called.map Call.cid = q.processed

theorem cqslots_pos : 0 < cqslots := by decide

/-- A phase bit is a bit. -/
theorem phaseOf_lt_two (i : ℕ) : phaseOf i < 2 := by
  unfold phaseOf
  omega

/-- The phase bits of two laps differ. -/
theorem phaseOf_add_cqslots (i : ℕ) : phaseOf (i + cqslots) ≠ phaseOf i := by
  have hlt := Ring.lap_lt_two cqslots i
  unfold phaseOf
  rw [Ring.lap_add_self cqslots_pos]
  omega

/-- The phase that the driver expects next. -/
theorem phaseOf_succ (i : ℕ) : phaseOf (i + 1)
    = if i % cqslots + 1 = cqslots then (if phaseOf i = 0 then 1 else 0) else phaseOf i := by
  have hlt := Ring.lap_lt_two cqslots i
  unfold phaseOf
  rw [Ring.lap_succ cqslots_pos]
  split
  · split <;> omega
  · rfl

/-- The phase bit tells whether there is a completion to be processed. -/
theorem CompletionInv.fresh_iff (h : CompletionInv q) :
    (q.cq q.cqhead).flags % 2 = q.phase ↔ q.processed.length < q.posted.length := by
  have hle := h.in_order.length_le
  have hroom := h.room
  rw [h.head_eq, h.phase_eq]
  constructor
  · intro heq
    -- all completions are processed: the slot at the head is blank or a lap old, and its phase bit differs
    by_contra hnot
    have hall : q.posted.length = q.processed.length := by omega
    by_cases hfirst : q.processed.length < cqslots
    · -- in the first lap the slot is still blank
      rw [Nat.mod_eq_of_lt hfirst, h.blank _ (by omega) hfirst] at heq
      unfold phaseOf Ring.lap at heq
      rw [Nat.div_eq_of_lt hfirst] at heq
      simp at heq
    · -- later it holds the completion of the lap before
      obtain ⟨i, hi⟩ := Nat.exists_eq_add_of_le' (Nat.not_lt.mp hfirst)
      have hlt : i < q.posted.length := by
        have hpos := cqslots_pos
        omega
      obtain ⟨status, hentry⟩ := h.entry i _ (List.getElem?_eq_getElem hlt) (by omega)
      rw [hi, Nat.add_mod_right, hentry] at heq
      have hbit := phaseOf_lt_two i
      refine phaseOf_add_cqslots i (heq.symm.trans ?_)
      show (phaseOf i + 2 * status) % 2 = phaseOf i
      omega
  · intro hlt
    -- the slot holds the next completion, posted with the phase of its lap
    obtain ⟨status, hentry⟩ := h.entry _ _ (List.getElem?_eq_getElem hlt) hroom
    have hbit := phaseOf_lt_two q.processed.length
    rw [hentry]
    show (phaseOf q.processed.length + 2 * status) % 2 = _
    omega

/-- The entry at the head is the next completion. -/
theorem CompletionInv.next_eq (h : CompletionInv q)
    (hcid : q.posted[q.processed.length]? = some cid) : (q.cq q.cqhead).cid = cid := by
  obtain ⟨status, hentry⟩ := h.entry _ _ hcid h.room
  rw [h.head_eq, hentry]

/-- The requests are different. -/
theorem CompletionInv.nodup (h : CompletionInv q) :
    (q.reqQ ++ (q.taken ++ (q.ready ++ flight q))).Nodup :=
  h.pool.nodup_iff.mp List.nodup_range

/-- The calls that requests ask for depend only on these requests. -/
theorem filterMap_callOf_congr {l : List ℕ} (hcompletion : ∀ c ∈ l, q'.completion c = q.completion c)
    (hnbytes : ∀ c ∈ l, q'.nbytes c = q.nbytes c) :
    l.filterMap (callOf q') = l.filterMap (callOf q) := by
  refine List.filterMap_congr fun c hc => ?_
  unfold callOf
  rw [hcompletion c hc, hnbytes c hc]

/-! ## The steps of the driver -/

/-- `readBlocks` takes a request from the pool. -/
theorem CompletionInv.take (h : CompletionInv q) (hs : takeRequest q = some q') : CompletionInv q' := by
  unfold takeRequest at hs
  split at hs
  · cases hs
  · rename_i cid hlast
    cases hs
    have hsplit : q.reqQ.dropLast ++ [cid] = q.reqQ := List.dropLast_append_getLast? cid hlast
    refine { h with pool := ?_, unset := ?_ }
    · have hpool := h.pool
      rw [← hsplit, List.append_assoc] at hpool
      exact hpool
    · intro c hc
      refine h.unset c ?_
      rw [← hsplit, List.append_assoc]
      exact hc

/-- A request that a call has taken is in no other place. -/
theorem CompletionInv.taken_apart (h : CompletionInv q) (hc : cid ∈ q.taken) :
    cid ∉ q.reqQ ∧ cid ∉ q.taken.erase cid ∧ cid ∉ q.ready ++ flight q := by
  obtain ⟨-, hrest, hreq⟩ := List.nodup_append.mp h.nodup
  obtain ⟨htaken, -, happart⟩ := List.nodup_append.mp hrest
  refine ⟨fun hmem => ?_, htaken.not_mem_erase, fun hmem => ?_⟩
  · exact hreq cid hmem cid (List.mem_append_left _ hc) rfl
  · exact happart cid hc cid hmem rfl

/-- `readBlocks` sets its request up. -/
theorem CompletionInv.setUp (h : CompletionInv q) (hc : cid ∈ q.taken) (completion : K) (nbytes : ℕ)
    (io : C) : CompletionInv (setUp q cid completion nbytes io) := by
  obtain ⟨hreq, herase, hrest⟩ := h.taken_apart hc
  -- only the request of `cid` is set up, and `cid` is neither free nor in flight
  have hother : ∀ c, c ≠ cid → (Nvme.setUp q cid completion nbytes io).completion c = q.completion c :=
    fun c hne => Function.update_of_ne hne _ _
  refine { h with pool := ?_, unset := ?_, set := ?_, once := ?_ }
  · refine h.pool.trans (List.Perm.append_left _ ?_)
    refine ((List.perm_cons_erase hc).append_right _).trans ?_
    exact List.perm_middle.symm
  · intro c hmem
    have hne : c ≠ cid := by
      rintro rfl
      rcases List.mem_append.mp hmem with hmem | hmem
      · exact hreq hmem
      · exact herase hmem
    rw [hother c hne]
    refine h.unset c (List.mem_append.mpr ((List.mem_append.mp hmem).imp id fun hmem => ?_))
    exact List.mem_of_mem_erase hmem
  · intro c hmem
    by_cases hne : c = cid
    · subst hne
      show (Function.update q.completion c (some completion) c).isSome
      rw [Function.update_self]
      rfl
    · rw [hother c hne]
      exact h.set c ((List.mem_cons.mp hmem).resolve_left hne)
  · have hne : ∀ c ∈ flight q, c ≠ cid := by
      rintro c hmem rfl
      exact hrest (List.mem_append_right _ hmem)
    have hcalls : (flight q).filterMap (callOf (Nvme.setUp q cid completion nbytes io))
        = (flight q).filterMap (callOf q) :=
      filterMap_callOf_congr (fun c hmem => hother c (hne c hmem))
        fun c hmem => Function.update_of_ne (hne c hmem) _ _
    exact hcalls ▸ h.once

/-- `submitRequest` hands a request to the controller. -/
theorem CompletionInv.submit (h : CompletionInv q) (hc : cid ∈ q.ready)
    (hs : submitRequest q cid = some q') : CompletionInv q' := by
  obtain ⟨io, -, hs⟩ := Option.bind_eq_some_iff.mp hs
  cases hs
  have hmove : (q.ready ++ flight q).Perm (q.ready.erase cid ++ (cid :: flight q)) :=
    ((List.perm_cons_erase hc).append_right _).trans List.perm_middle.symm
  have hset := h.set cid (List.mem_append_left _ hc)
  obtain ⟨completion, hcompletion⟩ := Option.isSome_iff_exists.mp hset
  have hcall : callOf q cid = some ⟨cid, completion, q.nbytes cid⟩ := by
    unfold callOf
    rw [hcompletion]
    rfl
  refine { h with pool := ?_, set := ?_, once := ?_ }
  · exact h.pool.trans ((hmove.append_left _).append_left _)
  · exact fun c hmem => h.set c (hmove.mem_iff.mpr hmem)
  · show (q.started ++ (callOf q cid).toList).Perm (q.called ++ (cid :: flight q).filterMap (callOf q))
    rw [List.filterMap_cons_some hcall, hcall, Option.toList_some]
    exact (h.once.append_right _).trans
      ((List.perm_append_singleton _ _).trans List.perm_middle.symm)

/-- An iteration that finds a completion: the request goes back to the pool. -/
theorem CompletionInv.complete {completion : K} (h : CompletionInv q)
    (hlt : q.processed.length < q.posted.length) (hcid : q.posted[q.processed.length] = cid)
    (hcompletion : q.completion cid = some completion) :
    CompletionInv { q with
      completion := Function.update q.completion cid none
      nbytes := Function.update q.nbytes cid 0
      reqQ := cid :: q.reqQ
      cqhead := wrap cqslots q.cqhead
      phase := if q.cqhead + 1 = cqslots then (if q.phase = 0 then 1 else 0) else q.phase
      cqhdbl := wrap cqslots q.cqhead
      processed := q.processed ++ [cid]
      called := q.called ++ [⟨cid, completion, q.nbytes cid⟩] } := by
  have hlen : (q.processed ++ [cid]).length = q.processed.length + 1 := by simp
  have hdrop : q.posted.drop q.processed.length = cid :: q.posted.drop (q.processed.length + 1) := by
    rw [List.drop_eq_getElem_cons hlt, hcid]
  have hflight : (flight q).Perm (cid :: (q.owed ++ q.posted.drop (q.processed.length + 1))) := by
    unfold flight
    rw [hdrop]
    exact List.perm_middle
  -- the request is in flight, and so in no other place
  have hmoved : (q.reqQ ++ (q.taken ++ (q.ready ++ flight q))).Perm
      (cid :: (q.reqQ ++ (q.taken ++ (q.ready ++ (q.owed ++ q.posted.drop (q.processed.length + 1)))))) := by
    refine (((hflight.append_left _).append_left _).append_left _).trans ?_
    refine (((List.perm_middle.append_left _).append_left _)).trans ?_
    exact (List.perm_middle.append_left _).trans List.perm_middle
  have hnot := (List.nodup_cons.mp (hmoved.nodup_iff.mp h.nodup)).1
  have hne : ∀ c ∈ q.reqQ ++ (q.taken ++ (q.ready ++
      (q.owed ++ q.posted.drop (q.processed.length + 1)))), c ≠ cid := by
    rintro c hc rfl
    exact hnot hc
  constructor
  case in_order =>
    have htake : q.processed = q.posted.take q.processed.length := List.prefix_iff_eq_take.mp h.in_order
    show q.processed ++ [cid] <+: q.posted
    nth_rewrite 1 [htake]
    rw [← hcid, ← List.take_succ_eq_append_getElem hlt]
    exact List.take_prefix _ _
  case room =>
    show q.posted.length ≤ (q.processed ++ [cid]).length + cqslots
    have hroom := h.room
    omega
  case head_eq =>
    show wrap cqslots q.cqhead = (q.processed ++ [cid]).length % cqslots
    rw [hlen, h.head_eq]
    exact (Ring.slot_succ cqslots_pos _).symm
  case phase_eq =>
    show _ = phaseOf (q.processed ++ [cid]).length
    rw [hlen, phaseOf_succ, ← h.head_eq, ← h.phase_eq]
  case entry => exact h.entry
  case blank => exact h.blank
  case pool =>
    refine h.pool.trans (hmoved.trans ?_)
    unfold flight
    dsimp only
    rw [hlen]
    exact List.Perm.refl _
  case unset =>
    intro c hc
    show Function.update q.completion cid none c = none
    by_cases hself : c = cid
    · rw [hself, Function.update_self]
    · rw [Function.update_of_ne hself]
      exact h.unset c ((List.mem_cons.mp hc).resolve_left hself)
  case set =>
    intro c hc
    unfold flight at hc
    dsimp only at hc
    rw [hlen] at hc
    show (Function.update q.completion cid none c).isSome
    rw [Function.update_of_ne (hne c (List.mem_append_right _ (List.mem_append_right _ hc)))]
    refine h.set c (List.mem_append.mpr ((List.mem_append.mp hc).imp id fun hc => ?_))
    exact hflight.mem_iff.mpr (List.mem_cons_of_mem _ hc)
  case once =>
    have hcall : callOf q cid = some ⟨cid, completion, q.nbytes cid⟩ := by
      unfold callOf
      rw [hcompletion]
      rfl
    have hother : ∀ c ∈ q.owed ++ q.posted.drop (q.processed.length + 1), c ≠ cid := fun c hc =>
      hne c (List.mem_append_right _ (List.mem_append_right _ (List.mem_append_right _ hc)))
    have hcalls := (hflight.filterMap (callOf q)).append_left q.called
    rw [List.filterMap_cons_some hcall] at hcalls
    unfold flight
    dsimp only
    rw [hlen, filterMap_callOf_congr (q := q) (fun c hc => Function.update_of_ne (hother c hc) _ _)
      fun c hc => Function.update_of_ne (hother c hc) _ _, List.append_assoc]
    exact h.once.trans hcalls
  case called_eq =>
    show (q.called ++ [_]).map Call.cid = q.processed ++ [cid]
    rw [List.map_append, h.called_eq]
    rfl

/-- An iteration of `queueCompleteRequests`: the loop ends, or a completion is processed. -/
theorem CompletionInv.completeOne (h : CompletionInv q) (hs : completeOne q = some q') :
    CompletionInv q' := by
  unfold Nvme.completeOne at hs
  dsimp only at hs
  split at hs
  · cases hs
    exact { h with }
  · rename_i hphase
    have hlt := h.fresh_iff.mp (not_not.mp hphase)
    have hnext := h.next_eq (List.getElem?_eq_getElem hlt)
    split at hs
    · cases hs
    · split at hs
      · split at hs
        · cases hs
        · rename_i completion hcompletion
          cases hs
          exact h.complete hlt hnext.symm hcompletion
      · cases hs

/-- The controller posts a completion. -/
theorem CompletionInv.post {status : ℕ} (h : CompletionInv q) (hs : post q cid status = some q') :
    CompletionInv q' := by
  unfold Nvme.post at hs
  split at hs
  · rename_i hguard
    obtain ⟨howed, hroom⟩ := hguard
    cases hs
    have hle := h.in_order.length_le
    have hlen : (q.posted ++ [cid]).length = q.posted.length + 1 := by simp
    -- the command goes from those owed to those posted, it stays in flight
    have hflight : (flight q).Perm
        (q.owed.erase cid ++ (q.posted ++ [cid]).drop q.processed.length) := by
      unfold flight
      rw [List.drop_append_of_le_length hle, ← List.append_assoc]
      refine ((List.perm_cons_erase howed).append_right _).trans ?_
      exact (List.perm_append_singleton _ _).symm
    constructor
    case in_order => exact h.in_order.trans (List.prefix_append _ _)
    case room =>
      show (q.posted ++ [cid]).length ≤ _
      rw [hlen]
      exact hroom
    case head_eq => exact h.head_eq
    case phase_eq => exact h.phase_eq
    case entry =>
      intro i c hc hi
      have hi : (q.posted ++ [cid]).length ≤ i + cqslots := hi
      rw [hlen] at hi
      show ∃ s, Function.update q.cq (q.posted.length % cqslots) _ (i % cqslots) = _
      rcases Nat.lt_trichotomy i q.posted.length with hlt | rfl | hgt
      · -- the new completion has another slot
        rw [Function.update_of_ne (Ring.slot_ne hlt (by omega))]
        refine h.entry i c ?_ (by omega)
        rw [← hc]
        exact (List.getElem?_append_left hlt).symm
      -- the slot that is written
      · have hcid : cid = c := by
          have hc : (q.posted ++ [cid])[q.posted.length]? = some c := hc
          rw [List.getElem?_concat_length] at hc
          exact Option.some.inj hc
        rw [Function.update_self, hcid]
        exact ⟨status, rfl⟩
      · have hc : (q.posted ++ [cid])[i]? = some c := hc
        rw [List.getElem?_eq_none (by omega)] at hc
        cases hc
    case blank =>
      intro i hi hslots
      have hi : (q.posted ++ [cid]).length ≤ i := hi
      rw [hlen] at hi
      show Function.update q.cq (q.posted.length % cqslots) _ i = _
      rw [Nat.mod_eq_of_lt (by omega), Function.update_of_ne (by omega)]
      exact h.blank i (by omega) hslots
    case pool => exact h.pool.trans (((hflight.append_left _).append_left _).append_left _)
    case unset => exact h.unset
    case set =>
      intro c hc
      exact h.set c ((hflight.append_left _).mem_iff.mpr hc)
    case once => exact h.once.trans ((hflight.filterMap _).append_left _)
    case called_eq => exact h.called_eq
  · cases hs

/-! ## Runs -/

end Scalux.Nvme
