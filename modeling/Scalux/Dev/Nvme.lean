import Scalux.Lib.Ring
import Scalux.Lib.Run
import Scalux.Kern.Config

/-! # A queue pair of the NVMe driver

`dev/NVMeController.m`: the submission ring, the completion ring and the pool of requests of a queue pair,
with `readBlocks`, `submitRequest` and `queueCompleteRequests`, and the controller on the other side.

* A `struct nvme_request` is named by its `cid`, which is its index in `reqs`.  A call of `readBlocks` is
  named by the request that it has taken from the pool.
* The sections under the queue's lock are steps, and so is each iteration of the loop of
  `queueCompleteRequests`; during the loop nobody else enters a section (`completing`).
* The controller fetches submission entries in ring order up to the last tail doorbell, and regards equal
  positions as an empty ring.  It posts completion entries in ring order with the phase bit of the lap, at
  most one for each command that was submitted, and not past the head doorbell.
* `none` stands for a failed assertion or `fatal`, and for a step that is not enabled. -/

namespace Scalux.Nvme

/-- `queue->sqslots`: a page of entries of 64 bytes. -/
def sqslots : ℕ := pgSize / 64

/-- `queue->cqslots`, which is not a page of entries but equal to `sqslots`. -/
def cqslots : ℕ := pgSize / 64

/-- `struct nvme_sqe`: the command id and the rest of the command. -/
structure Sqe (C : Type) where
  cid : ℕ
  io : C
  deriving DecidableEq, Repr

/-- `struct nvme_cqe`: the phase bit and the status are in `flags`. -/
structure Cqe where
  flags : ℕ
  cid : ℕ
  deriving DecidableEq, Repr

/-- The call of a callback: the request, its completion and the number of bytes. -/
structure Call (K : Type) where
  cid : ℕ
  completion : K
  nbytes : ℕ
  deriving DecidableEq, Repr

/-- A queue pair, with commands `C` and completions `K`. -/
structure Queue (C K : Type) where
  /-- `req_q`, the requests in the pool, first to last. -/
  reqQ : List ℕ
  /-- `reqs[cid].completion`. -/
  completion : ℕ → Option K
  /-- `reqs[cid].nbytes`. -/
  nbytes : ℕ → ℕ
  /-- `*reqs[cid].sqe`. -/
  sqe : ℕ → Option C
  sq : ℕ → Sqe C
  sqtail : ℕ
  cq : ℕ → Cqe
  cqhead : ℕ
  phase : ℕ
  /-- The submission queue tail doorbell. -/
  sqtdbl : ℕ
  /-- The completion queue head doorbell. -/
  cqhdbl : ℕ
  /-- A run of `queueCompleteRequests` has the lock. -/
  completing : Bool
  /-- The requests of calls of `readBlocks` that have not set them up yet. -/
  taken : List ℕ
  /-- The requests of calls of `readBlocks` that are about to submit them. -/
  ready : List ℕ
  /-- The controller's position in the submission ring. -/
  sqhead : ℕ
  /-- The commands that the controller has not completed. -/
  owed : List ℕ
  /-- History: what was submitted, first first. -/
  submitted : List (Sqe C)
  /-- History: what the controller has fetched. -/
  fetched : List (Sqe C)
  /-- History: the command ids of the completions that were posted. -/
  posted : List ℕ
  /-- History: the command ids of the entries that were processed. -/
  processed : List ℕ
  /-- History: the calls that the submitted requests ask for. -/
  started : List (Call K)
  /-- History: the calls that were made. -/
  called : List (Call K)

variable {C K : Type}

/-- `queue_alloc`, with zeroed pages for the rings. -/
def queueAlloc [Inhabited C] : Queue C K where
  reqQ := List.range sqslots
  completion _ := none
  nbytes _ := 0
  sqe _ := none
  sq _ := ⟨0, default⟩
  sqtail := 0
  cq _ := ⟨0, 0⟩
  cqhead := 0
  phase := 1
  sqtdbl := 0
  cqhdbl := 0
  completing := false
  taken := []
  ready := []
  sqhead := 0
  owed := []
  submitted := []
  fetched := []
  posted := []
  processed := []
  started := []
  called := []

/-- The call that a request asks for. -/
def callOf (q : Queue C K) (cid : ℕ) : Option (Call K) :=
  (q.completion cid).map fun completion => ⟨cid, completion, q.nbytes cid⟩

/-- A position that is incremented and set to zero at the end of a ring. -/
def wrap (n i : ℕ) : ℕ := if i + 1 = n then 0 else i + 1

/-! ## The driver -/

/-- `readBlocks` takes the last request of the pool. -/
def takeRequest (q : Queue C K) : Option (Queue C K) :=
  match q.reqQ.getLast? with
  | none => none
  | some cid => some { q with reqQ := q.reqQ.dropLast, taken := cid :: q.taken }

/-- `readBlocks` sets the request up. -/
def setUp (q : Queue C K) (cid : ℕ) (completion : K) (nbytes : ℕ) (io : C) : Queue C K :=
  { q with
    completion := Function.update q.completion cid (some completion)
    sqe := Function.update q.sqe cid (some io)
    nbytes := Function.update q.nbytes cid nbytes
    taken := q.taken.erase cid
    ready := cid :: q.ready }

/-- `submitRequest:toQueue:withCompletion:`. -/
def submitRequest (q : Queue C K) (cid : ℕ) : Option (Queue C K) := do
  let io ← q.sqe cid
  let sqtail := wrap sqslots q.sqtail
  return { q with
    sq := Function.update q.sq q.sqtail ⟨cid, io⟩
    sqe := Function.update q.sqe cid none
    sqtail := sqtail
    sqtdbl := sqtail
    ready := q.ready.erase cid
    owed := cid :: q.owed
    submitted := q.submitted ++ [⟨cid, io⟩]
    started := q.started ++ (callOf q cid).toList }

/-- An iteration of the loop of `queueCompleteRequests`. -/
def completeOne (q : Queue C K) : Option (Queue C K) :=
  let e := q.cq q.cqhead
  -- the phase bit of the entry says that it is not new
  if e.flags % 2 ≠ q.phase then some { q with completing := false }
  -- an error status is fatal
  else if e.flags / 2 ≠ 0 then none
  else if e.cid < cqslots then
    match q.completion e.cid with
    | none => none
    | some completion =>
        let cqhead := wrap cqslots q.cqhead
        some { q with
          completion := Function.update q.completion e.cid none
          nbytes := Function.update q.nbytes e.cid 0
          reqQ := e.cid :: q.reqQ
          cqhead := cqhead
          -- the phase is inverted when the head wraps
          phase := if q.cqhead + 1 = cqslots then (if q.phase = 0 then 1 else 0) else q.phase
          cqhdbl := cqhead
          processed := q.processed ++ [e.cid]
          called := q.called ++ [⟨e.cid, completion, q.nbytes e.cid⟩] }
  else none

/-! ## The controller -/

/-- The controller fetches an entry. -/
def fetch (q : Queue C K) : Option (Queue C K) :=
  if q.sqhead = q.sqtdbl then none
  else some { q with fetched := q.fetched ++ [q.sq q.sqhead], sqhead := wrap sqslots q.sqhead }

/-- The phase bit of a completion: 1 in the first lap. -/
def phaseOf (i : ℕ) : ℕ := 1 - Ring.lap cqslots i

/-- The controller posts the completion of a command that it has not completed. -/
def post (q : Queue C K) (cid status : ℕ) : Option (Queue C K) :=
  if cid ∈ q.owed ∧ q.posted.length < q.processed.length + cqslots then
    some { q with
      cq := Function.update q.cq (q.posted.length % cqslots)
        ⟨phaseOf q.posted.length + 2 * status, cid⟩
      owed := q.owed.erase cid
      posted := q.posted ++ [cid] }
  else none

/-! ## Runs -/

/-- What the driver and the controller do. -/
inductive Action (C K : Type)
  | takeRequest
  | setUp (cid : ℕ) (completion : K) (nbytes : ℕ) (io : C)
  | submitRequest (cid : ℕ)
  /-- `queueCompleteRequests` takes the lock. -/
  | queueCompleteRequests
  | completeOne
  | fetch
  | post (cid status : ℕ)
  deriving Repr

/-- One step. -/
def step (q : Queue C K) : Action C K → Option (Queue C K)
  | .takeRequest => if q.completing then none else takeRequest q
  | .setUp cid completion nbytes io =>
      if cid ∈ q.taken then some (setUp q cid completion nbytes io) else none
  | .submitRequest cid => if q.completing ∨ cid ∉ q.ready then none else submitRequest q cid
  | .queueCompleteRequests => if q.completing then none else some { q with completing := true }
  | .completeOne => if q.completing then completeOne q else none
  | .fetch => fetch q
  | .post cid status => post q cid status

/-- The runs of a queue pair. -/
def machine (C K : Type) : Machine (Queue C K) (Action C K) := ⟨step⟩

end Scalux.Nvme
