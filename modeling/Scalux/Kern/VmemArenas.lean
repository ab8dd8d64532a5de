import Scalux.Kern.VmemTags
import Scalux.Lib.Heap

/-! # Arenas that share the unused tags

Any number of arenas take their tags from one list, `free_segs`.  A call of `vmem_xalloc` may wait
for others: `seg_refill` calls `vm_kalloc` when tags run short, `try_import` calls `allocfn`, and
`vmem_xfree` calls `freefn`.  These functions allocate from arenas in their turn, so the calls under
way form a stack, and an action is a call or the return of the function that the last call waits for.

* The contents of the tags are shared too; an arena is its queue and its lists.
* `freefn` is handed the source of the arena; no call enters an arena whose `freefn` is running.
* **`vmemXalloc_eq`**, **`vmemXfree_eq`**: the parts of `vmem_xalloc` and `vmem_xfree` before and after
  the calls make up these functions as they are for one arena. -/

namespace Scalux.Vmem

variable {E : Type}

/-! ## `vmem_xalloc` and `vmem_xfree` in parts -/

/-- What the search of `vmem_xalloc` comes to: the request is served, or the arena has to import with
the two preallocated tags in hand. -/
inductive Searched (E : Type)
  | served (addr : ℕ) (v : Arena E)
  | unserved (newlseg newrseg : Tag) (v : Arena E)

/-- `vmem_xalloc` from the preallocation of tags to the end of the search. -/
def xallocSearch (v : Arena E) (size min : ℕ) (flags : Flags) : Option (Searched E) :=
  if size ≠ 0 then do
    let (newlseg, v) ← segAlloc v
    let (newrseg, v) ← segAlloc v
    match search v size min flags (searchIndices size) with
    | some (freeseg, addr) =>
        let v ← splitSeg v freeseg newlseg newrseg addr size
        return .served addr v
    | none => return .unserved newlseg newrseg v
  else none

/-- `try_import` and `vmem_xalloc` from the answer of `allocfn` on. -/
def xallocImported (v : Arena E) (newlseg newrseg : Tag) (size addr : ℕ) : Option (ℕ × Arena E) := do
  let (freeseg, v) ← vmemAddInternal v .kVMemSegSpanImported addr size
  let addr := (v.seg freeseg).base
  let v ← splitSeg v freeseg newlseg newrseg addr size
  return (addr, v)

/-- **`vmem_xalloc` in parts.** -/
theorem vmemXalloc_eq (src : Option (Source E)) (v : Arena E) (size align phase min max : ℕ)
    (flags : Flags) :
    vmemXalloc src v size align phase min max flags
      = if align = 0 ∧ phase = 0 ∧ (min = 0 ∨ flags.exact) ∧ max = 0 then
          (xallocSearch v size min flags).bind fun
            | .served addr v => some (.ok addr, v)
            | .unserved newlseg newrseg v =>
                match src with
                | none => some (.error (-eResourceExhausted), v)
                | some f => (f.allocfn v.env v.freeSegs size flags).bind fun
                    | (.error r, env, pool) => some (.error r, { v with env := env, freeSegs := pool })
                    | (.ok addr, env, pool) =>
                        (xallocImported { v with env := env, freeSegs := pool } newlseg newrseg size
                          addr).map fun p => (.ok p.1, p.2)
        else none := by
  by_cases hassert : align = 0 ∧ phase = 0 ∧ (min = 0 ∨ flags.exact) ∧ max = 0
  · rw [if_pos hassert]
    unfold vmemXalloc xallocSearch
    -- the assertion on the size is in the first half, the one on the other arguments is not
    by_cases hsize : size = 0
    · rw [if_neg (fun h => h.2.2.2.2 hsize), if_neg (not_not_intro hsize)]
      rfl
    · rw [if_pos ⟨hassert.1, hassert.2.1, hassert.2.2.1, hassert.2.2.2, hsize⟩, if_pos hsize]
      -- up to the answer of the source the two texts are the same
      cases segAlloc v with
      | none => rfl
      | some p =>
          obtain ⟨newlseg, v⟩ := p
          simp only [Option.bind_eq_bind, Option.bind_some]
          cases segAlloc v with
          | none => rfl
          | some p =>
              obtain ⟨newrseg, v⟩ := p
              simp only [Option.bind_some]
              cases search v size min flags (searchIndices size) with
              | some found =>
                  obtain ⟨freeseg, addr⟩ := found
                  simp only [Option.bind_assoc]
                  rfl
              | none =>
                  cases src with
                  | none => rfl
                  | some f =>
                      simp only [tryImport, Option.bind_eq_bind, Option.bind_assoc]
                      refine congrArg _ (funext fun answer => ?_)
                      obtain ⟨r, env, pool⟩ := answer
                      cases r with
                      | error r => rfl
                      | ok addr =>
                          simp only [xallocImported, Option.bind_eq_bind, Option.bind_assoc,
                            Option.map_eq_bind]
                          rfl
  · rw [if_neg hassert, vmemXalloc, if_neg fun h => hassert ⟨h.1, h.2.1, h.2.2.1, h.2.2.2.1⟩]

/-- `vmem_xfree` up to the check for an imported span that is entirely free: the segment that stands
for the range, the one before it, and whether the segment was coalesced. -/
def xfreeCoalesce (v : Arena E) (addr : ℕ) : Option (Tag × Tag × Bool × Arena E) := do
  let seg ← hashFind v.seg addr (v.hashtab (hashbucket addr))
  let v := listRemove v seg
  let (seg, coalesced, v) ← coalesceLeft v seg
  let left ← Queue.prevOf seg v.segqueue
  let (seg, coalesced, v) := coalesceRight v seg coalesced
  return (seg, left, coalesced, v)

/-- `vmem_xfree`: an imported span is entirely free. -/
def spanIsFree (v : Arena E) (seg left : Tag) : Bool :=
  (v.seg left).type = .kVMemSegSpanImported ∧ (v.seg seg).size = (v.seg left).size

/-- `vmem_xfree`: what its assertion says of the segment after an imported span. -/
def spanAssert (v : Arena E) (seg : Tag) : Bool :=
  (Queue.nextOf seg v.segqueue).all fun right => (v.seg right).type = .kVMemSegSpanImported

/-- `vmem_xfree` from the return of `freefn` on. -/
def xfreeReleased (v : Arena E) (seg left : Tag) (coalesced : Bool) : Arena E :=
  let v := if coalesced then listRemove v seg else v
  let v := segFree (queueRemove v seg) seg
  segFree (queueRemove (listRemove v left) left) left

/-- `vmem_xfree`, its end where no span is given back. -/
def xfreeKept (v : Arena E) (seg : Tag) (coalesced : Bool) : Arena E :=
  if coalesced then v else segFree (queueRemove v seg) seg

/-- **`vmem_xfree` in parts.** -/
theorem vmemXfree_eq (src : Option (Source E)) (v : Arena E) (addr : ℕ) :
    (vmemXfree src v addr).map Prod.snd
      = (xfreeCoalesce v addr).bind fun (seg, left, coalesced, v) =>
          if spanIsFree v seg left then
            if spanAssert v seg then
              src.bind fun f =>
                (f.freefn v.env v.freeSegs (v.seg left).base (v.seg left).size).map fun p =>
                  xfreeReleased { v with env := p.1, freeSegs := p.2 } seg left coalesced
            else none
          else some (xfreeKept v seg coalesced) := by
  -- the call up to the question whether the span is free, then the three ways in which it ends
  unfold vmemXfree xfreeCoalesce
  cases hashFind v.seg addr (v.hashtab (hashbucket addr)) with
  | none => rfl
  | some t =>
      simp only [Option.bind_eq_bind, Option.bind_some]
      cases coalesceLeft (listRemove v t) t with
      | none => rfl
      | some p =>
          obtain ⟨seg, coalesced, w⟩ := p
          simp only [Option.bind_some]
          cases Queue.prevOf seg w.segqueue with
          | none => rfl
          | some left =>
              simp only [Option.bind_some]
              generalize coalesceRight w seg coalesced = p
              obtain ⟨seg, coalesced, w⟩ := p
              simp only [Option.pure_def, Option.bind_some, spanIsFree, spanAssert, releaseSpan,
                decide_eq_true_eq]
              split
              · split
                · cases src with
                  | none => rfl
                  | some f =>
                      simp only [Option.bind_eq_bind, Option.bind_some, Option.bind_assoc,
                        Option.map_eq_bind]
                      rfl
                · rfl
              · rfl

/-! ## Arenas and the calls under way -/

namespace Arenas

/-- `vmem_t` without the contents of its tags; of the functions it imports with, whether they are
there. -/
structure Lists where
  segqueue : List Tag
  spanlist : List Tag
  freelist : ℕ → List Tag
  hashtab : ℕ → List Tag
  allocfn : Bool
  freefn : Bool

/-- What `vmem_xalloc` is asked for; `bootstrap` is the flag `kVMemBootstrap`. -/
structure Request where
  size : ℕ
  align : ℕ
  phase : ℕ
  min : ℕ
  max : ℕ
  flags : Flags
  bootstrap : Bool
  deriving DecidableEq, Repr

/-- A call that waits for another function to return. -/
inductive Frame
  /-- `vmem_xalloc` in `seg_refill`, for `vm_kalloc`. -/
  | refill (a : ℕ) (req : Request)
  /-- `vmem_xalloc` in `try_import`, for `allocfn`. -/
  | importing (a : ℕ) (req : Request) (newlseg newrseg : Tag)
  /-- `vmem_xfree`, for `freefn`. -/
  | releasing (a : ℕ) (seg left : Tag) (coalesced : Bool)

/-- The tags that a call under way has in hand. -/
def Frame.held : Frame → List Tag
  | .importing _ _ newlseg newrseg => [newlseg, newrseg]
  | _ => []

/-- The arena whose `freefn` a call waits for. -/
def Frame.busy : Frame → Option ℕ
  | .releasing a _ _ _ => some a
  | _ => none

/-- The arenas that are live, by address, the tags, and the calls under way, the last one first. -/
structure State where
  seg : Tag → Seg
  /-- `free_segs`; its length is `nfreesegs`. -/
  freeSegs : List Tag
  arenas : Heap Lists
  pending : List Frame
  /-- How often `seg_refill` has added a block. -/
  refills : ℕ

/-- A call, or the return of the function that the last call under way waits for. -/
inductive Action
  | vmemInit (a base size : ℕ) (source allocfn freefn : Bool)
  | vmemAdd (a base size : ℕ)
  | vmemXalloc (a : ℕ) (req : Request)
  | vmemXfree (a addr : ℕ)
  | vmemDestroy (a : ℕ)
  /-- `vm_kalloc` returns a block with the given chunks. -/
  | vmKallocReturns (block : List Tag)
  /-- `allocfn` returns `r`, with `addr` for the range it lends. -/
  | allocfnReturns (r : ℤ) (addr : ℕ)
  | freefnReturns

variable (s : State)

/-- The tags that are unused, in hand, or on the queue of an arena. -/
def State.allTags : List Tag :=
  s.freeSegs ++ (s.pending.flatMap Frame.held ++ s.arenas.collect Lists.segqueue)

/-- The number of segments on the queues of all arenas. -/
def State.segments : ℕ := s.arenas.weigh fun l => l.segqueue.length

/-- An arena with the shared tags. -/
def State.arena (l : Lists) : Arena Unit where
  seg := s.seg
  segqueue := l.segqueue
  spanlist := l.spanlist
  freelist := l.freelist
  hashtab := l.hashtab
  freeSegs := s.freeSegs
  env := ()

/-- An arena after an operation on it. -/
def Lists.with (l : Lists) (v : Arena Unit) : Lists :=
  { l with segqueue := v.segqueue, spanlist := v.spanlist, freelist := v.freelist, hashtab := v.hashtab }

/-- The state after an operation on the arena at `a`. -/
def State.put (a : ℕ) (l : Lists) (v : Arena Unit) : State :=
  { s with seg := v.seg, freeSegs := v.freeSegs, arenas := s.arenas.set a (l.with v) }

/-- A live arena whose `freefn` is not running. -/
def State.idle (a : ℕ) : Option Lists :=
  if s.pending.all fun f => f.busy ≠ some a then s.arenas.get? a else none

/-- `vmem_xalloc` from the return of `seg_refill` on. -/
def xalloc (a : ℕ) (req : Request) : Option State := do
  let l ← s.idle a
  match ← xallocSearch (s.arena l) req.size req.min req.flags with
  | .served _ v => return s.put a l v
  | .unserved newlseg newrseg v =>
      let s := s.put a l v
      if l.allocfn then
        return { s with pending := .importing a req newlseg newrseg :: s.pending }
      -- `-ERESOURCEEXHAUSTED`; the two tags are in no list
      else return s

/-- `seg_refill`: the chunks of a new block are zeroed and freed one after the other. -/
def State.refill (block : List Tag) : State :=
  { s with
    seg := fun t => if t ∈ block then ⟨.kVMemSegFree, 0, 0⟩ else s.seg t
    freeSegs := block.reverse ++ s.freeSegs
    refills := s.refills + 1 }

/-- One step. -/
def step : Action → Option State
  | .vmemInit a base size source allocfn freefn => do
      let l : Lists :=
        { segqueue := [], spanlist := [], freelist := fun _ => [], hashtab := fun _ => [],
          allocfn := allocfn, freefn := freefn }
      let v ← (if size ≠ 0 ∧ source = false then vmemAdd (s.arena l) base size else some (s.arena l))
      let arenas ← s.arenas.alloc a (l.with v)
      return { s with seg := v.seg, freeSegs := v.freeSegs, arenas := arenas }
  | .vmemAdd a base size => do
      let l ← s.idle a
      let v ← vmemAdd (s.arena l) base size
      return s.put a l v
  | .vmemXalloc a req =>
      if req.align = 0 ∧ req.phase = 0 ∧ (req.min = 0 ∨ req.flags.exact) ∧ req.max = 0 then
        if req.bootstrap ∨ 128 ≤ s.freeSegs.length then xalloc s a req
        else some { s with pending := .refill a req :: s.pending }
      else none
  | .vmemXfree a addr => do
      let l ← s.idle a
      let (seg, left, coalesced, v) ← xfreeCoalesce (s.arena l) addr
      if spanIsFree v seg left then
        if spanAssert v seg ∧ l.freefn then
          let s := s.put a l v
          return { s with pending := .releasing a seg left coalesced :: s.pending }
        else none
      else return s.put a l (xfreeKept v seg coalesced)
  | .vmemDestroy a => do
      let l ← s.idle a
      let v ← vmemDestroy (s.arena l)
      return { s with freeSegs := v.freeSegs, arenas := s.arenas.free a }
  | .vmKallocReturns block =>
      match s.pending with
      | .refill a req :: pending =>
          -- a block has 63 chunks, in memory that nothing else uses
          if block.length = 63 ∧ block.Nodup ∧ ∀ t ∈ block, t ∉ s.allTags then
            xalloc ({ s with pending := pending }.refill block) a req
          else none
      | _ => none
  | .allocfnReturns r addr =>
      match s.pending with
      | .importing a req newlseg newrseg :: pending => do
          let s := { s with pending := pending }
          if r < 0 then return s
          else
            let l ← s.idle a
            let (_, v) ← xallocImported (s.arena l) newlseg newrseg req.size addr
            return s.put a l v
      | _ => none
  | .freefnReturns =>
      match s.pending with
      | .releasing a seg left coalesced :: pending => do
          let s := { s with pending := pending }
          let l ← s.arenas.get? a
          return s.put a l (xfreeReleased (s.arena l) seg left coalesced)
      | _ => none

/-- The arenas' machine. -/
def machine : Machine State Action := ⟨step⟩

/-- `vmem_earlyinit`: the static tags are freed one after the other. -/
def vmemEarlyinit (staticSegs : List Tag) : State where
  seg _ := ⟨.kVMemSegFree, 0, 0⟩
  freeSegs := staticSegs.foldl (fun l t => t :: l) []
  arenas := ⟨[], fun _ => ⟨[], [], fun _ => [], fun _ => [], false, false⟩, List.nodup_nil⟩
  pending := []
  refills := 0

end Arenas

end Scalux.Vmem
