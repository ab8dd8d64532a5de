import Scalux.Kern.VmemQuantum
import Scalux.Kern.VmemContainers

/-! # The quantum of an arena

"The quantum is the natural unit of an arena, and allocations are made in multiples of it and aligned
to it" (`kern/vmem.c`).  `vmem_xalloc` does not read `vmem->quantum`: it reserves exactly the size it
is asked for, at the exact address it is asked for.  One request of another size gives a block that is
not a multiple, and the remainder that is split off begins at an address that is not one either.

So it is the requests that decide.  Runs of the calls on any arena, with any source or none, whose
spans are multiples of the quantum:

* **`vmem_quantum_kept`**: as long as the requests are for multiples of the quantum at multiples of
  it, every range handed out and every segment is a multiple of it.  A quantum that does not divide
  `2 ^ 64` also needs the requests not to be served beyond the end of a segment: the sums wrap.
* **`vmem_xalloc_unaligned`**: a request of half the quantum misaligns the next one. -/

namespace Scalux.Vmem

variable {E : Type} {src : Option (Source E)} {s s' s₀ : State E} {a : Action} {V V' : List Seg}
  {g f t : Seg} {quantum size min addr x y : ℕ} {flags : Flags}

/-! ## The calls -/

/-- One call on an arena with the given source, for any request of 64-bit words.  `none`: an assertion
fails or a link is null, or the range to be freed is not live. -/
def requestStep (src : Option (Source E)) (s : State E) : Action → Option (State E)
  | .vmemXalloc pool size align phase min max flags =>
      if PoolOk s.arena pool ∧ size < 2 ^ 64 ∧ min < 2 ^ 64 then
        (vmemXalloc src (withPool s.arena pool) size align phase min max flags).map fun r =>
          ⟨r.2, match r.1 with
            | .ok addr => (addr, size) :: s.live
            | .error _ => s.live⟩
      else none
  | a => sourceStep src s a

/-- The calls as a machine. -/
def requestMachine (src : Option (Source E)) : Machine (State E) Action := ⟨requestStep src⟩

/-- Whether the span markers of the arena are multiples of the quantum. -/
def SpansMultiple (quantum : ℕ) (s : State E) : Prop :=
  ∀ t ∈ view s.arena, t.isSpan = true → t.Multiple quantum

/-- The spans that a call adds are multiples of the quantum: the caller's own, and for a request the
range that the source lends. -/
def AddsMultiple (quantum : ℕ) (src : Option (Source E)) (s : State E) : Action → Prop
  | .vmemAdd _ base size => quantum ∣ base ∧ quantum ∣ size
  | .vmemXalloc _ size _ _ _ _ flags => ∀ f ∈ src, ∀ pool addr e pool',
      f.allocfn s.arena.env pool size flags = some (.ok addr, e, pool') → quantum ∣ addr
  | .vmemXfree _ _ => True

/-- A request is for a multiple of the quantum, at a multiple of it, and no sum that decides about it
wraps to an address that is not one. -/
def AsksMultiple (quantum : ℕ) (s : State E) : Action → Prop
  | .vmemXalloc pool size align phase min max flags =>
      quantum ∣ size ∧ quantum ∣ min ∧
        (quantum ∣ 2 ^ 64 ∨ fits s (.vmemXalloc pool size align phase min max flags) = true)
  | _ => True

/-- The ranges that were handed out, and the segments reserved for them, are multiples of the
quantum. -/
structure Aligned (quantum : ℕ) (s : State E) : Prop where
  returned : ∀ a ∈ s.live, quantum ∣ a.1 ∧ quantum ∣ a.2
  reserved : ∀ t ∈ view s.arena, t.type = .kVMemSegAllocated → t.Multiple quantum

/-! ## What the calls do to the segments -/

/-- A release leaves multiples, also if a span is given back. -/
theorem multiple_releasesFrom (hV : ∀ t ∈ V, t.Multiple quantum) (hg : g.isSpan = false)
    (h : ReleasesFrom g V V') (hsum : quantum ∣ 2 ^ 64 ∨ Tiled (· ≤ ·) V) :
    ∀ t ∈ V', t.Multiple quantum := by
  have hdrop : ∀ {L R : List Seg} {m f : Seg}, (∀ t ∈ L ++ m :: f :: R, t.Multiple quantum) →
      ∀ t ∈ L ++ R, t.Multiple quantum := by
    intro L R m f hall t ht
    refine hall t ?_
    rcases List.mem_append.mp ht with ht | ht
    · exact List.mem_append_left _ ht
    · exact List.mem_append_right _ (List.mem_cons_of_mem _ (List.mem_cons_of_mem _ ht))
  cases h with
  | keep h => exact multiple_releases hV hg h hsum
  | whole hm hsize => exact hdrop hV
  | rest hm hf hsize h => exact hdrop (multiple_releases hV hg h hsum)

/-- Opening a span that is a multiple leaves multiples; the marker and the segment are the span. -/
theorem multiple_opens {A B : List Seg} {m : Seg} (hV : ∀ t ∈ A ++ B, t.Multiple quantum)
    (hm : m.Multiple quantum) (hg : g.Multiple quantum) :
    ∀ t ∈ A ++ m :: g :: B, t.Multiple quantum := by
  intro t ht
  rcases List.mem_append.mp ht with ht | ht
  · exact hV t (List.mem_append_left _ ht)
  · rcases List.mem_cons.mp ht with rfl | ht
    · exact hm
    · rcases List.mem_cons.mp ht with rfl | ht
      · exact hg
      · exact hV t (List.mem_append_right _ ht)

/-! ## The invariant -/

/-- The state of an arena between two calls; the last part is what keeps the sums from wrapping to
addresses that are no multiples. -/
structure QuantumInv (quantum : ℕ) (s : State E) : Prop where
  linked : Linked none s.arena
  head : ∀ t ∈ (view s.arena).head?, t.isSpan = true
  segments : ∀ t ∈ view s.arena, t.Multiple quantum
  returned : ∀ a ∈ s.live, quantum ∣ a.1 ∧ quantum ∣ a.2
  sums : quantum ∣ 2 ^ 64 ∨ Tiled (· ≤ ·) (view s.arena)

/-- A span that is a multiple. -/
theorem QuantumInv.opens {v : Arena E} {A B : List Seg} {m f : Seg} (hi : QuantumInv quantum s)
    (hV : view s.arena = A ++ B) (hV' : view v = A ++ m :: f :: B) (hspan : m.isSpan = true)
    (hm : m.Multiple quantum) (hf : f.Multiple quantum) :
    (∀ t ∈ (view v).head?, t.isSpan = true) ∧ ∀ t ∈ view v, t.Multiple quantum := by
  rw [hV']
  exact ⟨head_isSpan_append (hV ▸ hi.head) fun _ t ht => Option.some.inj ht ▸ hspan,
    multiple_opens (hV ▸ hi.segments) hm hf⟩

/-- A span that is a multiple, added by the caller. -/
theorem QuantumInv.add {v : Arena E} {base : ℕ} (hi : QuantumInv quantum s) (hlink : Linked none v)
    (hadds : Adds base size (view s.arena) (view v)) (hok : SpanOk (view s.arena) base size)
    (hbase : quantum ∣ base) (hsize : quantum ∣ size) : QuantumInv quantum (⟨v, s.live⟩ : State E) := by
  obtain ⟨hpos, hlt, htop, hapart⟩ := hok
  have hsums : quantum ∣ 2 ^ 64 ∨ Tiled (· ≤ ·) (view v) :=
    hi.sums.imp_right fun ht => tiles_adds isGap_le ht hadds hpos hlt htop hapart
  obtain ⟨A, B, hV, -, -, hV'⟩ := hadds.split
  obtain ⟨hhead, hsegments⟩ := hi.opens hV hV' rfl ⟨hbase, hsize⟩ ⟨hbase, hsize⟩
  exact ⟨hlink, hhead, hsegments, hi.returned, hsums⟩

/-- A request for a multiple that a free segment serves. -/
theorem QuantumInv.allocate {v : Arena E} (hi : QuantumInv quantum s) (hlink : Linked none v)
    (halloc : Allocates size min flags addr (view s.arena) (view v)) (hpos : 0 < size)
    (hsize : quantum ∣ size) (hmin : quantum ∣ min)
    (hfits : quantum ∣ 2 ^ 64 ∨ ∀ f ∈ view s.arena, Fooled f size min flags = false) :
    QuantumInv quantum (⟨v, (addr, size) :: s.live⟩ : State E) := by
  have hboth : quantum ∣ 2 ^ 64 ∨ (0 < size ∧
      Tiled (· ≤ ·) (view s.arena) ∧ ∀ f ∈ view s.arena, Fooled f size min flags = false) := by
    rcases hi.sums with h | ht
    · exact .inl h
    · exact hfits.imp_right fun hnot => ⟨hpos, ht, hnot⟩
  obtain ⟨haddr, hsegs⟩ := multiple_allocates hi.segments hsize hmin halloc hboth
  refine ⟨hlink, ?_, hsegs, ?_, ?_⟩
  -- the first segment stays a span: what is split behind it is a free one
  · obtain ⟨L, f, R, hV, hfree, -, -, hV'⟩ := halloc.split
    show ∀ t ∈ (view v).head?, _
    have hhead := hi.head
    rw [hV] at hhead
    rw [hV', List.append_assoc]
    exact head_isSpan_append hhead fun hL =>
      absurd hL (ne_nil_of_head_isSpan hhead (isSpan_of_free hfree))
  · intro a ha
    rcases List.mem_cons.mp ha with rfl | ha
    · exact ⟨haddr, hsize⟩
    · exact hi.returned a ha
  · exact hboth.imp_right fun ⟨_, ht, hnot⟩ => tiles_allocates isGap_le ht hpos halloc hnot

/-- A request for a multiple that is served by an import. -/
theorem QuantumInv.lend {v : Arena E} (hi : QuantumInv quantum s) (hlink : Linked none v)
    (himp : Imports addr size (view s.arena) (view v)) (hok : SpanOk (view s.arena) addr size)
    (haddr : quantum ∣ addr) (hsize : quantum ∣ size) :
    QuantumInv quantum (⟨v, (addr, size) :: s.live⟩ : State E) := by
  have hsums : quantum ∣ 2 ^ 64 ∨ Tiled (· ≤ ·) (view v) :=
    hi.sums.imp_right fun ht => tiles_imports ht hok himp
  obtain ⟨A, B, hV, -, -, hV'⟩ := himp.split
  obtain ⟨hhead, hsegments⟩ := hi.opens hV hV' rfl ⟨haddr, hsize⟩ ⟨haddr, hsize⟩
  refine ⟨hlink, hhead, hsegments, ?_, hsums⟩
  intro a ha
  rcases List.mem_cons.mp ha with rfl | ha
  · exact ⟨haddr, hsize⟩
  · exact hi.returned a ha

/-- The effects of the calls are those of `sourceStep`. -/
theorem requestStep_effect (hlink : Linked none s.arena)
    (hhead : ∀ t ∈ (view s.arena).head?, t.isSpan = true) (hp : Proper src s a)
    (hs : requestStep src s a = some s') : SourceEffect src s a s' := by
  cases a with
  | vmemAdd pool base size => exact sourceStep_effect hlink hhead hp hs
  | vmemXalloc pool size align phase min max flags =>
      rw [requestStep] at hs
      split at hs
      · rename_i hok
        exact effect_vmemXalloc hlink hhead hok.1 hp hs
      · cases hs
  | vmemXfree pool addr => exact sourceStep_effect hlink hhead hp hs

/-- **One call keeps the invariant**, if its spans and its request are multiples. -/
theorem quantumInv_step (hi : QuantumInv quantum s) (hp : Proper src s a)
    (hadd : AddsMultiple quantum src s a) (hask : AsksMultiple quantum s a)
    (hs : requestStep src s a = some s') : QuantumInv quantum s' := by
  cases requestStep_effect hi.linked hi.head hp hs with
  | add hlink hadds => exact hi.add hlink hadds hp hadd.1 hadd.2
  | fail hlink hview =>
      exact ⟨hlink, hview ▸ hi.head, hview ▸ hi.segments, hi.returned, hview ▸ hi.sums⟩
  | alloc hlink hpos halloc =>
      obtain ⟨hsize, hmin, hfits⟩ := hask
      refine hi.allocate hlink halloc hpos hsize hmin (hfits.imp_right fun hfits f hf => ?_)
      exact Bool.not_eq_true' _ ▸ List.all_eq_true.mp hfits f hf
  | lend hlink hcall hspan himp =>
      obtain ⟨f, hf, pool, e, pool', hcall⟩ := hcall
      exact hi.lend hlink himp hspan (hadd f hf pool _ e pool' hcall) hask.1
  | free hlink hlive hg hbase hrel hhead =>
      exact ⟨hlink, hhead hi.head, multiple_releasesFrom hi.segments (isSpan_of_allocated hg) hrel hi.sums,
        fun a ha => hi.returned a (List.mem_of_mem_eraseP ha),
        hi.sums.imp_right fun ht => tiles_releasesFrom ht hg hrel⟩

/-- What `vmem_init` sets up satisfies the invariant if its span is a multiple. -/
theorem quantumInv_initial (h : SourceInitial src s) (hspans : SpansMultiple quantum s) :
    QuantumInv quantum s := by
  have hi := sourceInv_initial h
  refine ⟨hi.linked, hi.tiled.head_isSpan isGap_le, ?_, ?_, .inr hi.tiled⟩
  · obtain ⟨-, seg, pool, env, base, size, hpool, -, -, hinit⟩ := h
    obtain ⟨-, ⟨-, hadds⟩ | ⟨-, hnil⟩⟩ := vmemInit_spec hpool hinit
    · have hV := hadds.of_nil
      -- the free segment is as long as the marker
      rw [SpansMultiple, hV] at hspans
      have hmark : quantum ∣ base ∧ quantum ∣ size := hspans _ List.mem_cons_self rfl
      rw [hV]
      exact multiple_opens (A := []) (B := []) nofun hmark hmark
    · rw [hnil]
      nofun
  · rw [h.live_eq]
    nofun

/-! ## The result -/

/-- **An arena keeps to its quantum** in every run, with any source or none, whose spans are multiples
of it and whose requests are for multiples of it at multiples of it: every range handed out and every
segment reserved for one is a multiple of it. -/
theorem vmem_quantum_kept (h₀ : SourceInitial src s₀) (hspans : SpansMultiple quantum s₀)
    (h : (requestMachine src).Reach (fun s a => Proper src s a ∧ AddsMultiple quantum src s a ∧
      AsksMultiple quantum s a) s₀ s) : Aligned quantum s := by
  have hinv : QuantumInv quantum s := by
    refine h.invariant (quantumInv_initial h₀ hspans) ?_
    intro s a s' hi ⟨hp, hadd, hask⟩ hs
    exact quantumInv_step hi hp hadd hask hs
  exact ⟨hinv.returned, fun t ht _ => hinv.segments t ht⟩

/-- Whether a span that the caller adds consists of pages. -/
def addsPages : Action → Bool
  | .vmemAdd _ base size => decide (0x1000 ∣ base) && decide (0x1000 ∣ size)
  | _ => true

/-- Calls that pass the test add multiples of a page. -/
theorem addsMultiple_of_addsPages (h : addsPages a = true) : AddsMultiple 0x1000 none s a := by
  cases a with
  | vmemAdd pool base size =>
      obtain ⟨hbase, hsize⟩ := Bool.and_eq_true_iff.mp h
      exact ⟨of_decide_eq_true hbase, of_decide_eq_true hsize⟩
  | vmemXalloc pool size align phase min max flags => nofun
  | vmemXfree pool addr => exact trivial

/-- Whether a request is for pages. -/
def asksPages : Action → Bool
  | .vmemXalloc _ size _ _ min _ _ => decide (0x1000 ∣ size) && decide (0x1000 ∣ min)
  | _ => true

/-- Requests that pass the test are for multiples of a page. -/
theorem asksMultiple_of_asksPages (h : asksPages a = true) : AsksMultiple 0x1000 s a := by
  cases a with
  | vmemAdd pool base size => exact trivial
  | vmemXalloc pool size align phase min max flags =>
      obtain ⟨hsize, hmin⟩ := Bool.and_eq_true_iff.mp h
      exact ⟨of_decide_eq_true hsize, of_decide_eq_true hmin, .inl (by decide)⟩
  | vmemXfree pool addr => exact trivial

/-- Two requests, one of them at an exact address, and a release. -/
def pageRun : List Action :=
  [.vmemAdd [0, 1] 0x1000 0x8000, .vmemXalloc [2, 3] 0x2000 0 0 0x4000 0 ⟨true⟩,
    .vmemXalloc [4, 5] 0x1000 0 0 0 0 ⟨false⟩, .vmemXfree [6] 0x4000]

/-- An arena of pages keeps to the page size. -/
theorem vmem_quantum_kept_pages :
    ∃ s, (requestMachine none).exec emptyState pageRun = some s ∧ s.live = [(0x6000, 0x1000)] ∧
      Aligned 0x1000 s := by
  have hrun : ((requestMachine none).exec emptyState pageRun).map State.live
      = some [(0x6000, 0x1000)] := by decide
  obtain ⟨s, hs, hlive⟩ := Option.map_eq_some_iff.mp hrun
  refine ⟨s, hs, hlive, vmem_quantum_kept sourceInitial_emptyState nofun ?_⟩
  refine Machine.reach_of_exec (c := fun s a => spansOk s a && (addsPages a && asksPages a)) ?_
    (by decide) hs
  intro s a hc
  obtain ⟨hp, hc⟩ := Bool.and_eq_true_iff.mp hc
  obtain ⟨hadd, hask⟩ := Bool.and_eq_true_iff.mp hc
  exact ⟨proper_of_spansOk hp, addsMultiple_of_addsPages hadd, asksMultiple_of_asksPages hask⟩

/-- **One odd request misaligns the next.** In an arena of pages a request of half a page is given
half a page, and the page after it begins there. -/
theorem vmem_xalloc_unaligned :
    ¬ ∀ (s₀ s : State Unit) (quantum : ℕ), SourceInitial none s₀ → SpansMultiple quantum s₀ →
      (requestMachine none).Reach (fun s a => Proper none s a ∧ AddsMultiple quantum none s a) s₀ s →
      Aligned quantum s := by
  intro h
  have hrun : ((requestMachine none).exec emptyState
      [.vmemAdd [0, 1] 0x1000 0x4000, .vmemXalloc [2, 3] 0x800 0 0 0 0 ⟨false⟩,
        .vmemXalloc [4, 5] 0x1000 0 0 0 0 ⟨false⟩]).map State.live
      = some [(0x1800, 0x1000), (0x1000, 0x800)] := by decide
  obtain ⟨s, hs, hlive⟩ := Option.map_eq_some_iff.mp hrun
  have hreach : (requestMachine none).Reach
      (fun s a => Proper none s a ∧ AddsMultiple 0x1000 none s a) emptyState s := by
    refine Machine.reach_of_exec (c := fun s a => spansOk s a && addsPages a) ?_ (by decide) hs
    intro s a hc
    obtain ⟨hp, hadd⟩ := Bool.and_eq_true_iff.mp hc
    exact ⟨proper_of_spansOk hp, addsMultiple_of_addsPages hadd⟩
  have haddr := ((h _ s 0x1000 sourceInitial_emptyState nofun hreach).returned (0x1800, 0x1000)
    (by rw [hlive]; decide)).1
  exact absurd haddr (by decide)

end Scalux.Vmem
