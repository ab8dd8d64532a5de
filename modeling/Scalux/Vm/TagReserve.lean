import Scalux.Vm.KernelHeap

/-! # The reserve of segment tags

`vmem_xalloc` takes two tags before it looks for a free segment, `vmem_add_internal` two more for an
imported span, and a call that fails keeps the two it has taken.  `seg_refill` brings the reserve back
up before each call that is not made by `seg_refill` itself; the page of tags costs at most six tags
and yields 63.

* **`tag_reserve`**: in every run of calls on the two arenas no call of `seg_alloc`, at any depth,
  finds the list of unused tags empty, and the recursion ends at depth four. -/

namespace Scalux.KernelHeap

open Vmem (Arena Tag Flags Source)

variable {α β : Type} {E : Type} {h h' : Heap} {v v' : Arena E} {t u left right : Tag}

/-! ## Calls that do not run dry -/

/-- The call returns a result with `P`, or stops for another reason than a missing tag or the bound on
the recursion. -/
def Safe (P : α → Prop) : Except Stop α → Prop
  | .ok a => P a
  | .error e => e ≠ .segAlloc ∧ e ≠ .fuel

theorem Safe.mono {P Q : α → Prop} {x : Except Stop α} (hx : Safe P x) (hPQ : ∀ a, P a → Q a) :
    Safe Q x := by
  cases x with
  | ok a => exact hPQ a hx
  | error e => exact hx

/-- Calls in sequence. -/
theorem Safe.bind {P : α → Prop} {Q : β → Prop} {x : Except Stop α} {f : α → Except Stop β}
    (hx : Safe P x) (hf : ∀ a, P a → Safe Q (f a)) : Safe Q (x >>= f) := by
  cases x with
  | ok a => exact hf a hx
  | error e => exact hx

/-- A failure that is not about tags. -/
theorem safe_orStop {P : α → Prop} {x : Option α} (hx : ∀ a, x = some a → P a) :
    Safe P (orStop .assertion x) := by
  cases x with
  | none => exact ⟨by simp, by simp⟩
  | some a => exact hx a rfl

/-- A loop over a list. -/
theorem safe_foldlM {P : α → Prop} {f : α → β → Except Stop α} {l : List β} {a : α} (ha : P a)
    (hf : ∀ a b, P a → Safe P (f a b)) : Safe P (l.foldlM f a) := by
  induction l generalizing a with
  | nil => exact ha
  | cons b l ih =>
      rw [List.foldlM_cons]
      exact (hf a b ha).bind fun a ha => ih ha

/-! ## What the operations of an arena do to the number of tags -/

/-- `split_seg` takes no tag. -/
theorem length_splitSeg {addr size : ℕ} (hs : Vmem.splitSeg v t left right addr size = some v') :
    v.freeSegs.length ≤ v'.freeSegs.length := by
  unfold Vmem.splitSeg at hs
  split at hs
  · cases hs
    simp only [Vmem.splitLeft, Vmem.splitRight]
    split <;> split <;>
      simp [Vmem.hashtabInsert, Vmem.setSeg, Vmem.freelistInsert, Vmem.segFree, Vmem.listRemove,
        Nat.le_succ_of_le]
  · cases hs

/-- `vmem_add_internal` takes two tags, and stops only for want of them. -/
theorem vmemAddInternal_length (v : Arena E) (type : Vmem.SegType) (base size : ℕ) :
    match Vmem.vmemAddInternal v type base size with
    | none => v.freeSegs.length < 2
    | some r => r.2.freeSegs.length + 2 = v.freeSegs.length := by
  unfold Vmem.vmemAddInternal Vmem.segAlloc
  cases hpool : v.freeSegs with
  | nil => exact Nat.zero_lt_two
  | cons n pool =>
      cases pool with
      | nil => exact Nat.one_lt_two
      | cons f pool =>
          dsimp only [Option.bind_eq_bind, Option.bind_some]
          generalize Vmem.lastSpanBefore v.seg base none v.spanlist = a
          cases a <;> rfl

/-- `freeseg_expand` takes no tag. -/
theorem length_coalesceLeft {c : Bool} (hs : Vmem.coalesceLeft v t = some (u, c, v')) :
    v.freeSegs.length ≤ v'.freeSegs.length := by
  unfold Vmem.coalesceLeft at hs
  obtain ⟨left, -, hs⟩ := Option.bind_eq_some_iff.mp hs
  split at hs
  · cases hs
    simp [Vmem.segFree, Vmem.queueRemove]
  · cases hs
    exact Nat.le_refl _

/-- Coalescing takes no tag. -/
theorem length_coalesceRight (v : Arena E) (t : Tag) (c : Bool) :
    v.freeSegs.length ≤ (Vmem.coalesceRight v t c).2.2.freeSegs.length := by
  unfold Vmem.coalesceRight
  split
  · exact Nat.le_refl _
  · split
    · cases c <;> simp [Vmem.segFree, Vmem.queueRemove, Vmem.listRemove]
    · exact Nat.le_refl _

/-- Giving a span back takes no tag, if `freefn` takes none. -/
theorem length_releaseSpan {src : Option (Source E)} {c d : Bool}
    (hsrc : ∀ f ∈ src, ∀ e pool base size e' pool', f.freefn e pool base size = some (e', pool') →
      pool.length ≤ pool'.length)
    (hs : Vmem.releaseSpan src v t u c = some (d, v')) :
    v.freeSegs.length ≤ v'.freeSegs.length := by
  unfold Vmem.releaseSpan at hs
  split at hs
  · split at hs
    · obtain ⟨f, hf, hs⟩ := Option.bind_eq_some_iff.mp hs
      obtain ⟨⟨e, pool'⟩, hcall, hs⟩ := Option.bind_eq_some_iff.mp hs
      obtain ⟨rfl, rfl⟩ := Prod.mk.inj (Option.some.inj hs)
      have hle := hsrc f hf _ _ _ _ e pool' hcall
      cases c <;>
        simp [Vmem.segFree, Vmem.queueRemove, Vmem.listRemove] <;> omega
    · cases hs
  · cases hs
    exact Nat.le_refl _

/-- `vmem_xfree` takes no tag, if `freefn` takes none. -/
theorem length_vmemXfree {src : Option (Source E)} {addr : ℕ} {n : ℤ}
    (hsrc : ∀ f ∈ src, ∀ e pool base size e' pool', f.freefn e pool base size = some (e', pool') →
      pool.length ≤ pool'.length)
    (hs : Vmem.vmemXfree src v addr = some (n, v')) : v.freeSegs.length ≤ v'.freeSegs.length := by
  unfold Vmem.vmemXfree at hs
  obtain ⟨t, -, hs⟩ := Option.bind_eq_some_iff.mp hs
  dsimp only at hs
  obtain ⟨⟨u, c, v₁⟩, hleft, hs⟩ := Option.bind_eq_some_iff.mp hs
  obtain ⟨w, -, hs⟩ := Option.bind_eq_some_iff.mp hs
  dsimp only at hs
  have hright := length_coalesceRight v₁ u c
  generalize Vmem.coalesceRight v₁ u c = r at hs hright
  obtain ⟨⟨d, v₂⟩, hrel, hs⟩ := Option.bind_eq_some_iff.mp hs
  obtain ⟨-, rfl⟩ := Prod.mk.inj (Option.some.inj hs)
  -- the call takes no tag; each stage of it keeps or adds some
  calc v.freeSegs.length ≤ v₁.freeSegs.length := length_coalesceLeft (v := Vmem.listRemove v t) hleft
    _ ≤ r.2.2.freeSegs.length := hright
    _ ≤ v₂.freeSegs.length := length_releaseSpan hsrc hrel
    _ ≤ _ := by
        dsimp only
        split
        · exact Nat.le_refl _
        · exact Nat.le_succ _

/-! ## The calls on the heap -/

@[simp] theorem arena_freeSegs (h : Heap) (a : ArenaId) : (h.arena a).freeSegs = h.freeSegs := by
  cases a <;> rfl

@[simp] theorem setArena_freeSegs (h : Heap) (a : ArenaId) (v : Arena Unit) :
    (h.setArena a v).freeSegs = v.freeSegs := by
  cases a <;> rfl

/-- `seg_alloc` with a tag left. -/
theorem safe_segAlloc {n : ℕ} (hn : n + 1 ≤ h.freeSegs.length) :
    Safe (fun r => n ≤ r.2.freeSegs.length) (segAlloc h) := by
  unfold segAlloc
  split
  · rename_i hnil
    rw [hnil] at hn
    exact absurd hn (by simp)
  · rename_i t rest hpool
    rw [hpool] at hn
    exact Nat.le_of_succ_le_succ hn

/-- `seg_refill`: there are 128 tags afterwards, or 63 more than the block leaves. -/
theorem safe_segRefill {kalloc : Heap → Except Stop (Except ℤ ℕ × Heap)} {n : ℕ}
    (hk : h.freeSegs.length < 128 → Safe (fun r => n ≤ r.2.freeSegs.length + 63) (kalloc h))
    (hn : 128 ≤ h.freeSegs.length → n ≤ h.freeSegs.length) :
    Safe (fun h' => n ≤ h'.freeSegs.length) (segRefill kalloc h) := by
  unfold segRefill
  split
  · rename_i hfull
    exact hn hfull
  · rename_i hlow
    refine (hk (Nat.lt_of_not_le hlow)).bind ?_
    rintro ⟨r, h'⟩ hr
    cases r with
    | error e => exact ⟨by simp, by simp⟩
    | ok block =>
        show n ≤ ((segBlockTags block).reverse ++ h'.freeSegs).length
        rw [List.length_append, List.length_reverse, segBlockTags, List.length_map,
          List.length_range, Nat.add_comm]
        exact hr

/-- The page loop of `internal_allocwired` takes no tag. -/
theorem safe_internalAllocwired {xalloc : Heap → Except Stop (Except ℤ ℕ × Heap)} {n size : ℕ}
    (hx : Safe (fun r => n ≤ r.2.freeSegs.length) (xalloc h)) :
    Safe (fun r => n ≤ r.2.freeSegs.length) (internalAllocwired xalloc size h) := by
  refine hx.bind ?_
  rintro ⟨r, h'⟩ hr
  cases r with
  | error e => exact ⟨by simp, by simp⟩
  | ok out =>
      dsimp only
      split
      · refine Safe.bind (P := fun h' : Heap => n ≤ h'.freeSegs.length) (safe_foldlM hr ?_) fun h' hh' => hh'
        intro h₁ i hh₁
        unfold wirePage vmPagealloc
        split
        · exact ⟨by simp, by simp⟩
        · exact hh₁
      · exact ⟨by simp, by simp⟩

/-- **One level of `vmem_xalloc`.** With `n` tags left after the two it takes, and `m` after an import
and the two tags of its span, `m` tags are left in the end. -/
theorem safe_vmemXalloc {fuel : ℕ} {a : ArenaId} {size align phase min max n m : ℕ} {flags : Flags}
    {bootstrap : Bool} (hmn : m ≤ n)
    (hrefill : Safe (fun h' => n + 2 ≤ h'.freeSegs.length)
      (refillUnless bootstrap (vmemXalloc fuel .wired pgSize 0 0 0 0 ⟨false⟩ true) h))
    (hkmap : a = .wired → ∀ h', n ≤ h'.freeSegs.length →
      Safe (fun r => m + 2 ≤ r.2.freeSegs.length)
        (vmemXalloc fuel .kmap size 0 0 0 0 flags bootstrap h')) :
    Safe (fun r => m ≤ r.2.freeSegs.length)
      (vmemXalloc (fuel + 1) a size align phase min max flags bootstrap h) := by
  rw [vmemXalloc]
  split
  -- the refill leaves two tags more than are promised, and these two are taken here
  · refine hrefill.bind fun h₁ hh₁ => ?_
    split
    · exact ⟨by simp, by simp⟩
    · refine (safe_segAlloc hh₁).bind fun ⟨newlseg, h₂⟩ hh₂ => ?_
      refine (safe_segAlloc hh₂).bind fun ⟨newrseg, h₃⟩ hh₃ => ?_
      have hh₃ : n ≤ h₃.freeSegs.length := hh₃
      dsimp only
      split
      · -- a free segment serves the request
        refine Safe.bind (P := fun v : Arena Unit => m ≤ v.freeSegs.length) (safe_orStop fun v hv => ?_)
          fun v hv => by rw [← setArena_freeSegs h₃ a v] at hv; exact hv
        have hlen := length_splitSeg hv
        rw [arena_freeSegs] at hlen
        omega
      · cases a with
        | kmap => exact hmn.trans hh₃
        | wired =>
            refine (safe_internalAllocwired (hkmap rfl h₃ hh₃)).bind fun ⟨addr, h₄⟩ hh₄ => ?_
            have hh₄ : m + 2 ≤ h₄.freeSegs.length := hh₄
            dsimp only
            -- the imported span takes two tags of those that the inner call has left
            have hadd := vmemAddInternal_length (h₄.arena .wired) .kVMemSegSpanImported addr size
            rw [arena_freeSegs] at hadd
            cases hres : Vmem.vmemAddInternal (h₄.arena .wired) .kVMemSegSpanImported addr size with
            | none =>
                rw [hres] at hadd
                have hadd : h₄.freeSegs.length < 2 := hadd
                omega
            | some r =>
                obtain ⟨freeseg, v⟩ := r
                rw [hres] at hadd
                have hadd : v.freeSegs.length + 2 = h₄.freeSegs.length := hadd
                refine Safe.bind (P := fun v : Arena Unit => m ≤ v.freeSegs.length)
                  (safe_orStop fun v' hv' => ?_)
                  fun v hv => by rw [← setArena_freeSegs h₄ .wired v] at hv; exact hv
                have hlen := length_splitSeg hv'
                omega
  · exact ⟨by simp, by simp⟩

/-! ## The four levels of the recursion -/

section Levels

variable {fuel size align phase min max : ℕ} {flags : Flags}

/-- `vmem_xalloc` on `kmap.vmem`, called for a block of tags. -/
theorem safe_kmap_bootstrap {n : ℕ} (hn : n + 2 ≤ h.freeSegs.length) (hfuel : 1 ≤ fuel) :
    Safe (fun r => n ≤ r.2.freeSegs.length)
      (vmemXalloc fuel .kmap size align phase min max flags true h) := by
  obtain ⟨fuel, rfl⟩ := Nat.exists_eq_add_of_le' hfuel
  exact safe_vmemXalloc (Nat.le_refl n) hn (by simp)

/-- `vmem_xalloc` on `vm_kernel_wired`, called for a block of tags. -/
theorem safe_wired_bootstrap {n : ℕ} (hn : n + 6 ≤ h.freeSegs.length) (hfuel : 2 ≤ fuel) :
    Safe (fun r => n ≤ r.2.freeSegs.length)
      (vmemXalloc fuel .wired size align phase min max flags true h) := by
  obtain ⟨fuel, rfl⟩ := Nat.exists_eq_add_of_le' (Nat.le_of_succ_le hfuel)
  refine safe_vmemXalloc (n := n + 4) (Nat.le_add_right n 4) hn fun _ h' hh' => ?_
  exact safe_kmap_bootstrap (n := n + 2) hh' (by omega)

/-- `seg_refill` brings a reserve of at least 71 tags to 128. -/
theorem safe_refill (hn : 71 ≤ h.freeSegs.length) (hfuel : 2 ≤ fuel) :
    Safe (fun h' => 128 ≤ h'.freeSegs.length)
      (segRefill (vmemXalloc fuel .wired pgSize 0 0 0 0 ⟨false⟩ true) h) := by
  refine safe_segRefill (fun _ => ?_) id
  refine (safe_wired_bootstrap (n := 65) hn hfuel).mono fun r hr => ?_
  omega

/-- `vmem_xalloc` on `kmap.vmem`. -/
theorem safe_kmap (hn : 71 ≤ h.freeSegs.length) (hfuel : 3 ≤ fuel) :
    Safe (fun r => 126 ≤ r.2.freeSegs.length)
      (vmemXalloc fuel .kmap size align phase min max flags false h) := by
  obtain ⟨fuel, rfl⟩ := Nat.exists_eq_add_of_le' (Nat.le_of_succ_le (Nat.le_of_succ_le hfuel))
  exact safe_vmemXalloc (Nat.le_refl 126) (safe_refill hn (by omega)) (by simp)

/-- `vmem_xalloc` on `vm_kernel_wired`. -/
theorem safe_wired (hn : 71 ≤ h.freeSegs.length) (hfuel : 4 ≤ fuel) :
    Safe (fun r => 124 ≤ r.2.freeSegs.length)
      (vmemXalloc fuel .wired size align phase min max flags false h) := by
  obtain ⟨fuel, rfl⟩ := Nat.exists_eq_add_of_le' (Nat.le_of_succ_le (Nat.le_of_succ_le
    (Nat.le_of_succ_le hfuel)))
  refine safe_vmemXalloc (n := 126) (by decide) (safe_refill hn (by omega)) fun _ h' hh' => ?_
  exact safe_kmap (by omega) (by omega)

end Levels

/-! ## Freeing takes no tag -/

/-- `internal_freewired`. -/
theorem safe_internalFreewired {n addr size : ℕ} (hn : n ≤ h.freeSegs.length) :
    Safe (fun h' => n ≤ h'.freeSegs.length) (internalFreewired h addr size) := by
  refine Safe.bind (P := fun r : ℤ × Arena Unit => n ≤ r.2.freeSegs.length)
    (safe_orStop fun r hr => ?_) fun r hr => ?_
  · have hlen := length_vmemXfree (by simp) hr
    rw [arena_freeSegs] at hlen
    exact hn.trans hlen
  · dsimp only
    generalize (Int.bmod size (2 ^ 32)).toNat = bound
    split
    · exact hr
    · split
      · refine safe_foldlM hr fun h₁ i hh₁ => ?_
        unfold pmapUnenterKern
        split
        · exact ⟨by simp, by simp⟩
        · exact hh₁
      · exact ⟨by simp, by simp⟩

/-- The source of `vm_kernel_wired` takes no tag back. -/
theorem length_wiredSource {f : Source Heap} (hf : f ∈ some wiredSource) {e e' : Heap}
    {pool pool' : List Tag} {base size : ℕ} (hs : f.freefn e pool base size = some (e', pool')) :
    pool.length ≤ pool'.length := by
  obtain rfl := Option.some.inj hf
  obtain ⟨h', hcall, heq⟩ := Option.map_eq_some_iff.mp hs
  have hsafe : Safe (fun h' => pool.length ≤ h'.freeSegs.length)
      (internalFreewired { e with freeSegs := pool } base size) :=
    safe_internalFreewired (Nat.le_refl pool.length)
  cases hres : internalFreewired { e with freeSegs := pool } base size with
  | error s =>
      rw [hres] at hcall
      cases hcall
  | ok h₁ =>
      rw [hres] at hcall hsafe
      cases hcall
      cases heq
      exact hsafe

/-- `vmem_xfree` on either arena. -/
theorem safe_vmemXfree {n addr : ℕ} {a : ArenaId} (hn : n ≤ h.freeSegs.length) :
    Safe (fun h' => n ≤ h'.freeSegs.length) (vmemXfree a addr h) := by
  cases a with
  | kmap =>
      refine Safe.bind (P := fun r : ℤ × Arena Unit => n ≤ r.2.freeSegs.length)
        (safe_orStop fun r hr => ?_) fun r hr => hr
      have hlen := length_vmemXfree (by simp) hr
      rw [arena_freeSegs] at hlen
      exact hn.trans hlen
  | wired =>
      refine Safe.bind (P := fun r : ℤ × Arena Heap => n ≤ r.2.freeSegs.length)
        (safe_orStop fun r hr => ?_) fun r hr => hr
      have hlen : h.freeSegs.length ≤ r.2.freeSegs.length :=
        length_vmemXfree (fun f hf _ _ _ _ _ _ hs => length_wiredSource hf hs) hr
      exact hn.trans hlen

/-! ## Every run -/

/-- The calls, with the pages that `vm_pagealloc` returns in them: `vm_kalloc`, `vm_kfree`, and
`vmem_xalloc` (without `kVMemBootstrap`) and `vmem_xfree` on `kmap.vmem`. -/
inductive Call
  | vmKalloc (pages : List ℕ) (npages : ℕ)
  | vmKfree (addr : ℕ)
  | vmemXalloc (pages : List ℕ) (size align phase min max : ℕ) (flags : Flags)
  | vmemXfree (addr : ℕ)
  deriving DecidableEq, Repr

/-- What a call leaves, or why it does not return. -/
def Call.run (fuel : ℕ) (h : Heap) : Call → Except Stop Heap
  | .vmKalloc pages npages => do
      let (_, h) ← KernelHeap.vmKalloc fuel npages { h with pages := pages }
      return h
  | .vmKfree addr => KernelHeap.vmKfree addr h
  | .vmemXalloc pages size align phase min max flags => do
      let (_, h) ← KernelHeap.vmemXalloc fuel .kmap size align phase min max flags false
        { h with pages := pages }
      return h
  | .vmemXfree addr => KernelHeap.vmemXfree .kmap addr h

/-- The calls as a machine. -/
def callMachine (fuel : ℕ) : Machine Heap Call := ⟨fun h c => (c.run fuel h).toOption⟩

/-- Every call keeps a reserve of 71 tags. -/
theorem safe_call {fuel : ℕ} {c : Call} (hfuel : 4 ≤ fuel) (hn : 71 ≤ h.freeSegs.length) :
    Safe (fun h' => 71 ≤ h'.freeSegs.length) (c.run fuel h) := by
  cases c with
  | vmKalloc pages npages =>
      refine (safe_wired (h := { h with pages := pages }) hn hfuel).bind fun r hr => ?_
      exact Nat.le_trans (by decide) hr
  | vmKfree addr =>
      rw [Call.run, vmKfree]
      exact safe_vmemXfree hn
  | vmemXalloc pages size align phase min max flags =>
      refine (safe_kmap (h := { h with pages := pages }) hn (by omega)).bind fun r hr => ?_
      exact Nat.le_trans (by decide) hr
  | vmemXfree addr =>
      rw [Call.run]
      exact safe_vmemXfree hn

/-- `vm_kernel_init` leaves 126 of the 128 static tags. -/
theorem length_vmKernelInit {ptes : ℕ → Option ℕ} (hs : vmKernelInit ptes = some h) :
    h.freeSegs.length = 126 := by
  unfold vmKernelInit at hs
  obtain ⟨kmap, hkmap, hs⟩ := Option.bind_eq_some_iff.mp hs
  obtain ⟨wired, hwired, hs⟩ := Option.bind_eq_some_iff.mp hs
  cases hs
  unfold Vmem.vmemInit at hkmap hwired
  rw [if_pos (by decide)] at hkmap
  rw [if_neg (by decide)] at hwired
  obtain ⟨⟨t, v⟩, hadd, rfl⟩ := Option.map_eq_some_iff.mp hkmap
  have hlen := vmemAddInternal_length (E := Unit) ⟨fun _ => ⟨.kVMemSegFree, 0, 0⟩, [], [],
    fun _ => [], fun _ => [], staticSegs.reverse, ()⟩ .kVMemSegSpan kheapBase kheapSize
  rw [hadd] at hlen
  have hlen : v.freeSegs.length + 2 = staticSegs.reverse.length := hlen
  rw [List.length_reverse, staticSegs, List.length_range] at hlen
  obtain rfl := Option.some.inj hwired
  show v.freeSegs.length = 126
  omega

/-- **The reserve of tags never runs dry.** From `vm_kernel_init` on, after every run of calls on the
two arenas, whatever the callers ask for: the next call does not fail in `seg_alloc`, at any depth of
the recursion, and the recursion ends at depth four. -/
theorem tag_reserve {fuel : ℕ} (hfuel : 4 ≤ fuel) {ptes : ℕ → Option ℕ} {h₀ : Heap}
    (h₀init : vmKernelInit ptes = some h₀) (hreach : (callMachine fuel).Reachable h₀ h) (c : Call) :
    c.run fuel h ≠ .error .segAlloc ∧ c.run fuel h ≠ .error .fuel := by
  -- 71 tags before a call leave 71 after it, whatever the call returns
  have hlen : 71 ≤ h.freeSegs.length := by
    refine hreach.invariant (I := fun h => 71 ≤ h.freeSegs.length)
      (by rw [length_vmKernelInit h₀init]; decide) ?_
    intro h c h' hn _ hs
    have hsafe := safe_call (c := c) hfuel hn
    have hs : (c.run fuel h).toOption = some h' := hs
    cases hres : c.run fuel h with
    | error e =>
        rw [hres] at hs
        cases hs
    | ok h₁ =>
        rw [hres] at hs hsafe
        cases hs
        exact hsafe
  have hsafe := safe_call (c := c) hfuel hlen
  constructor
  · intro heq
    rw [heq] at hsafe
    exact hsafe.1 rfl
  · intro heq
    rw [heq] at hsafe
    exact hsafe.2 rfl

/-- A run in which the first call refills the reserve, the second frees a block, and the third fails
and keeps its two tags. -/
theorem tag_reserve_leak :
    ∃ h₀ h, vmKernelInit (fun _ => none) = some h₀ ∧
      (callMachine 4).exec h₀ [.vmKalloc [1, 2, 3] 2, .vmKfree (kheapBase + pgSize),
        .vmemXalloc [] (2 ^ 40) 0 0 0 0 ⟨false⟩] = some h ∧ h.freeSegs.length = 184 ∧
      (Call.vmKalloc [1, 2] 2).run 4 h ≠ .error .segAlloc ∧
      (Call.vmKalloc [1, 2] 2).run 4 h ≠ .error .fuel := by
  have hrun : (((vmKernelInit fun _ => none).bind fun h => (callMachine 4).exec h
      [.vmKalloc [1, 2, 3] 2, .vmKfree (kheapBase + pgSize),
        .vmemXalloc [] (2 ^ 40) 0 0 0 0 ⟨false⟩]).map fun h => h.freeSegs.length) = some 184 := by
    decide +kernel
  obtain ⟨h, hexec, hlen⟩ := Option.map_eq_some_iff.mp hrun
  obtain ⟨h₀, hinit, hexec⟩ := Option.bind_eq_some_iff.mp hexec
  exact ⟨h₀, h, hinit, hexec, hlen,
    tag_reserve (by decide) hinit (Machine.reachable_of_exec hexec) (.vmKalloc [1, 2] 2)⟩

end Scalux.KernelHeap
