import Scalux.Kern.VmemQuantum
import Scalux.Kern.VmemContainers

/-! # What `vmem_xfree` returns

`vmem_xfree` returns the size of the segment it frees.  The size is a 64-bit word and the result is an
`int`, so that only sizes below `2 ^ 31` come back as they are; a size from `2 ^ 31` up to `2 ^ 32`
comes back negative, which callers take for an error.

That it returns at all rests on the containers: the hash bucket leads to the segment, a span marker
stands before it, and what follows an imported span that is entirely free is the marker of another
imported span, as `vmem_xfree` asserts.  The last holds in an arena whose spans all come from its
source: `vmem_init` gives such an arena no span of its own.

* **`SourceInv.vmemXfree_returns`**: `vmem_xfree` of a live range returns, and what. -/

namespace Scalux.Vmem

variable {E : Type} {src : Option (Source E)} {s s' s₀ : State E} {a : Action} {v v' : Arena E}
  {V V' : List Seg} {g : Seg} {t : Tag} {addr size : ℕ}

/-! ## The size as an `int` -/

/-- A size comes back as it is if and only if it is below `2 ^ 31`. -/
theorem bmod_eq_self_iff (n : ℕ) : Int.bmod n (2 ^ 32) = n ∧ 0 ≤ Int.bmod n (2 ^ 32) ↔ n < 2 ^ 31 := by
  rw [Int.bmod_def]
  split
  · omega
  · omega

/-- A size comes back non-negative if and only if its low 32 bits are below `2 ^ 31`. -/
theorem bmod_nonneg_iff (n : ℕ) : 0 ≤ Int.bmod n (2 ^ 32) ↔ n % 2 ^ 32 < 2 ^ 31 := by
  rw [Int.bmod_def]
  split
  · omega
  · omega

/-! ## Where the spans come from -/

/-- The spans of an arena are imported if it has a source, and its own if not. -/
def SpansFrom (src : Option (Source E)) (V : List Seg) : Prop :=
  ∀ t ∈ V, t.isSpan = true → (t.type = .kVMemSegSpanImported ↔ src.isSome = true)

/-- No span is added to an arena with a source. -/
def Unmixed (src : Option (Source E)) : Action → Prop
  | .vmemAdd _ _ _ => src = none
  | _ => True

/-- Opening a span of the right kind keeps the spans apart from the other kind. -/
theorem spansFrom_opens {A B : List Seg} {m : Seg} (h : SpansFrom src (A ++ B))
    (hm : m.type = .kVMemSegSpanImported ↔ src.isSome = true) (hg : g.isSpan = false) :
    SpansFrom src (A ++ m :: g :: B) := by
  intro t ht hspan
  rcases List.mem_append.mp ht with ht | ht
  · exact h t (List.mem_append_left _ ht) hspan
  · rcases List.mem_cons.mp ht with rfl | ht
    · exact hm
    · rcases List.mem_cons.mp ht with rfl | ht
      · rw [hg] at hspan
        cases hspan
      · exact h t (List.mem_append_right _ ht) hspan

/-- A release adds no span markers, also if a span is given back. -/
theorem ReleasesFrom.mem_of_isSpan {t : Seg} (h : ReleasesFrom g V V') (ht : t ∈ V')
    (hspan : t.isSpan = true) : t ∈ V := by
  cases h with
  | keep h => exact h.mem_of_isSpan ht hspan
  | whole hm hsize =>
      rcases List.mem_append.mp ht with ht | ht
      · exact List.mem_append_left _ ht
      · exact List.mem_append_right _ (List.mem_cons_of_mem _ (List.mem_cons_of_mem _ ht))
  | rest hm hf hsize h =>
      refine h.mem_of_isSpan ?_ hspan
      rcases List.mem_append.mp ht with ht | ht
      · exact List.mem_append_left _ ht
      · exact List.mem_append_right _ (List.mem_cons_of_mem _ (List.mem_cons_of_mem _ ht))

/-- One call keeps the kinds of the spans. -/
theorem spansFrom_step (hi : SourceInv s) (hfrom : SpansFrom src (view s.arena))
    (hp : Proper src s a) (hun : Unmixed src a) (hs : sourceStep src s a = some s') :
    SpansFrom src (view s'.arena) := by
  cases sourceStep_effect hi.linked (hi.tiled.head_isSpan isGap_le) hp hs with
  | add hlink hadds =>
      obtain ⟨A, B, hV, -, -, hV'⟩ := hadds.split
      rw [hV']
      refine spansFrom_opens (hV ▸ hfrom) ?_ rfl
      rw [show src = none from hun]
      simp
  | fail hlink hview => exact hview ▸ hfrom
  | alloc hlink hpos halloc => exact fun t ht hspan => hfrom t (halloc.mem_of_isSpan ht hspan) hspan
  | lend hlink hcall hspan himp =>
      obtain ⟨f, hf, -⟩ := hcall
      obtain ⟨A, B, hV, -, -, hV'⟩ := himp.split
      rw [hV']
      refine spansFrom_opens (hV ▸ hfrom) ?_ rfl
      rw [Option.mem_def.mp hf]
      simp
  | free hlink hlive hg hbase hrel hhead =>
      exact fun t ht hspan => hfrom t (hrel.mem_of_isSpan ht hspan) hspan

/-- What `vmem_init` sets up has spans of one kind. -/
theorem spansFrom_initial (h : SourceInitial src s) : SpansFrom src (view s.arena) := by
  obtain ⟨-, seg, pool, env, base, size, hpool, -, -, hinit⟩ := h
  obtain ⟨-, ⟨hne, hadds⟩ | ⟨-, hnil⟩⟩ := vmemInit_spec hpool hinit
  · rw [hadds.of_nil]
    refine spansFrom_opens (A := []) (B := []) nofun ?_ rfl
    rw [Option.isNone_iff_eq_none.mp hne.2]
    simp
  · rw [hnil]
    nofun

/-! ## That it returns -/

/-- `freefn` returns. -/
def TakesBack (f : Source E) (v : Arena E) : Prop :=
  ∀ pool base size, (f.freefn v.env pool base size).isSome = true

/-- Giving a span back returns if what follows a span that is filled is the marker of another
imported span. -/
theorem releaseSpan_isSome {f : Source E} {u w : Tag} {d : Bool} {g : Seg} {L R : List Seg}
    (ha : Around v u g L R) (hnd : v.segqueue.Nodup) (hw : Queue.prevOf u v.segqueue = some w)
    (hfree : TakesBack f v) (hR : ∀ L' m, L = L' ++ [m] → m.type = .kVMemSegSpanImported →
      g.size = m.size → ∀ e ∈ R.head?, e.type = .kVMemSegSpanImported) :
    (releaseSpan (some f) v u w d).isSome = true := by
  obtain ⟨l, r, hq, rfl, rfl⟩ := ha.queue
  have hnot := (List.nodup_cons.mp (List.nodup_middle.mp (hq ▸ hnd))).1
  have hul : u ∉ l := fun hmem => hnot (List.mem_append_left _ hmem)
  have hur : u ∉ r := fun hmem => hnot (List.mem_append_right _ hmem)
  rw [hq, Queue.prevOf_split hul hur] at hw
  obtain ⟨l', rfl⟩ := List.getLast?_eq_some_iff.mp hw
  unfold releaseSpan
  -- only a span that was imported whole is given back; its right neighbour is then a span
  split
  · rename_i hwhole
    rw [ha.seg_eq] at hwhole
    have hnext : (Queue.nextOf u v.segqueue).all (fun right =>
        (v.seg right).type = .kVMemSegSpanImported) = true := by
      rw [hq, Queue.nextOf_split hul]
      cases r with
      | nil => rfl
      | cons x r =>
          exact decide_eq_true (hR (l'.map v.seg) (v.seg w) (by rw [List.map_append]; rfl) hwhole.1
            hwhole.2 (v.seg x) rfl)
    rw [if_pos hnext]
    obtain ⟨⟨e, pool⟩, hcall⟩ := Option.isSome_iff_exists.mp
      (hfree v.freeSegs (v.seg w).base (v.seg w).size)
    rw [Option.bind_eq_bind, Option.bind_some, hcall]
    rfl
  · rfl

/-- **`vmem_xfree` of an allocated segment returns** also in an arena with a source, if all of its
spans come from there. -/
theorem vmemXfree_source_isSome {f : Source E} (h : Linked none v) (ht : Tiled (· ≤ ·) (view v))
    (hfrom : SpansFrom (some f) (view v)) (hfree : TakesBack f v) (hg : g ∈ view v)
    (halloc : g.type = .kVMemSegAllocated) (hbase : g.base = addr) :
    ∃ n v', vmemXfree (some f) v addr = some (n, v') := by
  have hhead := ht.head_isSpan isGap_le
  obtain ⟨t₀, ht₀, rfl⟩ := List.mem_map.mp hg
  obtain ⟨t, hfind⟩ := hashFind_isSome
    ((h.hash_iff (hashbucket addr) t₀).mpr ⟨by simp, ht₀, halloc, by rw [hbase]⟩) hbase
  obtain ⟨-, htq, htalloc, -⟩ := (h.hash_iff _ t).mp (hashFind_some hfind).1
  obtain ⟨u, c, w, v₁, hleft, hprev, -, -⟩ := coalesceLeft_prev h hhead htq htalloc
  obtain ⟨u', d, v₂, g', L, R, heq, ha, hspan, hprev₂, hcases⟩ :=
    coalesce_spec h htq htalloc hleft hprev
  have hframe := coalesceRight_frame v₁ u c
  rw [heq] at hframe
  have henv : v₂.env = v.env := hframe.1.trans (coalesceLeft_frame hleft).1
  -- the queue after coalescing is a tiling with the markers it had
  have hview : Tiled (· ≤ ·) (L ++ g' :: R) ∧
      ∀ m ∈ L ++ g' :: R, m.isSpan = true → m ∈ view v := by
    rcases hcases with ⟨-, -, -, hrel⟩ | ⟨-, -, rfl, hV, -, -⟩
    · exact ⟨tiles_releases_le ht htalloc hrel, fun m hm => hrel.mem_of_isSpan hm⟩
    · exact ⟨hV ▸ ht, fun m hm _ => hV ▸ hm⟩
  have hnd : v₂.segqueue.Nodup := by
    rcases hcases with ⟨-, h₂, -⟩ | ⟨-, h₂, -⟩
    · exact h₂.nodup
    · exact h₂.nodup
  have hrel : (releaseSpan (some f) v₂ u' w d).isSome = true := by
    refine releaseSpan_isSome ha hnd hprev₂ (fun pool base size => henv ▸ hfree pool base size) ?_
    rintro L' m rfl hm hsize e he
    have hmark : m.isSpan = true := by rw [Seg.isSpan, hm]
    have htile := hview.1
    rw [List.append_assoc, List.singleton_append] at htile
    obtain ⟨p, q, -, -, -, hrest, -⟩ := htile.split isGap_le (by decide)
    have hspan' : e.isSpan = true := hrest.mark_after_full isGap_le hmark hspan hsize e he
    have hmem : e ∈ L' ++ [m] ++ g' :: R :=
      List.mem_append_right _ (List.mem_cons_of_mem _ (List.mem_of_mem_head? he))
    exact (hfrom e (hview.2 e hmem hspan') hspan').mpr rfl
  obtain ⟨⟨d', v₃⟩, hrel⟩ := Option.isSome_iff_exists.mp hrel
  refine Prod.exists.mp (Option.isSome_iff_exists.mp ?_)
  unfold vmemXfree
  simp only [hfind, hleft, hprev, heq, hrel, Option.bind_eq_bind, Option.bind_some]
  rfl

/-- The result is the size of the segment that the hash bucket leads to. -/
theorem vmemXfree_size {n : ℤ} (hs : vmemXfree src v addr = some (n, v')) :
    ∃ t, hashFind v.seg addr (v.hashtab (hashbucket addr)) = some t ∧
      n = Int.bmod (v.seg t).size (2 ^ 32) := by
  obtain ⟨t, u, c, v₁, w, d, v₃, hfind, hn, -⟩ := vmemXfree_eq_some hs
  exact ⟨t, hfind, hn⟩

/-- **`vmem_xfree` of a live range returns** the size of the range as an `int`. -/
theorem SourceInv.vmemXfree_returns (hi : SourceInv s) (hfrom : SpansFrom src (view s.arena))
    (hfree : ∀ f ∈ src, TakesBack f s.arena) (hlive : (addr, size) ∈ s.live) :
    ∃ v', vmemXfree src s.arena addr = some (Int.bmod size (2 ^ 32), v') := by
  have hmem : ⟨.kVMemSegAllocated, addr, size⟩ ∈ view s.arena :=
    mem_allocs.mp (hi.live.mem_iff.mp hlive)
  have hreturns : ∃ n v', vmemXfree src s.arena addr = some (n, v') := by
    cases src with
    | none =>
        refine vmemXfree_isSome hi.linked (hi.tiled.head_isSpan isGap_le) ?_ hmem rfl rfl
        intro t ht himp
        have hspan : t.isSpan = true := by rw [Seg.isSpan, himp]
        exact absurd ((hfrom t ht hspan).mp himp) (by simp)
    | some f => exact vmemXfree_source_isSome hi.linked hi.tiled hfrom (hfree f rfl) hmem rfl rfl
  obtain ⟨n, v', hx⟩ := hreturns
  obtain ⟨t, hfind, hn⟩ := vmemXfree_size hx
  obtain ⟨t', -, hfind', hseg⟩ := hi.findsOwn addr size hlive
  have heq : t = t' := Option.some.inj (hfind.symm.trans hfind')
  rw [hn, heq, hseg] at hx
  exact ⟨v', hx⟩

/-- The invariants hold in every run of calls that keep the rules and fit. -/
theorem released_reach (h₀ : SourceInitial src s₀)
    (h : (sourceMachine src).Reach
      (fun s a => Proper src s a ∧ fits s a = true ∧ Unmixed src a) s₀ s) :
    SourceInv s ∧ SpansFrom src (view s.arena) := by
  refine h.invariant (I := fun s => SourceInv s ∧ SpansFrom src (view s.arena))
    ⟨sourceInv_initial h₀, spansFrom_initial h₀⟩ ?_
  intro s a s' hi hc hs
  exact ⟨sourceInv_step hi.1 hc.1 hc.2.1 hs, spansFrom_step hi.1 hi.2 hc.1 hc.2.2 hs⟩

end Scalux.Vmem
