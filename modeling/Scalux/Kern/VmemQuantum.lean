import Scalux.Kern.VmemRun

/-! # Arenas whose segments are multiples of a quantum

An arena of address space has one span, set up by `vmem_init`, and its users ask for multiples of
its quantum.  "The quantum is the natural unit of an arena, and allocations are made in multiples of
it and aligned to it": nothing in `vmem_xalloc` enforces this, but it holds if the requests keep to
it.  In such an arena, away from the top of the address space, no request is served beyond the end
of a segment, so the results about live ranges apply to it.

* **`multiple_allocates`**, **`multiple_releases`**: what the calls do to segments that are multiples.
* **`Quantized`**: the span and the segments of such an arena.
* **`quantized_xalloc`**, **`quantized_xfree`**: the calls keep it, and what they return. -/

namespace Scalux.Vmem

variable {E : Type} {v v' : Arena E} {V V' : List Seg} {live : List (ℕ × ℕ)}
  {lo n quantum size min addr x y : ℕ} {flags : Flags} {f g t : Seg}

/-! ## Multiples of the quantum -/

/-- A segment is a multiple of the quantum, in base and size. -/
def Seg.Multiple (quantum : ℕ) (t : Seg) : Prop := quantum ∣ t.base ∧ quantum ∣ t.size

/-- A segment serves a request at the address asked for or at its base. -/
theorem fitAddr_eq (h : fitAddr f size min flags = some addr) :
    addr = min ∨ (addr = f.base ∧ flags.exact = false) := by
  unfold fitAddr at h
  split at h
  · split at h
    · cases h
    · cases h
      exact .inl rfl
  · split at h
    · cases h
    · rename_i hexact
      split at h
      · cases h
      · cases h
        exact .inr ⟨rfl, Bool.eq_false_iff.mpr hexact⟩

/-- A sum of multiples is a multiple, unless it wraps and the quantum does not divide `2 ^ 64`. -/
theorem dvd_add64 (hx : quantum ∣ x) (hy : quantum ∣ y) (h : quantum ∣ 2 ^ 64 ∨ x + y < 2 ^ 64) :
    quantum ∣ add64 x y := by
  unfold add64
  rcases h with h | h
  · exact (Nat.dvd_mod_iff h).mpr (Nat.dvd_add hx hy)
  · rw [Nat.mod_eq_of_lt h]
    exact Nat.dvd_add hx hy

/-- A difference of multiples is a multiple if the quantum divides `2 ^ 64`. -/
theorem dvd_sub64 (h : quantum ∣ 2 ^ 64) (hx : quantum ∣ x) (hy : quantum ∣ y) :
    quantum ∣ sub64 x y :=
  (Nat.dvd_mod_iff h).mpr (Nat.dvd_add hx (Nat.dvd_sub h ((Nat.dvd_mod_iff h).mpr hy)))

/-- A segment of an allocation that ends inside the free segment it is taken from, or whose sums wrap
to multiples, is a multiple. -/
theorem splitParts_multiple (hf : f.Multiple quantum) (hsize : quantum ∣ size)
    (haddr : quantum ∣ addr) (hfit : fitAddr f size min flags = some addr)
    (h : quantum ∣ 2 ^ 64 ∨
      (0 < size ∧ addr + size ≤ f.base + f.size ∧ f.base + f.size ≤ 2 ^ 64)) :
    ∀ t ∈ splitParts f addr size, t.Multiple quantum := by
  -- the right part is computed with sums of the machine: a quantum that divides `2^64`, or no sum that wraps
  have hright : ∀ t ∈ rightPart f addr size, t.Multiple quantum := by
    rcases h with h | ⟨hpos, hend, htop⟩
    · unfold rightPart
      split
      · have hfrom := dvd_add64 haddr hsize (.inl h)
        intro t ht
        rw [List.mem_singleton.mp ht]
        exact ⟨hfrom, dvd_sub64 h (dvd_add64 hf.1 hf.2 (.inl h)) hfrom⟩
      · nofun
    · rw [rightPart_eq hpos hend htop (fitAddr_end hfit)]
      split
      · have hfrom := Nat.dvd_add haddr hsize
        intro t ht
        rw [List.mem_singleton.mp ht]
        exact ⟨hfrom, Nat.dvd_sub (Nat.dvd_add hf.1 hf.2) hfrom⟩
      · nofun
  intro t ht
  rw [splitParts, List.mem_append, List.mem_cons] at ht
  rcases ht with ht | rfl | ht
  · unfold leftPart at ht
    split at ht
    · rw [List.mem_singleton.mp ht]
      exact ⟨hf.1, Nat.dvd_sub haddr hf.1⟩
    · cases ht
  · exact ⟨haddr, hsize⟩
  · exact hright t ht

/-- An allocation of a multiple at a multiple leaves multiples. -/
theorem multiple_allocates (hV : ∀ t ∈ V, t.Multiple quantum) (hsize : quantum ∣ size)
    (hmin : quantum ∣ min) (ha : Allocates size min flags addr V V')
    (h : quantum ∣ 2 ^ 64 ∨
      (0 < size ∧ Tiled (· ≤ ·) V ∧ ∀ f ∈ V, Fooled f size min flags = false)) :
    quantum ∣ addr ∧ ∀ t ∈ V', t.Multiple quantum := by
  obtain ⟨L, f, R, rfl, hfree, hclass, hfit, rfl⟩ := ha.split
  have hmem : f ∈ L ++ f :: R := List.mem_append_right _ List.mem_cons_self
  have haddr : quantum ∣ addr := by
    rcases fitAddr_eq hfit with rfl | ⟨rfl, -⟩
    · exact hmin
    · exact (hV f hmem).1
  -- the end is a multiple too when the segment was not one that fools the search
  have hends : quantum ∣ 2 ^ 64 ∨
      (0 < size ∧ addr + size ≤ f.base + f.size ∧ f.base + f.size ≤ 2 ^ 64) := by
    refine h.imp_right fun ⟨hpos, ht, hnot⟩ => ⟨hpos, ?_, ?_⟩
    · have hf := hnot f hmem
      rw [Fooled, hfit] at hf
      simpa [Seg.isFree, hfree, hclass] using hf
    · obtain ⟨t, htV, hspan, -, hle⟩ := ht.in_span isGap_le hmem (isSpan_of_free hfree)
      exact hle.trans (Scale.Tiles.span_le_top ht t htV hspan).2
  have hparts := splitParts_multiple (hV f hmem) hsize haddr hfit hends
  refine ⟨haddr, fun t ht => ?_⟩
  rw [List.append_assoc, List.mem_append, List.mem_append] at ht
  -- the parts cut from `f` are new, what lies on both sides is unchanged
  rcases ht with ht | ht | ht
  · exact hV t (List.mem_append_left _ ht)
  · exact hparts t ht
  · exact hV t (List.mem_append_right _ (List.mem_cons_of_mem _ ht))

/-- Two neighbours have a sum that does not wrap, in a queue whose segments lie in their spans. -/
theorem neighbours_lt {L R : List Seg} (ht : Tiled (· ≤ ·) (L ++ f :: g :: R))
    (hf : f.isSpan = false) (hg : g.isSpan = false) : f.size + g.size < 2 ^ 64 := by
  obtain ⟨p, h, -, -, hlt, hrest, -⟩ := ht.split isGap_le (by decide)
  obtain ⟨hpf, hfg, hgh⟩ := hrest.merge_le isGap_le hf hg
  simp only [Scale.fin, segScale] at hpf hfg hgh hlt
  omega

/-- Two neighbours may be joined. -/
theorem tiled_join {L R : List Seg} (ht : Tiled (· ≤ ·) (L ++ f :: g :: R))
    (hf : f.isSpan = false) (hg : g.isSpan = false) :
    Tiled (· ≤ ·) (L ++ ⟨.kVMemSegFree, f.base, f.size + g.size⟩ :: R) :=
  ht.edit isGap_le (by decide) fun _ _ _ _ hph ht => (tiles_join isGap_le hph hf hg ht).2

/-- A release leaves multiples. -/
theorem multiple_releases (hV : ∀ t ∈ V, t.Multiple quantum) (hg : g.isSpan = false)
    (h : Releases g V V') (hsum : quantum ∣ 2 ^ 64 ∨ Tiled (· ≤ ·) V) :
    ∀ t ∈ V', t.Multiple quantum := by
  -- the new queue has some of the old segments and at most one new one
  have hlist : ∀ (L R : List Seg) (t : Seg), (∀ x ∈ L, x ∈ V) → (∀ x ∈ R, x ∈ V) →
      t.Multiple quantum → ∀ x ∈ L ++ t :: R, x.Multiple quantum := by
    intro L R t hL hR ht x hx
    rcases List.mem_append.mp hx with hx | hx
    · exact hV x (hL x hx)
    · rcases List.mem_cons.mp hx with rfl | hx
      · exact ht
      · exact hV x (hR x hx)
  cases h with
  | both L f e R hf he =>
      have hf' := hV f (by simp)
      have hg' := hV g (by simp)
      have he' := hV e (by simp)
      have hfg : quantum ∣ add64 f.size g.size :=
        dvd_add64 hf'.2 hg'.2 (hsum.imp_right fun ht => neighbours_lt ht (isSpan_of_free hf) hg)
      refine hlist L R _ (fun x hx => by simp [hx]) (fun x hx => by simp [hx]) ⟨hf'.1, ?_⟩
      refine dvd_add64 he'.2 hfg (hsum.imp_right fun ht => ?_)
      have hlt := neighbours_lt (tiled_join ht (isSpan_of_free hf) hg) rfl (isSpan_of_free he)
      have heq : add64 f.size g.size = f.size + g.size :=
        Nat.mod_eq_of_lt (neighbours_lt ht (isSpan_of_free hf) hg)
      rw [heq, Nat.add_comm]
      exact hlt
  | left L f R hf hR =>
      have hf' := hV f (by simp)
      have hg' := hV g (by simp)
      refine hlist L R _ (fun x hx => by simp [hx]) (fun x hx => by simp [hx]) ⟨hf'.1, ?_⟩
      exact dvd_add64 hf'.2 hg'.2
        (hsum.imp_right fun ht => neighbours_lt ht (isSpan_of_free hf) hg)
  | right L e R he hL =>
      have hg' := hV g (by simp)
      have he' := hV e (by simp)
      refine hlist L R _ (fun x hx => by simp [hx]) (fun x hx => by simp [hx]) ⟨hg'.1, ?_⟩
      refine dvd_add64 he'.2 hg'.2 (hsum.imp_right fun ht => ?_)
      rw [Nat.add_comm]
      exact neighbours_lt ht hg (isSpan_of_free he)
  | lost L R hL hR =>
      intro t ht
      refine hV t ?_
      rcases List.mem_append.mp ht with ht | ht
      · exact List.mem_append_left _ ht
      · exact List.mem_append_right _ (List.mem_cons_of_mem _ ht)

/-- An allocation adds no span markers. -/
theorem Allocates.mem_of_isSpan (h : Allocates size min flags addr V V') (ht : t ∈ V')
    (hspan : t.isSpan = true) : t ∈ V := by
  obtain ⟨L, f, R, rfl, -, -, -, rfl⟩ := h.split
  unfold splitParts leftPart rightPart at ht
  grind [Seg.isSpan]

/-- A release adds no span markers. -/
theorem Releases.mem_of_isSpan (h : Releases g V V') (ht : t ∈ V') (hspan : t.isSpan = true) :
    t ∈ V := by
  cases h <;> grind [Seg.isSpan]

/-! ## An arena with one span -/

/-- An arena with the one span `[lo, lo + n)`, whose segments are multiples of the quantum. -/
structure Quantized (lo n quantum : ℕ) (V : List Seg) : Prop where
  span : ∀ t ∈ V, t.isSpan = true → t.base = lo ∧ t.size = n
  base_dvd : ∀ t ∈ V, quantum ∣ t.base
  size_dvd : ∀ t ∈ V, quantum ∣ t.size

theorem Quantized.multiple (hq : Quantized lo n quantum V) : ∀ t ∈ V, t.Multiple quantum :=
  fun t ht => ⟨hq.base_dvd t ht, hq.size_dvd t ht⟩

/-- A request of a size class is less than twice any segment of the class. -/
theorem lt_two_mul_of_freelist (hpos : 0 < f.size) (h : freelist size ≤ freelist f.size) :
    size < 2 * f.size := by
  unfold freelist at h
  calc size < 2 ^ (Nat.log2 size + 1) := Nat.lt_log2_self
    _ ≤ 2 ^ (Nat.log2 f.size + 1) := Nat.pow_le_pow_right (by decide) (by omega)
    _ = 2 * 2 ^ Nat.log2 f.size := by rw [Nat.pow_succ, Nat.mul_comm]
    _ ≤ 2 * f.size := Nat.mul_le_mul_left 2 (Nat.log2_self_le (Nat.pos_iff_ne_zero.mp hpos))

/-- Away from the top of the address space no request is served beyond the end of a segment. -/
theorem not_fooled {r : ℕ → ℕ → Prop} (hr : IsGap r) (ht : Tiled r V) (hq : Quantized lo n quantum V)
    (htop : lo + 2 * n < 2 ^ 64) (hmin : min + size < 2 ^ 64) (hf : f ∈ V) :
    Fooled f size min flags = false := by
  rw [Bool.eq_false_iff]
  intro hfool
  simp only [Fooled, Bool.and_eq_true, decide_eq_true_eq] at hfool
  obtain ⟨⟨hfree, hclass⟩, hany⟩ := hfool
  obtain ⟨addr, hfit, hbeyond⟩ := (Option.any_eq_true _ _).mp hany
  have hbeyond : f.base + f.size < addr + size := of_decide_eq_true hbeyond
  obtain ⟨t, htV, hspan, hlo, hhi⟩ :=
    ht.in_span hr hf (isSpan_of_free (of_decide_eq_true hfree))
  obtain ⟨hbase, hsize⟩ := hq.span t htV hspan
  have hsmall := lt_two_mul_of_freelist (ht.size_pos f hf) hclass
  have hpos : 0 < f.size := ht.size_pos f hf
  -- neither sum of the comparison wraps, so it says what it is meant to say
  have hsum : addr + size < 2 ^ 64 := by
    rcases fitAddr_eq hfit with rfl | ⟨rfl, -⟩
    · exact hmin
    · omega
  have hend := fitAddr_end hfit
  unfold add64 at hend
  rw [Nat.mod_eq_of_lt hsum, Nat.mod_eq_of_lt (by omega)] at hend
  omega

/-- An allocation of a multiple of the quantum, at a multiple of it, keeps the arena quantized. -/
theorem quantized_allocates (hq : Quantized lo n quantum V) (hdvd : quantum ∣ 2 ^ 64)
    (hsize : quantum ∣ size) (hmin : quantum ∣ min) (ha : Allocates size min flags addr V V') :
    quantum ∣ addr ∧ Quantized lo n quantum V' := by
  obtain ⟨haddr, hV'⟩ := multiple_allocates hq.multiple hsize hmin ha (.inl hdvd)
  exact ⟨haddr, fun t ht hspan => hq.span t (ha.mem_of_isSpan ht hspan) hspan,
    fun t ht => (hV' t ht).1, fun t ht => (hV' t ht).2⟩

/-- A release keeps the arena quantized. -/
theorem quantized_releases (hq : Quantized lo n quantum V) (hdvd : quantum ∣ 2 ^ 64)
    (hg : g.isSpan = false) (hrel : Releases g V V') : Quantized lo n quantum V' := by
  have hV' := multiple_releases hq.multiple hg hrel (.inl hdvd)
  exact ⟨fun t ht hspan => hq.span t (hrel.mem_of_isSpan ht hspan) hspan,
    fun t ht => (hV' t ht).1, fun t ht => (hV' t ht).2⟩

/-- What `vmem_init` sets up for a span that is a multiple of the quantum. -/
theorem quantized_init {seg : Tag → Seg} {pool : List Tag} {env : E} (hpool : pool.Nodup)
    (hlo : quantum ∣ lo) (hn : quantum ∣ n) (hlt : n < 2 ^ 64) (htop : lo + n ≤ 2 ^ 64)
    (h : vmemInit none seg pool env lo n = some v) :
    Inv (· ≤ ·) ⟨v, []⟩ ∧ Quantized lo n quantum (view v) := by
  have hinit : Initial (⟨v, []⟩ : State E) := ⟨rfl, seg, pool, env, lo, n, hpool, hlt, htop, h⟩
  refine ⟨(inv_initial isGap_le hinit).1, ?_⟩
  obtain ⟨-, ⟨-, hadds⟩ | ⟨-, hnil⟩⟩ := vmemInit_spec hpool h
  · rw [hadds.of_nil]
    have hall : ∀ t ∈ [(⟨.kVMemSegSpan, lo, n⟩ : Seg), ⟨.kVMemSegFree, lo, n⟩],
        t.base = lo ∧ t.size = n := by
      intro t ht
      rcases List.mem_cons.mp ht with rfl | ht
      · exact ⟨rfl, rfl⟩
      · rw [List.mem_singleton.mp ht]
        exact ⟨rfl, rfl⟩
    exact ⟨fun t ht _ => hall t ht, fun t ht => (hall t ht).1 ▸ hlo, fun t ht => (hall t ht).2 ▸ hn⟩
  · rw [hnil]
    exact ⟨nofun, nofun, nofun⟩

/-- A request that is served. -/
theorem inv_xalloc {r : ℕ → ℕ → Prop} (hr : IsGap r) (hi : Inv r (⟨v, live⟩ : State E))
    (hq : Quantized lo n quantum (view v)) (htop : lo + 2 * n < 2 ^ 64) (hlt : min + size < 2 ^ 64)
    (hx : vmemXalloc none v size 0 0 min 0 flags = some (.ok addr, v')) :
    Inv r (⟨v', (addr, size) :: live⟩ : State E) := by
  have hfits : fits (⟨v, live⟩ : State E) (.vmemXalloc v.freeSegs size 0 0 min 0 flags) = true :=
    List.all_eq_true.mpr fun f hf => by
      rw [not_fooled hr hi.tiled hq htop hlt hf]
      rfl
  have hstep : step (⟨v, live⟩ : State E) (.vmemXalloc v.freeSegs size 0 0 min 0 flags)
      = some ⟨v', (addr, size) :: live⟩ := by
    rw [step, if_pos ⟨⟨hi.linked.pool_nodup, hi.linked.pool_disjoint⟩, by omega, hlt.le⟩]
    show (vmemXalloc none v size 0 0 min 0 flags).map _ = _
    rw [hx]
    rfl
  exact inv_step hr hi hfits (by simp) hstep

section Xalloc

variable (hi : Inv (· ≤ ·) (⟨v, live⟩ : State E)) (hq : Quantized lo n quantum (view v))
include hi hq

/-- A request that `vmem_xalloc` cannot serve leaves the arena quantized. -/
theorem quantized_xalloc_error {e : ℤ}
    (hx : vmemXalloc none v size 0 0 min 0 flags = some (.error e, v')) :
    Quantized lo n quantum (view v') ∧ Inv (· ≤ ·) (⟨v', live⟩ : State E) := by
  obtain ⟨hlink, -, -, -, hview⟩ := vmemXalloc_spec hi.linked hx
  have hview : view v' = view v := hview
  exact ⟨hview ▸ hq, hlink, hview ▸ hi.tiled, hview ▸ hi.own, hview ▸ hi.live⟩

/-- **`vmem_xalloc` in a quantized arena**, for a multiple of the quantum at a multiple of it. -/
theorem quantized_xalloc (hdvd : quantum ∣ 2 ^ 64) (htop : lo + 2 * n < 2 ^ 64)
    (hsize : quantum ∣ size) (hmin : quantum ∣ min) (hlt : min + size < 2 ^ 64)
    (hx : vmemXalloc none v size 0 0 min 0 flags = some (.ok addr, v')) :
    Quantized lo n quantum (view v') ∧ Inv (· ≤ ·) (⟨v', (addr, size) :: live⟩ : State E) ∧
      quantum ∣ addr ∧ 0 < size ∧ (flags.exact = true → addr = min) := by
  obtain ⟨-, hne, -, hres⟩ := vmemXalloc_spec hi.linked hx
  obtain ⟨haddr, hq'⟩ := quantized_allocates hq hdvd hsize hmin hres
  refine ⟨hq', inv_xalloc isGap_le hi hq htop hlt hx, haddr, Nat.pos_of_ne_zero hne, fun hexact => ?_⟩
  obtain ⟨L, f, R, -, -, -, hfit, -⟩ := hres.split
  rcases fitAddr_eq hfit with heq | ⟨-, hnot⟩
  · exact heq
  · rw [hexact] at hnot
    cases hnot

end Xalloc

/-- **`vmem_xfree` in a quantized arena.** -/
theorem quantized_xfree {k : ℤ} (hi : Inv (· ≤ ·) (⟨v, live⟩ : State E))
    (hq : Quantized lo n quantum (view v)) (hdvd : quantum ∣ 2 ^ 64)
    (hx : vmemXfree none v addr = some (k, v')) :
    Quantized lo n quantum (view v') ∧
      Inv (· ≤ ·) (⟨v', live.eraseP fun a => a.1 = addr⟩ : State E) := by
  obtain ⟨-, g, hg, hbase, -, hrel⟩ := vmemXfree_spec hi.linked hx
  have hlive : addr ∈ live.map Prod.fst := by
    have hmem : (g.base, g.size) ∈ allocs (view v) :=
      (hrel.allocs_eq hg).mem_iff.mpr List.mem_cons_self
    exact List.mem_map.mpr ⟨_, hi.live.mem_iff.mpr hmem, hbase⟩
  have hstep : step (⟨v, live⟩ : State E) (.vmemXfree v.freeSegs addr)
      = some ⟨v', live.eraseP fun a => a.1 = addr⟩ := by
    rw [step, if_pos ⟨⟨hi.linked.pool_nodup, hi.linked.pool_disjoint⟩, hlive⟩]
    show (vmemXfree none v addr).map _ = _
    rw [hx]
    rfl
  refine ⟨quantized_releases hq hdvd (isSpan_of_allocated hg) hrel, inv_step isGap_le hi rfl ?_ hstep⟩
  intro _ _ L g R _ hg _ hV _ _
  exact tiled_drop (isSpan_of_allocated hg) (hV ▸ hi.tiled)

/-- Another list of unused tags. -/
theorem inv_withPool {r : ℕ → ℕ → Prop} {pool : List Tag} (hi : Inv r (⟨v, live⟩ : State E))
    (hp : PoolOk v pool) : Inv r (⟨withPool v pool, live⟩ : State E) :=
  ⟨linked_withPool hi.linked hp, hi.tiled, hi.own, hi.live⟩

/-- Freeing one live range keeps the others. -/
theorem mem_eraseP_of_ne {x : ℕ × ℕ} (hx : x ∈ live) (hne : x.1 ≠ addr) :
    x ∈ live.eraseP fun a => a.1 = addr :=
  (List.mem_eraseP_of_neg (by simpa using hne)).mpr hx

end Scalux.Vmem
