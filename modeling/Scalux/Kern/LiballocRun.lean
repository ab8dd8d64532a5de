import Scalux.Kern.LiballocBlocks
import Scalux.Lib.Run

/-! # Runs of the callers of `malloc`

The callers allocate blocks, fill them, change their sizes and free them, with pointers that they hold and sizes
that `unsigned int` has room for.

* **`malloc_step`**, **`calloc_step`**, **`realloc_step`**, **`free_step`**: what a call does to the blocks.
* **`blocks_refine`**: every run is one of a store of blocks. -/

namespace Scalux.Liballoc

open State

variable {H : List Block} {c d : Chunk} {s s' : State} {fuel req p n : ℕ} {alloc : ℕ → ℕ} {x : ℕ × State}

/-! ## Copying and clearing -/

/-- The bytes that `liballoc_memset` leaves. -/
theorem memset_bytes (s : State) (p : ℕ) (v : UInt8) (n a : ℕ) :
    (s.memset p v n).bytes a = if p ≤ a ∧ a < p + n then v else s.bytes a := by
  unfold memset
  dsimp only
  induction n with
  | zero => exact (if_neg (by omega)).symm
  | succ n ih =>
      rw [List.range_succ, List.foldl_append, List.foldl_cons, List.foldl_nil, Function.update_apply, ih]
      split_ifs <;> first | rfl | omega

/-- A loop that copies words of `w` bytes to where they do not come from. -/
theorem copyLoop (w dst src k : ℕ) (hap : dst + w * k ≤ src ∨ src + w * k ≤ dst) (b : ℕ → UInt8) (a : ℕ) :
    (List.range k).foldl (fun b i => copyWord w (dst + w * i) (src + w * i) b) b a
      = if dst ≤ a ∧ a < dst + w * k then b (src + (a - dst)) else b a := by
  induction k generalizing a with
  | zero => exact (if_neg (by omega)).symm
  | succ k ih =>
      rw [Nat.mul_succ] at hap ⊢
      have ih := ih (by omega)
      rw [List.range_succ, List.foldl_append, List.foldl_cons, List.foldl_nil]
      unfold copyWord at ih ⊢
      split
      · next ha =>
          -- The last word has not been written to, and is where it was.
          rw [ih, if_neg (by omega), if_pos (by omega)]
          congr 1
          omega
      · next ha =>
          rw [ih]
          split_ifs <;> first | rfl | omega

/-- The bytes that `liballoc_memcpy` leaves. -/
theorem memcpy_bytes (s : State) (dst src n : ℕ) (hap : dst + n ≤ src ∨ src + n ≤ dst) (a : ℕ) :
    (s.memcpy dst src n).bytes a = if dst ≤ a ∧ a < dst + n then s.bytes (src + (a - dst)) else s.bytes a := by
  have hmod : 4 * (n / 4) + n % 4 = n := Nat.div_add_mod n 4
  have hwords := copyLoop 4 dst src (n / 4) (by omega) s.bytes
  have hbytes := copyLoop 1 (dst + n / 4 * 4) (src + n / 4 * 4) (n % 4) (by omega)
  simp only [Nat.one_mul] at hbytes
  unfold memcpy
  dsimp only
  rw [hbytes]
  split
  · next ha =>
      -- These bytes come from where no word has been written to.
      rw [hwords, if_neg (by omega), if_pos (by omega)]
      congr 1
      omega
  · next ha =>
      rw [hwords]
      split_ifs <;> first | rfl | omega

/-! ## What callers may ask for -/

/-- A size that `unsigned int` has room for, with the headers of its region and in whole pages. -/
def Small (req : ℕ) : Prop := req + alignment + alignInfo + header + header + pageSize ≤ 2 ^ 32

instance (req : ℕ) : Decidable (Small req) := inferInstanceAs (Decidable (_ ≤ _))

/-- **What is promised of `liballoc_alloc`**, when it is asked for pages for a size: pages that are apart from
those that are held. -/
def State.Promised (s : State) (alloc : ℕ → ℕ) (req : ℕ) : Prop :=
  let pages := newPages (req + alignment + alignInfo)
  alloc pages ≠ 0 → pageSize ∣ alloc pages ∧ alloc pages + pages * pageSize ≤ 2 ^ 64 ∧
    ∀ a m, s.majors a = some m → a + m.pages * pageSize ≤ alloc pages ∨ alloc pages + pages * pageSize ≤ a

/-- What the page supplier promises is what `malloc` needs of it. -/
theorem State.Promised.supplies (hp : s.Promised alloc req) (h : Represents H s) (hsmall : Small req) :
    Supplies alloc H (req + alignment + alignInfo) := by
  intro hne
  obtain ⟨haligned, hstop, hapart⟩ := hp hne
  refine ⟨newBlock_ok hsmall hne haligned hstop, fun b hb => ?_⟩
  obtain ⟨H₁, H₂, hH⟩ := List.append_of_mem hb
  have hap := hapart _ _ (hH ▸ h).major
  unfold Block.Apart Block.stop Block.size newBlock
  exact hap

/-- **A state in which callers may call**: it stands for a heap each of whose regions has a chunk. -/
def Good (s : State) : Prop := ∃ H, Represents H s ∧ Settled H

/-- The state at the start is good. -/
theorem good_initial (bytes : ℕ → UInt8) : Good (.initial bytes) := ⟨[], represents_initial bytes, nofun⟩

/-- The blocks depend on the heap through the bytes only. -/
theorem block_of_bytes (h : Represents H s) (h' : Represents H s') (hbytes : s'.bytes = s.bytes) :
    s'.block = s.block := by
  refine funext fun p => Option.ext fun v => ?_
  rw [block_eq_some h, block_eq_some h', hbytes]

/-- The header of a block is live. -/
theorem header_of_block (h : Represents H s) {v : List UInt8} (hv : s.block p = some v) :
    ∃ c m, IsChunk H c ∧ c.ptr = p ∧ v = c.content s.bytes ∧ sub64 (s.unalign p) header = c.addr ∧
      s.minors c.addr = some m ∧ m.magic = magic ∧ m.reqSize = c.req := by
  obtain ⟨c, ⟨b, hb, hc⟩, rfl, rfl⟩ := (block_eq_some h).mp hv
  obtain ⟨l, r, hchunks⟩ := List.append_of_mem hc
  have hlinked := h.minors b hb
  rw [hchunks] at hlinked
  exact ⟨c, _, ⟨b, hb, hc⟩, rfl, rfl, unalign_ptr h hb hc, hlinked.find, rfl, rfl⟩

/-- No block is at address 0. -/
theorem Chunk.ptr_ne_zero (c : Chunk) : c.ptr ≠ 0 := by
  have hspec := c.ptr_spec
  unfold header at hspec
  omega

/-! ## The calls -/

/-- What `malloc` has placed, or else it has failed. -/
theorem malloc_fresh (h : Represents H s) (hsmall : Small req) (hp : s.Promised alloc req)
    (hx : s.malloc alloc fuel req = some x) :
    (x.1 = 0 ∧ Represents H x.2 ∧ x.2.bytes = s.bytes) ∨ ∃ H' c, c.req = req ∧ Fresh H H' c s.bytes x := by
  obtain ⟨h0, -, hrep, hbytes⟩ | ⟨H', c, -, hreq, hfresh⟩ :=
    (malloc_of_eq h hsmall (hp.supplies h hsmall) hx).fresh
  · exact .inl ⟨h0, hrep, hbytes⟩
  · exact .inr ⟨H', c, hreq, hfresh⟩

/-- **`malloc`**. -/
theorem malloc_step (h : Good s) (hsmall : Small req) (hp : s.Promised alloc req)
    (hx : s.malloc alloc fuel req = some x) (r : ℕ) :
    Store.Step alignment 0 (r, s.block) (.malloc req) (x.1, x.2.block) ∧ Good x.2 := by
  obtain ⟨H, hrep, hset⟩ := h
  obtain ⟨h0, hrep', hbytes⟩ | ⟨H', c, rfl, hfresh⟩ := malloc_fresh hrep hsmall hp hx
  · rw [h0, block_of_bytes hrep hrep' hbytes]
    exact ⟨.mallocFails, H, hrep', hset⟩
  · have hstep : Store.Step alignment 0 (r, s.block) (.malloc (c.content x.2.bytes).length) (c.ptr, x.2.block) :=
      .malloc (hfresh.takes hrep)
    rw [Chunk.length_content] at hstep
    exact ⟨hfresh.ptr ▸ hstep, H', hfresh.represents, hfresh.settled hset⟩

/-- **`calloc`**, of no more than an `int` has room for. -/
theorem calloc_step (h : Good s) {m : ℕ} (hlt : n * m < 2 ^ 31) (hp : s.Promised alloc (n * m))
    (hx : s.calloc alloc fuel n m = some x) (r : ℕ) :
    Store.Step alignment 0 (r, s.block) (.calloc n m) (x.1, x.2.block) ∧ Good x.2 := by
  have hsize : n * m % 2 ^ 32 = n * m := Nat.mod_eq_of_lt (by omega)
  have hsmall : Small (n * m) := by
    unfold Small alignment alignInfo header pageSize
    omega
  obtain ⟨H, hrep, hset⟩ := h
  unfold calloc at hx
  rw [hsize, if_pos hlt, Option.bind_eq_some_iff] at hx
  obtain ⟨⟨q, s'⟩, hmalloc, hx⟩ := hx
  dsimp only at hx
  split at hx
  · exact absurd hx nofun
  · next hnull =>
      obtain rfl := Option.some.inj hx
      obtain ⟨h0, hrep', hbytes⟩ | ⟨H', c, hreq, hfresh⟩ := malloc_fresh hrep hsmall hp hmalloc
      · dsimp only at h0 hrep' hbytes ⊢
        -- a null pointer goes on to `memset` only for a product of zero, and then writes nothing
        have hzero : n * m = 0 := by
          by_contra hne
          exact hnull ⟨h0, hne⟩
        rw [hzero, h0, show s'.memset 0 0 0 = s' from rfl, block_of_bytes hrep hrep' hbytes]
        exact ⟨.callocFails, H, hrep', hset⟩
      · have hptr : q = c.ptr := hfresh.ptr
        subst hptr
        obtain ⟨hpoke, hblock⟩ := hfresh.represents.poke ((hfresh.chunk c).mpr (.inl rfl))
          (s'.memset c.ptr 0 (n * m)).bytes fun a ha => by rw [memset_bytes, if_neg (by omega)]
        -- every byte of the new chunk is written by the loop
        have hcontent : c.content (s'.memset c.ptr 0 (n * m)).bytes = List.replicate (n * m) 0 := by
          refine List.eq_replicate_iff.mpr ⟨by rw [Chunk.length_content, hreq], fun v hv => ?_⟩
          obtain ⟨i, hi, rfl⟩ := List.mem_map.mp hv
          have hi := List.mem_range.mp hi
          rw [memset_bytes, if_pos (by omega)]
        have htakes := (hfresh.takes hrep).fill (w := List.replicate (n * m) 0) (by
          rw [List.length_replicate, Chunk.length_content, hreq])
        rw [hcontent] at hblock
        rw [← hblock] at htakes
        exact ⟨.calloc htakes, H', hpoke, hfresh.settled hset⟩

/-- **`free`**. -/
theorem free_step (h : Good s) (hp : p = 0 ∨ s.block p ≠ none) (r : ℕ) :
    Ends (fun s' => Store.Step alignment 0 (r, s.block) (.free p) (0, s'.block) ∧ Good s') (s.free p) := by
  obtain ⟨H, hrep, hset⟩ := h
  obtain rfl | hp := hp
  · exact .some ⟨.freeNull, H, { hrep with }, hset⟩
  · obtain ⟨v, hv⟩ := Option.ne_none_iff_exists'.mp hp
    obtain ⟨c, m, hc, rfl, rfl, -⟩ := header_of_block hrep hv
    refine (free_block hrep hset hc).mono fun s' hs' => ?_
    obtain ⟨-, hblock, H', hrep', hset', -⟩ := hs'
    rw [hblock]
    exact ⟨.free hv, H', hrep', hset'⟩

/-- What `realloc` has done to a block that grows, where there was memory. -/
theorem realloc_move (h : Represents H s) (hset : Settled H) (hc : IsChunk H c) {H' : List Block} (hlt : c.req < d.req)
    (hfresh : Fresh H H' d s.bytes x) (r : ℕ) :
    Ends (fun s' => Store.Step alignment 0 (r, s.block) (.realloc c.ptr d.req) (d.ptr, s'.block) ∧ Good s')
      ((x.2.memcpy d.ptr c.ptr c.req).free c.ptr) := by
  have hrep := hfresh.represents
  have hd : IsChunk H' d := (hfresh.chunk d).mpr (.inl rfl)
  have hc' : IsChunk H' c := (hfresh.chunk c).mpr (.inr hc)
  have hne : c ≠ d := fun heq => hfresh.not_chunk (heq ▸ hc)
  have hap := hrep.chunk_apart hc' hd hne
  have hcptr := c.ptr_spec
  have hdptr := d.ptr_spec
  have hcle := (hrep.roomy hc').ptr_add_le
  have hdle := (hrep.roomy hd).ptr_add_le
  have hdinfo := (hrep.roomy hd).info
  have hcopy := memcpy_bytes x.2 d.ptr c.ptr c.req (by omega)
  obtain ⟨hpoke, hblock⟩ := hrep.poke hd (x.2.memcpy d.ptr c.ptr c.req).bytes fun a ha => by
    rw [hcopy, if_neg (by omega)]
  have htakes := (hfresh.takes h).fill (w := d.content (x.2.memcpy d.ptr c.ptr c.req).bytes) (by
    rw [Chunk.length_content, Chunk.length_content])
  rw [← hblock] at htakes
  -- the new block begins with the bytes of the old one
  have hkept : (d.content (x.2.memcpy d.ptr c.ptr c.req).bytes).take (c.content s.bytes).length
      = c.content s.bytes := by
    rw [Chunk.length_content]
    unfold Chunk.content
    rw [← List.map_take, List.take_range, Nat.min_eq_left (Nat.le_of_lt hlt)]
    refine List.map_congr_left fun i hi => ?_
    have hi := List.mem_range.mp hi
    rw [hcopy, if_pos (by omega), Nat.add_sub_cancel_left]
    exact hfresh.bytes _ (by omega)
  -- the old block is released last, with the bytes copied
  refine (free_block hpoke (hfresh.settled hset) hc').mono fun s' hs' => ?_
  obtain ⟨-, hfree, H'', hrep'', hset'', -⟩ := hs'
  have hlen : (c.content s.bytes).length < (d.content (x.2.memcpy d.ptr c.ptr c.req).bytes).length := by
    rw [Chunk.length_content, Chunk.length_content]
    exact hlt
  have hstep : Store.Step alignment 0 (r, s.block)
      (.realloc c.ptr (d.content (x.2.memcpy d.ptr c.ptr c.req).bytes).length)
      (d.ptr, Function.update (x.2.memcpy d.ptr c.ptr c.req).block c.ptr none) :=
    .reallocMove (block_ptr h hc) hlen hkept htakes
  rw [Chunk.length_content] at hstep
  rw [hfree]
  exact ⟨hstep, H'', hrep'', hset''⟩

/-- **`realloc`**. -/
theorem realloc_step (h : Good s) (hp : p = 0 ∨ s.block p ≠ none) (hsmall : Small n) (hprom : s.Promised alloc n)
    (hx : s.realloc alloc fuel p n = some x) (r : ℕ) :
    Store.Step alignment 0 (r, s.block) (.realloc p n) (x.1, x.2.block) ∧ Good x.2 := by
  unfold realloc at hx
  -- size zero frees, a null pointer allocates
  obtain rfl | hn := Nat.eq_zero_or_pos n
  · rw [if_pos rfl] at hx
    obtain ⟨s', hfree, rfl⟩ := Option.map_eq_some_iff.mp hx
    obtain ⟨hstep, hgood⟩ := (free_step h hp r).of_eq hfree
    exact ⟨.reallocFree hstep, hgood⟩
  rw [if_neg (Nat.ne_of_gt hn)] at hx
  by_cases hp0 : p = 0
  · rw [if_pos hp0] at hx
    obtain ⟨hstep, hgood⟩ := malloc_step h hsmall hprom hx r
    exact ⟨hp0 ▸ .reallocNew hstep, hgood⟩
  rw [if_neg hp0] at hx
  -- a block that stays where it is when the new size fits, and moves otherwise
  obtain ⟨H, hrep, hset⟩ := h
  obtain ⟨v, hv⟩ := Option.ne_none_iff_exists'.mp (hp.resolve_left hp0)
  obtain ⟨c, m, hc, rfl, rfl, haddr, hm, hmagic, hreq⟩ := header_of_block hrep hv
  dsimp only at hx
  rw [haddr, hm, Option.bind_some, if_neg (not_not.mpr hmagic), hreq] at hx
  split at hx
  · next hle =>
      obtain ⟨s', hresize, rfl⟩ := Option.map_eq_some_iff.mp hx
      obtain ⟨hblock, H', hrep', hset'⟩ := (resize_block hrep hset hc hle).of_eq hresize
      rw [hblock]
      refine ⟨.reallocSame hv hn ?_, H', hrep', hset'⟩
      rw [Chunk.length_content]
      exact hle
  · next hlt =>
      obtain ⟨y, hmalloc, hy⟩ := Option.bind_eq_some_iff.mp hx
      obtain ⟨h0, hrep', hbytes⟩ | ⟨H', d, rfl, hfresh⟩ := malloc_fresh hrep hsmall hprom hmalloc
      · split at hy
        · exact absurd hy nofun
        · next hnull =>
            -- an old block of no bytes is released all the same
            have hzero : c.req = 0 := by
              by_contra hne
              exact hnull ⟨h0, hne⟩
            obtain ⟨s', hfree, rfl⟩ := Option.map_eq_some_iff.mp hy
            rw [hzero, h0, show y.2.memcpy 0 c.ptr 0 = y.2 from rfl] at hfree
            obtain ⟨-, hblock, H', hrep'', hset', -⟩ := (free_block hrep' hset hc).of_eq hfree
            rw [h0, hblock, block_of_bytes hrep hrep' hbytes]
            refine ⟨.reallocLost ?_ hn, H', hrep'', hset'⟩
            rw [hv]
            unfold Chunk.content
            rw [hzero]
            rfl
      · have hptr := hfresh.ptr
        rw [hptr, if_neg (fun hnull => d.ptr_ne_zero hnull.1)] at hy
        obtain ⟨s', hfree, rfl⟩ := Option.map_eq_some_iff.mp hy
        exact (realloc_move hrep hset hc (Nat.lt_of_not_le hlt) hfresh r).of_eq hfree

/-! ## Runs -/

/-- What a caller does: a call, with what `liballoc_alloc` answers and a bound on the rounds, or a write. -/
inductive Action
  | malloc (alloc : ℕ → ℕ) (fuel req : ℕ)
  | calloc (alloc : ℕ → ℕ) (fuel nobj size : ℕ)
  | realloc (alloc : ℕ → ℕ) (fuel p size : ℕ)
  | free (p : ℕ)
  | write (p i : ℕ) (v : UInt8)

/-- The call of the store. -/
def Action.call : Action → Store.Call UInt8
  | .malloc _ _ req => .malloc req
  | .calloc _ _ nobj size => .calloc nobj size
  | .realloc _ _ p size => .realloc p size
  | .free p => .free p
  | .write p i v => .write p i v

/-- One step, with what is returned. -/
def step (x : ℕ × State) : Action → Option (ℕ × State)
  | .malloc alloc fuel req => x.2.malloc alloc fuel req
  | .calloc alloc fuel nobj size => x.2.calloc alloc fuel nobj size
  | .realloc alloc fuel p size => x.2.realloc alloc fuel p size
  | .free p => (x.2.free p).map fun s => (0, s)
  | .write p i v => some (0, { x.2 with bytes := Function.update x.2.bytes (p + i) v })

/-- The calls of the callers. -/
def callers : Machine (ℕ × State) Action := ⟨step⟩

/-- **What callers may do**: they ask for sizes that there is room for, and use pointers to blocks that they hold. -/
def Allowed (x : ℕ × State) : Action → Prop
  | .malloc alloc _ req => Small req ∧ x.2.Promised alloc req
  | .calloc alloc _ nobj size => nobj * size < 2 ^ 31 ∧ x.2.Promised alloc (nobj * size)
  | .realloc alloc _ p size => (p = 0 ∨ x.2.block p ≠ none) ∧ Small size ∧ x.2.Promised alloc size
  | .free p => p = 0 ∨ x.2.block p ≠ none
  | .write p i _ => ∃ v, x.2.block p = some v ∧ i < v.length

/-- A write into a block. -/
theorem write_step (h : Good s) {i : ℕ} {v : List UInt8} (hv : s.block p = some v) (hi : i < v.length) (b : UInt8)
    (r : ℕ) :
    Store.Step alignment 0 (r, s.block) (.write p i b)
      (0, { s with bytes := Function.update s.bytes (p + i) b }.block) ∧
      Good { s with bytes := Function.update s.bytes (p + i) b } := by
  obtain ⟨H, hrep, hset⟩ := h
  obtain ⟨c, m, hc, rfl, rfl, -⟩ := header_of_block hrep hv
  rw [Chunk.length_content] at hi
  obtain ⟨hpoke, hblock⟩ := hrep.poke hc (Function.update s.bytes (c.ptr + i) b) fun a ha =>
    Function.update_of_ne (by omega) ..
  have hcontent : c.content (Function.update s.bytes (c.ptr + i) b) = (c.content s.bytes).set i b := by
    refine List.ext_getElem (by simp) fun j hj hj' => ?_
    rw [List.getElem_set, Chunk.getElem_content, Chunk.getElem_content, Function.update_apply]
    exact if_congr ⟨fun heq => by omega, fun heq => by omega⟩ rfl rfl
  rw [hblock, hcontent]
  exact ⟨.write hv (by rwa [Chunk.length_content]), H, hpoke, hset⟩

/-- **A step of the callers** is one of the store. -/
theorem step_refines {x y : ℕ × State} {a : Action} (h : Good x.2) (ha : Allowed x a) (hs : step x a = some y) :
    Store.Step alignment 0 (x.1, x.2.block) a.call (y.1, y.2.block) ∧ Good y.2 := by
  cases a with
  | malloc alloc fuel req => exact malloc_step h ha.1 ha.2 hs x.1
  | calloc alloc fuel nobj size => exact calloc_step h ha.1 ha.2 hs x.1
  | realloc alloc fuel p size => exact realloc_step h ha.1 ha.2.1 ha.2.2 hs x.1
  | free p =>
      obtain ⟨s', hfree, rfl⟩ := Option.map_eq_some_iff.mp hs
      exact (free_step h ha x.1).of_eq hfree
  | write p i v =>
      obtain ⟨w, hw, hi⟩ := ha
      obtain rfl := Option.some.inj hs
      exact write_step h hw hi v x.1

/-- Every state of a run is one in which callers may call. -/
theorem good_of_reach {bytes : ℕ → UInt8} {x : ℕ × State} (h : callers.Reach Allowed (0, .initial bytes) x) :
    Good x.2 :=
  h.invariant (I := fun x => Good x.2) (good_initial bytes) fun _ _ _ hgood ha hs => (step_refines hgood ha hs).2

/-- **Every run is a run of a store of blocks**: what is allocated is apart and aligned, what has been written is
there until it is written to again or freed, `calloc` clears, and `realloc` keeps what it copies. -/
theorem blocks_refine {bytes : ℕ → UInt8} {l : List Action} {x : ℕ × State}
    (h : callers.Trace Allowed (0, .initial bytes) l x) :
    Machine.Path (Store.Step alignment 0) (0, fun _ => none) (l.map Action.call) (x.1, x.2.block) := by
  have hstep (x : ℕ × State) (a : Action) (y : ℕ × State) (t : ℕ × Store UInt8)
      (hR : t = (x.1, x.2.block) ∧ Good x.2) (ha : Allowed x a) (hs : callers.step x a = some y) :
      ∃ b t', b = a.call ∧ Store.Step alignment 0 t b t' ∧ t' = (y.1, y.2.block) ∧ Good y.2 := by
    obtain ⟨rfl, hgood⟩ := hR
    obtain ⟨hstep, hgood'⟩ := step_refines hgood ha hs
    exact ⟨a.call, _, rfl, hstep, rfl, hgood'⟩
  obtain ⟨l', t, hl, hpath, hrel, -⟩ := h.simulates hstep ⟨rfl, good_initial bytes⟩
  have hmap : l' = l.map Action.call := by
    clear hpath h
    induction hl with
    | nil => rfl
    | cons hab _ ih => rw [hab, ih, List.map_cons]
  rw [← hmap, ← hrel]
  exact hpath

/-- A block of 100 bytes is allocated, written to and freed. -/
theorem blocks_refine_small : ∃ x, Machine.Path (Store.Step alignment (0 : UInt8)) (0, fun _ => none)
    [.malloc 100, .write 65632 99 7, .free 65632] x := by
  let s : State := .initial fun _ => 0
  let a : Action := .malloc (fun _ => 65536) 3 100
  let x := (callers.step (0, s) a).get (by decide)
  let y : ℕ × State := (0, { x.2 with bytes := Function.update x.2.bytes (65632 + 99) 7 })
  have hblock : (x.2.block 65632).map List.length = some 100 := by decide
  obtain ⟨v, hv, hlen⟩ := Option.map_eq_some_iff.mp hblock
  have hmalloc : Allowed (0, s) a := ⟨show 100 + alignment + alignInfo + _ + _ + _ ≤ _ by decide,
    fun _ => ⟨by decide, by decide, nofun⟩⟩
  have hwrite : Allowed x (.write 65632 99 7) := ⟨v, hv, by omega⟩
  have hfree : Allowed y (.free 65632) := .inr (show y.2.block 65632 ≠ none by decide)
  have hsome : (callers.step y (.free 65632)).isSome := by decide
  exact ⟨_, blocks_refine (.cons hmalloc (Option.some_get _).symm
    (.cons hwrite rfl (.cons hfree (Option.some_get hsome).symm (.nil _))))⟩

/-! ## A region with two blocks -/

/-- Whether a call is allowed that gets no pages. -/
def allowedHere (x : ℕ × State) : Action → Bool
  | .malloc alloc _ req => decide (Small req ∧ alloc (newPages (req + alignment + alignInfo)) = 0)
  | .free p => (x.2.block p).isSome
  | _ => false

/-- The test for an allowed call is sound. -/
theorem allowed_of_allowedHere (x : ℕ × State) (a : Action) (h : allowedHere x a = true) : Allowed x a := by
  cases a with
  | malloc alloc fuel req =>
      rw [allowedHere, decide_eq_true_iff] at h
      exact ⟨h.1, fun hne => absurd h.2 hne⟩
  | free p => exact .inr (Option.isSome_iff_ne_none.mp h)
  | _ => cases h

/-- A block of 100 bytes, in a region that has been taken for it. -/
def oneBlock : ℕ × State :=
  (callers.step (0, .initial fun _ => 0) (.malloc (fun _ => 65536) 3 100)).get (by decide)

/-- Calls that get no pages, after the first one. -/
theorem reach_oneBlock {l : List Action} (hm : callers.meets allowedHere oneBlock l = true)
    (hs : callers.exec oneBlock l = some x) : callers.Reach Allowed (0, .initial fun _ => 0) x := by
  have hfirst : Allowed (0, .initial fun _ => 0) (.malloc (fun _ => 65536) 3 100) :=
    ⟨by decide, fun _ => ⟨by decide, by decide, nofun⟩⟩
  exact (Machine.Reach.step .init hfirst (Option.some_get _).symm).trans
    (Machine.reach_of_exec allowed_of_allowedHere hm hs)

/-- A block of 40 bytes behind the first one. -/
def twoBlocks : ℕ × State := (callers.exec oneBlock [.malloc (fun _ => 0) 3 40]).get (by decide)

/-- The first of the two blocks has been freed, and there is a gap before the other. -/
def oneGap : ℕ × State := (callers.exec oneBlock [.malloc (fun _ => 0) 3 40, .free 65632]).get (by decide)

/-- Both blocks have been freed. -/
def noBlocks : ℕ × State :=
  (callers.exec oneBlock [.malloc (fun _ => 0) 3 40, .free 65632, .free 65808]).get (by decide)

/-- The state with two blocks is reached by allowed calls. -/
theorem reach_twoBlocks : callers.Reach Allowed (0, .initial fun _ => 0) twoBlocks :=
  reach_oneBlock (by decide) (Option.some_get _).symm

/-- The state with a gap is reached by allowed calls. -/
theorem reach_oneGap : callers.Reach Allowed (0, .initial fun _ => 0) oneGap :=
  reach_oneBlock (by decide) (Option.some_get _).symm

/-- The state with every block freed is reached by allowed calls. -/
theorem reach_noBlocks : callers.Reach Allowed (0, .initial fun _ => 0) noBlocks :=
  reach_oneBlock (by decide) (Option.some_get _).symm

end Scalux.Liballoc
