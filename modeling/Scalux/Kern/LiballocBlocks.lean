import Mathlib.Data.List.Pairwise
import Scalux.Kern.LiballocMalloc
import Scalux.Kern.LiballocFree
import Scalux.Lib.Store

/-! # The blocks and their contents

What has been given out is a chunk of a region, and its bytes are those behind its pointer.

* **`State.block`**: the contents of the block at a pointer, and **`block_eq_some`**.
* **`Represents.poke`**: bytes in a block are changed.
* **`Fresh.takes`**, **`free_block`**: `malloc` and `free`, as what they do to the blocks.
* **`resize_block`**: less is asked for than before. -/

namespace Scalux.Liballoc

open State

variable {H H' H₁ H₂ : List Block} {b : Block} {l r : List Chunk} {c d : Chunk} {s s' : State} {size req p : ℕ}
  {alloc : ℕ → ℕ} {bytes : ℕ → UInt8}

/-- What a block contains. -/
def Chunk.content (bytes : ℕ → UInt8) (c : Chunk) : List UInt8 := (List.range c.req).map fun i => bytes (c.ptr + i)

/-- The content has the bytes asked for. -/
@[simp] theorem Chunk.length_content (bytes : ℕ → UInt8) (c : Chunk) : (c.content bytes).length = c.req := by
  rw [content, List.length_map, List.length_range]

/-- A byte of the content. -/
theorem Chunk.getElem_content (bytes : ℕ → UInt8) (c : Chunk) {i : ℕ} (h : i < (c.content bytes).length) :
    (c.content bytes)[i] = bytes (c.ptr + i) := by
  simp [content]

/-- The content depends on its own bytes only. -/
theorem Chunk.content_congr {bytes' : ℕ → UInt8} (h : ∀ a, c.ptr ≤ a → a < c.ptr + c.req → bytes' a = bytes a) :
    c.content bytes' = c.content bytes :=
  List.map_congr_left fun _ hi => h _ (Nat.le_add_right ..) (Nat.add_lt_add_left (List.mem_range.mp hi) _)

/-- **The block at a pointer**, as `free` would find it. -/
def State.block (s : State) : Store UInt8 := fun p =>
  let a := sub64 (s.unalign p) header
  (s.minors a).bind fun m =>
    if m.magic = magic ∧ align (a + header) = p then some ((List.range m.reqSize).map fun i => s.bytes (p + i))
    else none

/-! ## The chunks of a heap -/

/-- A chunk of one of the regions. -/
def IsChunk (H : List Block) (c : Chunk) : Prop := ∃ b ∈ H, c ∈ b.chunks

/-- A chunk is of one region or of another. -/
theorem isChunk_split : IsChunk (H₁ ++ b :: H₂) d ↔ d ∈ b.chunks ∨ IsChunk (H₁ ++ H₂) d := by
  constructor
  · rintro ⟨e, he, hd⟩
    obtain he | rfl := mem_append_cons.mp he
    · exact .inr ⟨e, he, hd⟩
    · exact .inl hd
  · rintro (hd | ⟨e, he, hd⟩)
    · exact ⟨b, by simp, hd⟩
    · exact ⟨e, mem_of_mem_append he, hd⟩

/-- A chunk is in its region once, and in no other one. -/
theorem HeapOk.once (h : HeapOk (H₁ ++ b :: H₂)) (hchunks : b.chunks = l ++ c :: r) :
    c ∉ l ++ r ∧ ¬ IsChunk (H₁ ++ H₂) c := by
  have hb := h.ok b (by simp)
  have hin := hb.chunk (c := c) (hchunks ▸ by simp)
  have hlt : c.addr < c.stop := by
    unfold Chunk.stop header
    omega
  constructor
  · intro hc
    have hpair := hb.fit.pairwise
    rw [hchunks, List.pairwise_append, List.pairwise_cons] at hpair
    obtain hc | hc := List.mem_append.mp hc
    · have hle := hpair.2.2 c hc c (List.mem_cons_self ..)
      omega
    · have hle := hpair.2.1.1 c hc
      omega
  · rintro ⟨e, he, hc⟩
    have hin' := (h.ok e (mem_of_mem_append he)).chunk hc
    have hap := h.apart_of_mem he
    unfold Block.Apart at hap
    omega

/-- Every chunk of a heap has its room. -/
theorem HeapOk.roomy (h : HeapOk H) (hc : IsChunk H c) : c.Roomy := by
  obtain ⟨b, hb, hc⟩ := hc
  exact (h.ok b hb).room c hc

/-- **Chunks are apart**. -/
theorem HeapOk.chunk_apart (h : HeapOk H) (hc : IsChunk H c) (hd : IsChunk H d) (hne : c ≠ d) :
    c.stop ≤ d.addr ∨ d.stop ≤ c.addr := by
  obtain ⟨b, hb, hc⟩ := hc
  obtain ⟨e, he, hd⟩ := hd
  have hcin := (h.ok b hb).chunk hc
  have hdin := (h.ok e he).chunk hd
  by_cases hbe : b = e
  · subst hbe
    have hsymm : Std.Symm fun c d : Chunk => c.stop ≤ d.addr ∨ d.stop ≤ c.addr := ⟨fun _ _ => Or.symm⟩
    exact ((h.ok b hb).fit.pairwise.imp fun {c d} hle => (Or.inl hle : c.stop ≤ d.addr ∨ d.stop ≤ c.addr)).forall hc
      hd hne
  · have hsymm : Std.Symm Block.Apart := ⟨fun _ _ => Block.Apart.symm⟩
    have hap : b.Apart e := h.apart.forall hb he hbe
    unfold Block.Apart at hap
    omega

/-- A chunk is known from its pointer. -/
theorem HeapOk.eq_of_ptr (h : HeapOk H) (hc : IsChunk H c) (hd : IsChunk H d) (hptr : c.ptr = d.ptr) : c = d := by
  by_contra hne
  have hcr := (h.roomy hc).info
  have hdr := (h.roomy hd).info
  have hap := h.chunk_apart hc hd hne
  rw [hptr] at hcr
  omega

/-- **The blocks of a state** are the chunks. -/
theorem block_eq_some (h : Represents H s) {v : List UInt8} :
    s.block p = some v ↔ ∃ c, IsChunk H c ∧ c.ptr = p ∧ v = c.content s.bytes := by
  unfold State.block
  dsimp only
  rw [Option.bind_eq_some_iff]
  constructor
  -- a live header that is read is the header of a chunk of some region
  · rintro ⟨m, hm, hv⟩
    split at hv
    · next hlive =>
        obtain ⟨b, hb, hmem⟩ := h.live _ m hm hlive.1
        obtain ⟨c, hc, heq⟩ := List.mem_map.mp hmem
        obtain ⟨l, r, hchunks⟩ := List.append_of_mem hc
        have hlinked := h.minors b hb
        rw [hchunks] at hlinked
        have hnode := hlinked.find
        rw [heq, hm] at hnode
        refine ⟨c, ⟨b, hb, hc⟩, ?_, ?_⟩
        · rw [Chunk.ptr, heq]
          exact hlive.2
        · rw [← Option.some.inj hv, Option.some.inj hnode, ← hlive.2, ← heq]
          rfl
    · exact absurd hv nofun
  -- a chunk's header is found by the bytes left before its pointer
  · rintro ⟨c, ⟨b, hb, hc⟩, rfl, rfl⟩
    obtain ⟨l, r, hchunks⟩ := List.append_of_mem hc
    have hlinked := h.minors b hb
    rw [hchunks] at hlinked
    refine ⟨_, (unalign_ptr h hb hc).symm ▸ hlinked.find, ?_⟩
    rw [unalign_ptr h hb hc, if_pos ⟨rfl, rfl⟩]
    rfl

/-- The block at the pointer of a chunk. -/
theorem block_ptr (h : Represents H s) (hc : IsChunk H c) : s.block c.ptr = some (c.content s.bytes) :=
  (block_eq_some h).mpr ⟨c, hc, rfl, rfl⟩

/-- **The blocks of two states** are the same but for the one at a pointer. -/
theorem block_update (h : Represents H s) (h' : Represents H' s') {o : Option (List UInt8)}
    (hat : ∀ v, (∃ c, IsChunk H' c ∧ c.ptr = p ∧ v = c.content s'.bytes) ↔ o = some v)
    (hchunk : ∀ d, d.ptr ≠ p → (IsChunk H' d ↔ IsChunk H d))
    (hcontent : ∀ d, IsChunk H d → d.ptr ≠ p → d.content s'.bytes = d.content s.bytes) :
    s'.block = Function.update s.block p o := by
  refine funext fun q => Option.ext fun v => (block_eq_some h').trans ?_
  rw [Function.update_apply]
  split
  · next hq =>
      rw [hq]
      exact hat v
  · next hq =>
      rw [block_eq_some h]
      constructor
      · rintro ⟨d, hd, rfl, rfl⟩
        have hd' := (hchunk d hq).mp hd
        exact ⟨d, hd', rfl, hcontent d hd' hq⟩
      · rintro ⟨d, hd, rfl, rfl⟩
        exact ⟨d, (hchunk d hq).mpr hd, rfl, (hcontent d hd hq).symm⟩

/-- What is at the pointer of a chunk. -/
theorem HeapOk.at_ptr (h : HeapOk H) (hc : IsChunk H c) {v : List UInt8} :
    (∃ d, IsChunk H d ∧ d.ptr = c.ptr ∧ v = d.content bytes) ↔ some (c.content bytes) = some v := by
  constructor
  · rintro ⟨d, hd, hptr, rfl⟩
    rw [h.eq_of_ptr hd hc hptr]
  · intro hv
    exact ⟨c, hc, rfl, (Option.some.inj hv).symm⟩

/-! ## Bytes are changed -/

/-- **Bytes of a block are changed**. -/
theorem Represents.poke (h : Represents H s) (hc : IsChunk H c) (bytes : ℕ → UInt8)
    (hbytes : ∀ a, a < c.ptr ∨ c.ptr + c.req ≤ a → bytes a = s.bytes a) :
    Represents H { s with bytes := bytes } ∧
      { s with bytes := bytes }.block = Function.update s.block c.ptr (some (c.content bytes)) := by
  have hroom := h.roomy hc
  have hle := hroom.ptr_add_le
  have hptr := c.ptr_spec
  -- bytes of the other chunks lie outside the one written to
  have hout {d : Chunk} (hd : IsChunk H d) (hne : d ≠ c) {a : ℕ} (hlo : d.addr ≤ a) (hhi : a < d.stop) :
      bytes a = s.bytes a := by
    have hap := h.chunk_apart hd hc hne
    exact hbytes a (by omega)
  have hrep : Represents H { s with bytes := bytes } := by
    refine { h with info := fun b hb d hd => ?_ }
    rw [← h.info b hb d hd]
    obtain rfl | hne := eq_or_ne d c
    · exact hbytes _ (.inl (by
        unfold alignInfo at hptr ⊢
        omega))
    · have hinfo := (h.roomy ⟨b, hb, hd⟩).info
      exact hout ⟨b, hb, hd⟩ hne (by omega) hinfo.2
  refine ⟨hrep, block_update h hrep (fun v => h.at_ptr hc) (fun _ _ => Iff.rfl) fun d hd hne => ?_⟩
  have hdptr := d.ptr_spec
  have hdle := (h.roomy hd).ptr_add_le
  refine Chunk.content_congr fun a hlo hhi => hout hd (fun heq => hne (heq ▸ rfl)) ?_ ?_ <;> omega

/-! ## `malloc` -/

/-- Each region has a chunk. -/
def Settled (H : List Block) : Prop := ∀ b ∈ H, b.chunks ≠ []

/-- **A chunk is new**, and the state is as before but for the alignment byte. -/
structure Fresh (H H' : List Block) (c : Chunk) (bytes : ℕ → UInt8) (x : ℕ × State) : Prop
    extends Placed H' c bytes x where
  chunk : ∀ d, IsChunk H' d ↔ d = c ∨ IsChunk H d
  not_chunk : ¬ IsChunk H c
  settled : Settled H → Settled H'

/-- The new chunk that `malloc` has placed, if it has not failed. -/
theorem Allocated.fresh {x : ℕ × State} (hx : Allocated alloc H bytes size req x) :
    (x.1 = 0 ∧ alloc (newPages size) = 0 ∧ Represents H x.2 ∧ x.2.bytes = bytes) ∨
      ∃ H' c, c.size = size ∧ c.req = req ∧ Fresh H H' c bytes x := by
  -- either a gap of a region takes the chunk, or a region made for it
  cases hx with
  | failed hno h0 hrep hbytes => exact .inl ⟨rfl, h0, hrep, hbytes⟩
  | @gap H₁ H₂ b l r a x hH hchunks hp =>
      have honce := hp.represents.once (b := { b with chunks := l ++ ⟨a, size, req⟩ :: r }) rfl
      refine .inr ⟨_, ⟨a, size, req⟩, rfl, rfl, hp, fun d => ?_, ?_, fun hset d hd => ?_⟩
      · rw [hH, isChunk_split, isChunk_split, hchunks, List.mem_append, List.mem_append, List.mem_cons]
        tauto
      · rw [hH, isChunk_split, hchunks]
        exact not_or.mpr honce
      · obtain hd | rfl := mem_append_cons.mp hd
        · exact hset d (hH ▸ mem_of_mem_append hd)
        · exact List.append_ne_nil_of_right_ne_nil l (List.cons_ne_nil _ r)
  | region hno hne hp =>
      have honce := hp.represents.once (l := []) (r := []) rfl
      rw [List.append_nil H] at honce
      refine .inr ⟨_, ⟨_, size, req⟩, rfl, rfl, hp, fun d => ?_, honce.2, fun hset d hd => ?_⟩
      · rw [isChunk_split, List.append_nil, List.mem_singleton]
      · obtain hd | hd := List.mem_append.mp hd
        · exact hset d hd
        · rw [List.mem_singleton.mp hd]
          exact List.cons_ne_nil _ []

/-- **`malloc`** takes a block of the store. -/
theorem Fresh.takes {x : ℕ × State} (h : Represents H s) (hx : Fresh H H' c s.bytes x) :
    Store.Takes alignment s.block c.ptr (c.content x.2.bytes) x.2.block := by
  have hrep := hx.represents
  have hc : IsChunk H' c := (hx.chunk c).mpr (.inl rfl)
  have hin {d : Chunk} (hd : IsChunk H d) : IsChunk H' d ∧ d ≠ c :=
    ⟨(hx.chunk d).mpr (.inr hd), fun heq => hx.not_chunk (heq ▸ hd)⟩
  have hspec := c.ptr_spec
  have hle := (hrep.roomy hc).ptr_add_le
  have hinfo := (hrep.roomy hc).info
  -- the pointer is aligned, was not live, is apart from every live block, and becomes live
  refine ⟨?_, hspec.1, ?_, fun q w hw => ?_, block_update h hrep (fun v => hrep.at_ptr hc) (fun d hne => ?_)
    fun d hd _ => Chunk.content_congr fun a hlo hhi => hx.bytes a ?_⟩
  · unfold header at hspec
    omega
  · refine Option.eq_none_iff_forall_ne_some.mpr fun w hw => ?_
    obtain ⟨d, hd, hptr, -⟩ := (block_eq_some h).mp hw
    exact (hin hd).2 (hrep.eq_of_ptr (hin hd).1 hc hptr)
  · obtain ⟨d, hd, rfl, rfl⟩ := (block_eq_some h).mp hw
    have hap := hrep.chunk_apart (hin hd).1 hc (hin hd).2
    have hdspec := d.ptr_spec
    have hdle := (hrep.roomy (hin hd).1).ptr_add_le
    rw [Chunk.length_content, Chunk.length_content]
    omega
  · rw [hx.chunk]
    exact or_iff_right fun heq => hne (heq ▸ rfl)
  · have hap := hrep.chunk_apart (hin hd).1 hc (hin hd).2
    have hdspec := d.ptr_spec
    have hdle := (hrep.roomy (hin hd).1).ptr_add_le
    omega

/-! ## `free` -/

/-- **`free`** takes a block out of the store. -/
theorem free_block (h : Represents H s) (hset : Settled H) (hc : IsChunk H c) :
    Ends (fun s' => s'.bytes = s.bytes ∧ s'.block = Function.update s.block c.ptr none ∧
      ∃ H', Represents H' s' ∧ Settled H' ∧ ∀ d, IsChunk H' d ↔ IsChunk H d ∧ d ≠ c) (s.free c.ptr) := by
  obtain ⟨b, hb, hmem⟩ := hc
  obtain ⟨H₁, H₂, rfl⟩ := List.append_of_mem hb
  obtain ⟨l, r, hchunks⟩ := List.append_of_mem hmem
  have honce := h.once hchunks
  -- the chunks that remain, however the regions are split around the freed one
  have hother (d : Chunk) : IsChunk (H₁ ++ b :: H₂) d ∧ d ≠ c ↔ d ∈ l ++ r ∨ IsChunk (H₁ ++ H₂) d := by
    rw [isChunk_split, hchunks]
    rw [List.mem_append] at honce ⊢
    rw [List.mem_append, List.mem_cons]
    constructor
    · tauto
    · rintro (hd | hd)
      · exact ⟨by tauto, fun heq => honce.1 (heq ▸ hd)⟩
      · exact ⟨.inr hd, fun heq => honce.2 (heq ▸ hd)⟩
  refine (free_spec h hchunks).mono fun s' hs' => ?_
  obtain ⟨hbytes, hrep⟩ := hs'
  obtain ⟨H', hrep', hset', hchunk⟩ : ∃ H', Represents H' s' ∧ Settled H' ∧
      ∀ d, IsChunk H' d ↔ IsChunk (H₁ ++ b :: H₂) d ∧ d ≠ c := by
    -- the region goes with its last chunk, otherwise it loses this one
    by_cases hnil : l ++ r = []
    · rw [if_pos hnil] at hrep
      refine ⟨_, hrep, fun d hd => hset d (mem_of_mem_append hd), fun d => ?_⟩
      rw [hother, hnil]
      simp
    · rw [if_neg hnil] at hrep
      refine ⟨_, hrep, fun d hd => ?_, fun d => ?_⟩
      · obtain hd | rfl := mem_append_cons.mp hd
        · exact hset d (mem_of_mem_append hd)
        · exact hnil
      · rw [hother, isChunk_split]
  refine ⟨hbytes, block_update h hrep' (fun v => iff_of_false ?_ nofun) (fun d hne => ?_) (fun d _ _ => hbytes ▸ rfl),
    H', hrep', hset', hchunk⟩
  · rintro ⟨d, hd, hptr, -⟩
    exact ((hchunk d).mp hd).2 (h.eq_of_ptr ((hchunk d).mp hd).1 ⟨b, hb, hmem⟩ hptr)
  · rw [hchunk]
    exact and_iff_left fun heq => hne (heq ▸ rfl)

/-! ## Blocks that shrink -/

/-- A region in which less is asked for. -/
theorem Block.Ok.resize (hb : b.Ok) (hchunks : b.chunks = l ++ c :: r) {n : ℕ} (hn : n ≤ c.req) :
    ({ b with chunks := l ++ { c with req := n } :: r } : Block).Ok := by
  have hfit := hb.fit
  rw [hchunks, fit_append] at hfit
  refine { hb with fit := (fit_append ..).mpr hfit, room := fun d hd => ?_ }
  have hd : d ∈ l ∨ d = { c with req := n } ∨ d ∈ r := by simpa using hd
  obtain hd | rfl | hd := hd
  · exact hb.room d (hchunks ▸ List.mem_append_left _ hd)
  · have hroom := hb.room c (hchunks ▸ by simp)
    unfold Chunk.Roomy at hroom ⊢
    dsimp only
    omega
  · exact hb.room d (hchunks ▸ List.mem_append_right l (List.mem_cons_of_mem c hd))

/-- The assignment to `req_size`. -/
theorem Represents.resize (h : Represents (H₁ ++ b :: H₂) s) (hchunks : b.chunks = l ++ c :: r) {n : ℕ}
    (hn : n ≤ c.req) :
    Ends (fun s' => s'.bytes = s.bytes ∧
        Represents (H₁ ++ { b with chunks := l ++ { c with req := n } :: r } :: H₂) s')
      (s.setMinor c.addr fun m => { m with reqSize := n % 2 ^ 32 }) := by
  have hb := h.ok b (by simp)
  have hmem : c ∈ b.chunks := hchunks ▸ by simp
  have hin := hb.chunk hmem
  have hsize : n % 2 ^ 32 = n := Nat.mod_eq_of_lt (by
    have hroom := hb.room c hmem
    have hlt := hb.size_lt
    unfold Chunk.Roomy at hroom
    unfold Chunk.stop at hin
    unfold Block.stop at hin
    omega)
  have hlinked := h.minors b (by simp)
  have hnodup := hb.nodup
  rw [hchunks] at hlinked hnodup
  rw [setMinor_eq hlinked.find, hsize]
  refine .some ⟨rfl, h.change (hb.resize hchunks hn) rfl rfl ?_
    (hlinked.replace (b := { c with req := n }) ?_ rfl) (fun a ha => ?_)
    (fun a m hm hmagic hlo hhi => ?_) (fun d hd => ?_) (fun a _ => rfl) rfl h.bestBet ?_ rfl⟩
  · refine (Function.update_eq_self_iff.mpr ?_).symm
    rw [h.major]
    unfold Block.node Block.usage
    dsimp only
    rw [firstOr_append, hchunks, firstOr_append]
    simp only [List.map_append, List.map_cons]
    rfl
  · rw [List.map_append, List.map_cons, List.nodup_append, List.nodup_cons] at hnodup
    rw [List.map_append, List.mem_append]
    -- the header stays at its address, which no other chunk of the region has
    rintro (hl | hr)
    · exact hnodup.2.2 _ hl _ (List.mem_cons_self ..) rfl
    · exact hnodup.2.1.1 hr
  · refine Function.update_of_ne ?_ ..
    unfold Chunk.stop header at hin
    unfold header at ha
    omega
  · have hmap : (l ++ { c with req := n } :: r).map Chunk.addr = b.chunks.map Chunk.addr := by
      rw [hchunks, List.map_append, List.map_append, List.map_cons, List.map_cons]
    rw [hmap]
    dsimp only at hm
    rw [Function.update_apply] at hm
    split at hm
    · next ha => exact ha ▸ List.mem_map_of_mem hmem
    · obtain ⟨e, he, hlive⟩ := h.live a m hm hmagic
      obtain he | rfl := mem_append_cons.mp he
      · exact absurd hlive ((h.apart_of_mem he).not_mem (h.ok e (mem_of_mem_append he)) hlo hhi)
      · exact hlive
  · have hd : d ∈ l ∨ d = { c with req := n } ∨ d ∈ r := by simpa using hd
    obtain hd | rfl | hd := hd
    · exact h.info b (by simp) d (hchunks ▸ List.mem_append_left _ hd)
    · exact h.info b (by simp) c hmem
    · exact h.info b (by simp) d (hchunks ▸ List.mem_append_right l (List.mem_cons_of_mem c hd))
  · change s.inuse = _
    rw [h.inuse]
    simp only [List.map_append, List.map_cons, hchunks]

/-- **Less is asked for** than before. -/
theorem resize_block (h : Represents H s) (hset : Settled H) (hc : IsChunk H c) {n : ℕ} (hn : n ≤ c.req) :
    Ends (fun s' => s'.block = Function.update s.block c.ptr (some ((c.content s.bytes).take n)) ∧
      ∃ H', Represents H' s' ∧ Settled H') (s.setMinor c.addr fun m => { m with reqSize := n % 2 ^ 32 }) := by
  obtain ⟨b, hb, hmem⟩ := hc
  obtain ⟨H₁, H₂, rfl⟩ := List.append_of_mem hb
  obtain ⟨l, r, hchunks⟩ := List.append_of_mem hmem
  refine (h.resize hchunks hn).mono fun s' hs' => ?_
  obtain ⟨hbytes, hrep⟩ := hs'
  -- a block made smaller keeps its first bytes
  have hcontent : Chunk.content s'.bytes { c with req := n } = (c.content s.bytes).take n := by
    unfold Chunk.content
    rw [hbytes, ← List.map_take, List.take_range, Nat.min_eq_left hn]
    rfl
  have hchunk (d : Chunk) (hne : d.ptr ≠ c.ptr) :
      IsChunk (H₁ ++ { b with chunks := l ++ { c with req := n } :: r } :: H₂) d ↔ IsChunk (H₁ ++ b :: H₂) d := by
    have hdc : d ≠ c := fun heq => hne (heq ▸ rfl)
    have hdc' : d ≠ { c with req := n } := fun heq => hne (heq ▸ rfl)
    rw [isChunk_split, isChunk_split, hchunks, List.mem_append, List.mem_append, List.mem_cons, List.mem_cons]
    tauto
  refine ⟨block_update h hrep (fun v => ?_) hchunk (fun d _ _ => hbytes ▸ rfl), _, hrep, fun d hd => ?_⟩
  · rw [← hcontent]
    exact hrep.at_ptr (c := { c with req := n })
      (isChunk_split.mpr (.inl (List.mem_append_right l (List.mem_cons_self ..))))
  · obtain hd | rfl := mem_append_cons.mp hd
    · exact hset d (mem_of_mem_append hd)
    · exact List.append_ne_nil_of_right_ne_nil l (List.cons_ne_nil _ r)

end Scalux.Liballoc
