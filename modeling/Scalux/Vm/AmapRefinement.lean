import Scalux.Vm.AmapMemory

/-! # Chunks in memory

The memory of an amap (`Scalux.Vm.AmapMemory`) has the table of chunks (`Scalux.Vm.Amap`): an entry that is `NULL`
is an absent chunk, and a slot that is `NULL` has no anon.

* **`anonAt_toAmap`**: the content of a page is the anon in the table.
* **`toAmap_amapAnonAt`**, **`toAmap_store`**: a call and a store in memory are those on the table.
* **`anonAt_reachable`**: the table after a run. -/

namespace Scalux.AmapMemory

open Vm (kAMapChunkNPages Chunk AnonId)

/-- The anon at a pointer that may be `NULL`. -/
def anonOf (x : ℕ) : Option AnonId := if x = 0 then none else some x

/-- The anons in the chunk of an entry. -/
def State.anons (s : State) (i : ℕ) : Chunk where
  anon := (List.range kAMapChunkNPages).map fun k => anonOf (s.heap.mem (s.chunk i + 8 * k))
  length_eq := by rw [List.length_map, List.length_range]

/-- The chunk of an entry. -/
def State.entry (s : State) (i : ℕ) : Option Chunk := if s.chunk i = 0 then none else some (s.anons i)

/-- The table of the chunks. -/
def State.toAmap (s : State) : Vm.Amap := (List.range s.curnchunk).map s.entry

variable {s s' s₁ : State} {a a₁ a₂ : Answer} {page slot n i anon : ℕ}

/-- The entries below `curnchunk`. -/
theorem getElem?_toAmap (s : State) (i : ℕ) :
    s.toAmap[i]? = if i < s.curnchunk then some (s.entry i) else none := by
  rw [State.toAmap, List.getElem?_map]
  split
  · rw [List.getElem?_range ‹_›]
    rfl
  · rw [List.getElem?_eq_none (by rw [List.length_range]; exact Nat.le_of_not_lt ‹_›)]
    rfl

/-- A slot of a chunk is read from its word in memory. -/
theorem getElem?_anons (s : State) (i : ℕ) {k : ℕ} (hk : k < kAMapChunkNPages) :
    (s.anons i).anon[k]? = some (anonOf (s.heap.mem (s.chunk i + 8 * k))) := by
  rw [State.anons, List.getElem?_map, List.getElem?_range hk]
  rfl

/-- **The content of a page** is the anon in the table. -/
theorem anonAt_toAmap (s : State) (page : ℕ) : s.toAmap.anonAt page = anonOf (s.content page) := by
  rw [Vm.Amap.anonAt, getElem?_toAmap, State.content]
  by_cases hin : page / kAMapChunkNPages < s.curnchunk
  · by_cases hne : s.chunk (page / kAMapChunkNPages) = 0
    · rw [if_pos hin, State.entry, if_pos hne, if_neg fun hc => hc.2 hne]
      rfl
    · rw [if_pos hin, State.entry, if_neg hne, if_pos ⟨hin, hne⟩]
      show ((s.anons _).anon[_]?).join = _
      rw [getElem?_anons s _ (mod_lt_pages page)]
      rfl
  · rw [if_neg hin, if_neg fun hc => hin hc.1]
    rfl

/-- Chunks with the same slots are the same. -/
theorem chunk_ext {c d : Chunk} (h : c.anon = d.anon) : c = d := by
  cases c
  cases d
  cases h
  rfl

/-- Chunks with the same slots. -/
theorem anons_congr (h : ∀ k < kAMapChunkNPages,
    s'.heap.mem (s'.chunk i + 8 * k) = s.heap.mem (s.chunk i + 8 * k)) : s'.anons i = s.anons i := by
  refine chunk_ext (List.ext_getElem? fun k => ?_)
  by_cases hk : k < kAMapChunkNPages
  · rw [getElem?_anons s' i hk, getElem?_anons s i hk, h k hk]
  · have hle := Nat.le_of_not_lt hk
    rw [List.getElem?_eq_none (by rwa [Chunk.length_eq]), List.getElem?_eq_none (by rwa [Chunk.length_eq])]

/-- The chunks that are there stay in the table. -/
theorem Extends.entry_eq (h : Extends s s') (hin : i < s.curnchunk) (hne : s.chunk i ≠ 0) :
    s'.entry i = s.entry i := by
  have hchunk := h.chunk_eq i hin hne
  rw [State.entry, State.entry, hchunk, if_neg hne, if_neg hne]
  refine congrArg _ (anons_congr fun k hk => ?_)
  rw [hchunk, h.mem_eq i hin hne k hk]

/-- **Growing** the array grows the table. -/
theorem toAmap_grow (hi : Inv s) (hn : n < 2 ^ 31) (hok : grow a s n = .ok s') :
    s'.toAmap = s.toAmap.grow n := by
  obtain ⟨-, hext, hcount, hchunk⟩ := grow_spec hi hn hok
  have hlength : s.toAmap.length = s.curnchunk := by rw [State.toAmap, List.length_map, List.length_range]
  have hsum : s'.curnchunk = s.curnchunk + (n - s.curnchunk) := by omega
  rw [Vm.Amap.grow, hlength, State.toAmap, State.toAmap, hsum, List.range_add, List.map_append]
  refine congrArg₂ _ (List.map_congr_left fun i hin => ?_) (List.eq_replicate_iff.mpr ⟨?_, fun x hx => ?_⟩)
  · have hin := List.mem_range.mp hin
    by_cases hne : s.chunk i = 0
    · have hnull := hchunk i (by omega)
      rw [if_pos hin, hne] at hnull
      rw [State.entry, State.entry, if_pos hne, if_pos hnull]
    · exact hext.entry_eq hin hne
  · rw [List.length_map, List.length_map, List.length_range]
  · obtain ⟨i, hin, rfl⟩ := List.mem_map.mp hx
    obtain ⟨j, hj, rfl⟩ := List.mem_map.mp hin
    have hnull := hchunk (s.curnchunk + j) (by have := List.mem_range.mp hj; omega)
    rw [if_neg (by omega)] at hnull
    exact if_pos hnull

/-- A new chunk has no anons. -/
theorem entry_of_fresh (hne : s.chunk i ≠ 0)
    (hzero : ∀ k < kAMapChunkNPages, s.heap.mem (s.chunk i + 8 * k) = 0) : s.entry i = some Chunk.zero := by
  rw [State.entry, if_neg hne]
  refine congrArg _ (chunk_ext (List.eq_replicate_iff.mpr ⟨?_, fun x hx => ?_⟩))
  · exact (s.anons i).length_eq
  · obtain ⟨k, hk, rfl⟩ := List.mem_map.mp hx
    rw [hzero k (List.mem_range.mp hk)]
    rfl

/-- **Adding** a chunk adds one without anons to the table, if there was none. -/
theorem toAmap_addChunk (hi : Inv s) (hn : n < s.curnchunk) (hok : addChunk a s n = .ok s') :
    s'.toAmap = if s.chunk n = 0 then s.toAmap.set n (some Chunk.zero) else s.toAmap := by
  -- a chunk that is there already makes the call do nothing
  by_cases hnull : s.chunk n = 0
  swap
  · rw [addChunk, if_neg hnull] at hok
    rw [if_neg hnull, Except.ok.inj hok]
  obtain ⟨-, hext, hne, hcount, hchunk⟩ := addChunk_spec hi hn hok
  have hother : ∀ i < s.curnchunk, i ≠ n → s'.entry i = s.entry i := fun i hin hin' => by
    by_cases hnull : s.chunk i = 0
    · rw [State.entry, State.entry, hchunk i hin hin', if_pos hnull, if_pos hnull]
    · exact hext.entry_eq hin hnull
  rw [if_pos hnull]
  refine List.ext_getElem? fun i => ?_
  rw [getElem?_toAmap, hcount, List.getElem?_set, getElem?_toAmap]
  by_cases hin : n = i
  · subst hin
    have hlength : n < s.toAmap.length := by rwa [State.toAmap, List.length_map, List.length_range]
    rw [if_pos hn, if_pos rfl, if_pos hlength]
    exact congrArg _ (entry_of_fresh hne (hext.fresh n (hcount ▸ hn) (fun _ => hnull) hne))
  · rw [if_neg hin]
    split
    · exact congrArg _ (hother i ‹_› (Ne.symm hin))
    · rfl

/-- **A call** in memory is one on the table, whose array fits. -/
theorem toAmap_amapAnonAt (hi : Inv s) (hpage : page / kAMapChunkNPages + 1 < 2 ^ 31)
    (hfit : (page / kAMapChunkNPages + 1) * 8 ≤ kheapSize) (hok : amapAnonAt a₁ a₂ s page = .ok (slot, s')) :
    s.toAmap.amapAnonAt page = some s'.toAmap := by
  obtain ⟨s₁, hgrow, hadd, -⟩ := amapAnonAt_ok hok
  obtain ⟨hi₁, -, hcount, -⟩ := grow_spec hi hpage hgrow
  have hlt : page / kAMapChunkNPages < s₁.curnchunk := by omega
  have hentry : s₁.toAmap[page / kAMapChunkNPages]? = some (s₁.entry (page / kAMapChunkNPages)) := by
    rw [getElem?_toAmap, if_pos hlt]
  rw [toAmap_addChunk hi₁ hlt hadd]
  unfold Vm.Amap.amapAnonAt
  dsimp only
  rw [if_pos hfit, ← toAmap_grow hi hpage hgrow, hentry, State.entry]
  by_cases hnull : s₁.chunk (page / kAMapChunkNPages) = 0
  · rw [if_pos hnull, if_pos hnull]
  · rw [if_neg hnull, if_neg hnull]

/-- The other chunks stay in the table when an anon is stored. -/
theorem Inv.store_entry (hi : Inv s) (hc : s.HasChunk page) (hin : i < s.curnchunk)
    (hother : i ≠ page / kAMapChunkNPages) : (s.store (s.slot page) anon).entry i = s.entry i := by
  have hchunk := hi.store_chunk (v := anon) hc hin
  rw [State.entry, State.entry, hchunk]
  by_cases hne : s.chunk i = 0
  · rw [if_pos hne, if_pos hne]
  · rw [if_neg hne, if_neg hne]
    refine congrArg _ (anons_congr fun k hk => ?_)
    rw [hchunk]
    exact Function.update_of_ne (hi.slot_ne hc hin hne hother hk).symm _ _

/-- The slot's chunk has the anon. -/
theorem Inv.store_anons (hi : Inv s) (hc : s.HasChunk page) (hanon : anon ≠ 0) :
    (s.store (s.slot page) anon).anons (page / kAMapChunkNPages) =
      (s.anons (page / kAMapChunkNPages)).set (page % kAMapChunkNPages) (some anon) := by
  have hchunk := hi.store_chunk (v := anon) hc hc.1
  refine chunk_ext (List.ext_getElem? fun k => ?_)
  show _ = ((s.anons _).anon.set _ (some anon))[k]?
  by_cases hk : k < kAMapChunkNPages
  · rw [getElem?_anons _ _ hk, hchunk, List.getElem?_set, getElem?_anons s _ hk, Chunk.length_eq]
    by_cases heq : page % kAMapChunkNPages = k
    · rw [if_pos heq, if_pos (mod_lt_pages page), ← heq]
      exact congrArg _ ((congrArg anonOf (Function.update_self _ _ _)).trans (if_neg hanon))
    · rw [if_neg heq]
      have hne : s.chunk (page / kAMapChunkNPages) + 8 * k ≠ s.slot page := by
        rw [State.slot]
        omega
      exact congrArg _ (congrArg anonOf (Function.update_of_ne hne _ _))
  · have hle := Nat.le_of_not_lt hk
    rw [List.getElem?_eq_none (by rwa [Chunk.length_eq]),
      List.getElem?_eq_none (by rwa [List.length_set, Chunk.length_eq])]

/-- **A store** in memory is an assignment of the anon in the table. -/
theorem toAmap_store (hi : Inv s) (hc : s.HasChunk page) (hanon : anon ≠ 0) :
    (s.store (s.slot page) anon).toAmap = s.toAmap.setAnon page anon := by
  refine List.ext_getElem? fun i => ?_
  rw [getElem?_toAmap, Vm.Amap.setAnon, List.getElem?_modify, getElem?_toAmap]
  have hcount : (s.store (s.slot page) anon).curnchunk = s.curnchunk := rfl
  rw [hcount]
  by_cases hin : i < s.curnchunk
  · rw [if_pos hin, if_pos hin, Option.map_eq_map, Option.map_some]
    by_cases heq : page / kAMapChunkNPages = i
    · subst heq
      rw [if_pos rfl, State.entry, hi.store_chunk hc hin, if_neg hc.2, hi.store_anons hc hanon, State.entry,
        if_neg hc.2]
      rfl
    · rw [if_neg heq, hi.store_entry hc hin (Ne.symm heq)]
  · rw [if_neg hin, if_neg hin]
    rfl

/-- **In every run**, the table has the anons that have been stored. -/
theorem anonAt_reachable {h : LiveMemory} {r : Run} (hw : h.WellFormed) (hreach : machine.Reachable (empty h) r)
    (page : ℕ) : r.state.toAmap.anonAt page = anonOf (r.stored page) := by
  rw [anonAt_toAmap, (RunInv.reachable hw hreach).content page]

end Scalux.AmapMemory
