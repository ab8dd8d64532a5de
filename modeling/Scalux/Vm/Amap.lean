import Scalux.Lib.Extend
import Scalux.Vm.Map

/-! # Chunks of an amap

`amap_anon_at` (`vm/vm.c`) keeps the anons of an object in a table of chunks, each of 32 slots, that
grows up to the chunk that is asked for; a chunk is allocated when a slot in it is.  The functions of
`Scalux.Vm.Map` have a single list of slots instead.

* **`flat_amapAnonAt`**, **`getElem?_flat`**, **`flat_setAnon`**: the slots of the chunks, one after the
  other, are that list. -/

namespace Scalux.Vm

/-- `vm_amap_chunk_t`. -/
structure Chunk where
  anon : List (Option AnonId)
  length_eq : anon.length = kAMapChunkNPages

/-- A chunk from `kmem_zalloc`. -/
def Chunk.zero : Chunk := ⟨List.replicate kAMapChunkNPages none, List.length_replicate⟩

/-- Assigning a slot of a chunk. -/
def Chunk.set (c : Chunk) (i : ℕ) (a : Option AnonId) : Chunk :=
  ⟨c.anon.set i a, List.length_set.trans c.length_eq⟩

/-- `vm_amap_t`: the table of its `curnchunk` chunks. -/
abbrev Amap := List (Option Chunk)

namespace Amap

/-- The table of at least `n` chunks. -/
def grow (amap : Amap) (n : ℕ) : Amap := amap ++ List.replicate (n - amap.length) none

/-- `amap_anon_at`: the table, with a chunk for the slot of the page.  The table has to fit into the
kernel heap. -/
def amapAnonAt (amap : Amap) (page : ℕ) : Option Amap :=
  let minnchunk := page / kAMapChunkNPages + 1
  let chunk := page / kAMapChunkNPages
  if minnchunk * 8 ≤ kheapSize then
    let amap := amap.grow minnchunk
    match amap[chunk]? with
    | some none => some (amap.set chunk (some Chunk.zero))
    | _ => some amap
  else none

/-- The anon at the pointer that `amap_anon_at` returns. -/
def anonAt (amap : Amap) (page : ℕ) : Option AnonId := do
  let chunk ← (amap[page / kAMapChunkNPages]?).join
  (chunk.anon[page % kAMapChunkNPages]?).join

/-- The assignment of an anon at the pointer that `amap_anon_at` returns. -/
def setAnon (amap : Amap) (page : ℕ) (a : AnonId) : Amap :=
  amap.modify (page / kAMapChunkNPages) fun chunk =>
    chunk.map fun c => c.set (page % kAMapChunkNPages) (some a)

/-- The slots of a chunk; those of an absent chunk are empty. -/
def slotsOf (chunk : Option Chunk) : List (Option AnonId) := (chunk.getD Chunk.zero).anon

/-- The slots of the chunks, one after the other. -/
def flat (amap : Amap) : List (Option AnonId) := amap.flatMap slotsOf

end Amap

/-! ## The slots -/

namespace Amap

variable {amap amap' : Amap} {page : ℕ}

/-- A chunk has `kAMapChunkNPages` slots, also where it is missing. -/
theorem length_slotsOf (chunk : Option Chunk) : (slotsOf chunk).length = kAMapChunkNPages :=
  (chunk.getD Chunk.zero).length_eq

/-- The pages of all chunks. -/
theorem length_flat (amap : Amap) : amap.flat.length = amap.length * kAMapChunkNPages :=
  length_flatMap_block length_slotsOf amap

/-- A page is found in the chunk of its quotient, at its remainder. -/
theorem getElem?_flat_eq (amap : Amap) (i : ℕ) : amap.flat[i]?
    = (amap[i / kAMapChunkNPages]?).bind fun c => (slotsOf c)[i % kAMapChunkNPages]? :=
  getElem?_flatMap_block length_slotsOf (by decide) amap i

/-- A slot is where the list has it. -/
theorem getElem?_flat (amap : Amap) (page : ℕ) : (amap.flat[page]?).join = amap.anonAt page := by
  rw [getElem?_flat_eq, anonAt]
  cases hchunk : amap[page / kAMapChunkNPages]? with
  | none => rfl
  | some chunk =>
      cases chunk with
      | none =>
          have hlt : page % kAMapChunkNPages < kAMapChunkNPages := Nat.mod_lt _ (by decide)
          simp [slotsOf, Chunk.zero, hlt]
      | some c => rfl

/-- The table grows as the list does. -/
theorem flat_grow (amap : Amap) (n : ℕ) : (amap.grow n).flat
    = amap.flat ++ List.replicate (n * kAMapChunkNPages - amap.flat.length) none := by
  have hreplicate : ∀ k, (List.replicate k (none : Option Chunk)).flatMap slotsOf
      = List.replicate (k * kAMapChunkNPages) none := by
    intro k
    induction k with
    | zero => simp
    | succ k ih =>
        rw [List.replicate_succ, List.flatMap_cons, ih, slotsOf, Option.getD_none, Chunk.zero,
          List.replicate_append_replicate, Nat.succ_mul, Nat.add_comm]
  rw [grow, flat, List.flatMap_append, hreplicate, ← flat, length_flat, Nat.sub_mul]

/-- **`amap_anon_at`** on the chunks is `amap_anon_at` on the list. -/
theorem flat_amapAnonAt (amap : Amap) (page : ℕ) :
    (amap.amapAnonAt page).map flat = Vm.amapAnonAt amap.flat page := by
  unfold amapAnonAt Vm.amapAnonAt
  dsimp only
  split
  · rw [← flat_grow]
    split
    · rename_i hchunk
      -- an absent chunk and a chunk of zeros have the same slots
      rw [Option.map_some]
      congr 1
      refine List.ext_getElem? fun i => ?_
      rw [getElem?_flat_eq, getElem?_flat_eq, List.getElem?_set]
      split
      · rename_i heq
        rw [← heq, hchunk]
        split
        · rfl
        · exact absurd (List.getElem?_eq_some_iff.mp hchunk).1 ‹_›
      · rfl
    · rfl
  · rfl

/-- **Assigning an anon** in a chunk that is there. -/
theorem flat_setAnon {a : AnonId} (h : ∃ c, amap[page / kAMapChunkNPages]? = some (some c)) :
    (amap.setAnon page a).flat = amap.flat.set page (some a) := by
  obtain ⟨c, hc⟩ := h
  have hlt : page % kAMapChunkNPages < c.anon.length := by
    rw [c.length_eq]
    exact Nat.mod_lt _ (by decide)
  refine List.ext_getElem? fun i => ?_
  rw [getElem?_flat_eq, setAnon, List.getElem?_modify]
  -- another chunk is untouched; within the chunk another page differs in the remainder
  by_cases hi : page / kAMapChunkNPages = i / kAMapChunkNPages
  · simp only [if_pos hi]
    rw [← hi, hc]
    show ((c.anon.set (page % kAMapChunkNPages) (some a))[i % kAMapChunkNPages]?) = _
    by_cases hpage : page = i
    · subst hpage
      have hin : page < amap.flat.length := by
        have hin := (List.getElem?_eq_some_iff.mp hc).1
        rw [length_flat]
        exact (Nat.div_lt_iff_lt_mul (by decide)).mp hin
      rw [List.getElem?_set_self hlt, List.getElem?_set_self hin]
    · have hmod : page % kAMapChunkNPages ≠ i % kAMapChunkNPages := by
        intro hmod
        apply hpage
        rw [← Nat.div_add_mod page kAMapChunkNPages, hi, hmod, Nat.div_add_mod]
      rw [List.getElem?_set_ne hmod, List.getElem?_set_ne hpage, getElem?_flat_eq, ← hi, hc]
      rfl
  · have hpage : page ≠ i := fun heq => hi (congrArg (· / kAMapChunkNPages) heq)
    simp only [if_neg hi]
    rw [List.getElem?_set_ne hpage, getElem?_flat_eq]
    exact congrArg (Option.bind · _) Option.map_id'

end Amap

end Scalux.Vm
