import Scalux.Lib.Partial
import Scalux.Lib.Live
import Scalux.Lib.Run
import Scalux.Vm.Amap

/-! # The memory of an amap

`amap_anon_at` of `vm/vm.c`, with `kmem_realloc` and `kmem_zalloc` of `kern/kmem_slab.c`: an amap is an array of
pointers to chunks of 32 slots.  The array is moved when it grows, a chunk is allocated when a slot in it is
asked for, and the callers keep the pointers to slots that they are given.

* Memory is a function from the addresses of words to words.  `kmem_alloc` answers with any block that is apart
  from the live ones, whatever is in it.
* A run is a sequence of calls, for any pages, and of stores through any slots that have been returned; it
  keeps the anon that was stored last for each page.

* **`grow_spec`**, **`addChunk_spec`**: what becomes of the chunks.
* **`Extends.content_eq`**: neither changes the content of a page.
* **`amap_sparse_array`**: in every run, a slot has what was stored last for its page, or `NULL`. -/

namespace Scalux.AmapMemory

open LiveMemory
open Vm (kAMapChunkNPages)

/-- An answer of `kmem_alloc`: the block's address, and what is in memory outside of the live blocks then. -/
structure Answer where
  addr : ℕ
  junk : ℕ → ℕ

/-- Why a call does not return. -/
inductive Stop
  /-- The answer is not one of `kmem_alloc`. -/
  | refused
  /-- A failed assertion. -/
  | assertion
  deriving DecidableEq

/-- `sizeof(vm_amap_chunk_t)`. -/
def sizeofChunk : ℕ := 256

/-! ## The heap -/

/-- `kmem_alloc`. -/
def kmemAlloc (a : Answer) (size : ℕ) (h : LiveMemory) : Except Stop (ℕ × LiveMemory) :=
  if 0 < size then
    if h.Available (a.addr, size) then .ok (a.addr, h.take (a.addr, size) a.junk) else .error .refused
  else .error .assertion

/-- `memcpy`. -/
def memcpy (mem : ℕ → ℕ) (dst src n : ℕ) : ℕ → ℕ := fun a =>
  if dst ≤ a ∧ a < dst + n then mem (src + (a - dst)) else mem a

/-- `memset` to zero. -/
def memzero (mem : ℕ → ℕ) (dst n : ℕ) : ℕ → ℕ := fun a => if dst ≤ a ∧ a < dst + n then 0 else mem a

/-- `kmem_realloc`. -/
def kmemRealloc (a : Answer) (ptr oldSize size : ℕ) (h : LiveMemory) : Except Stop (ℕ × LiveMemory) :=
  (kmemAlloc a size h).bind fun x =>
    if ptr ≠ 0 then
      if 0 < oldSize ∧ oldSize < size then
        .ok (x.1, ({ x.2 with mem := memcpy x.2.mem x.1 ptr oldSize } : LiveMemory).give (ptr, oldSize))
      else .error .assertion
    else .ok x

/-- `kmem_zalloc`. -/
def kmemZalloc (a : Answer) (size : ℕ) (h : LiveMemory) : Except Stop (ℕ × LiveMemory) :=
  (kmemAlloc a size h).map fun x => (x.1, { x.2 with mem := memzero x.2.mem x.1 size })

/-! ## The amap -/

/-- The heap, and the fields of a `vm_amap_t`. -/
structure State where
  heap : LiveMemory
  chunks : ℕ
  curnchunk : ℕ

/-- `amap->chunks[i]`. -/
def State.chunk (s : State) (i : ℕ) : ℕ := s.heap.mem (s.chunks + 8 * i)

/-- The loop that clears the entries of the array from `lo` on. -/
def clear (mem : ℕ → ℕ) (chunks lo hi : ℕ) : ℕ → ℕ :=
  (List.range' lo (hi - lo)).foldl (fun mem i => Function.update mem (chunks + 8 * i) 0) mem

/-- The size of an array of chunks. -/
def arraySize (n : ℕ) : ℕ := n * 8 % 2 ^ 64

/-- The state with a new array, whose further entries are cleared. -/
def State.withArray (s : State) (h : LiveMemory) (chunks minnchunk : ℕ) : State where
  heap := { h with mem := clear h.mem chunks s.curnchunk minnchunk }
  chunks := chunks
  curnchunk := minnchunk

/-- The state with a new chunk, whose address is assigned to an entry. -/
def State.withChunk (s : State) (h : LiveMemory) (i chunk : ℕ) : State :=
  { s with heap := { h with mem := Function.update h.mem (s.chunks + 8 * i) chunk } }

/-- `amap_anon_at`, as far as it grows the array. -/
def grow (a : Answer) (s : State) (minnchunk : ℕ) : Except Stop State :=
  if s.curnchunk < minnchunk then
    (kmemRealloc a s.chunks (arraySize s.curnchunk) (arraySize minnchunk) s.heap).map fun x =>
      s.withArray x.2 x.1 minnchunk
  else .ok s

/-- `amap_anon_at`, as far as it allocates a chunk. -/
def addChunk (a : Answer) (s : State) (i : ℕ) : Except Stop State :=
  if s.chunk i = 0 then
    (kmemZalloc a sizeofChunk s.heap).map fun x => s.withChunk x.2 i x.1
  else .ok s

/-- `&amap->chunks[chunk]->anon[page % kAMapChunkNPages]`. -/
def State.slot (s : State) (page : ℕ) : ℕ :=
  s.chunk (page / kAMapChunkNPages) + 8 * (page % kAMapChunkNPages)

/-- `amap_anon_at`: the slot, and the state after. -/
def amapAnonAt (a₁ a₂ : Answer) (s : State) (page : ℕ) : Except Stop (ℕ × State) :=
  (grow a₁ s (page / kAMapChunkNPages + 1)).bind fun s =>
    (addChunk a₂ s (page / kAMapChunkNPages)).map fun s => (s.slot page, s)

/-- The state after a store through a slot. -/
def State.store (s : State) (slot anon : ℕ) : State :=
  { s with heap := { s.heap with mem := Function.update s.heap.mem slot anon } }

/-- A page whose chunk is there. -/
def State.HasChunk (s : State) (page : ℕ) : Prop :=
  page / kAMapChunkNPages < s.curnchunk ∧ s.chunk (page / kAMapChunkNPages) ≠ 0

instance (s : State) (page : ℕ) : Decidable (s.HasChunk page) := inferInstanceAs (Decidable (_ ∧ _))

/-- The anon of a page. -/
def State.content (s : State) (page : ℕ) : ℕ := if s.HasChunk page then s.heap.mem (s.slot page) else 0

/-! ## Runs -/

/-- A state in a run, with the slots that have been returned, and the anon stored last for each page. -/
structure Run where
  state : State
  returned : List (ℕ × ℕ)
  stored : ℕ → ℕ

/-- What a caller does. -/
inductive Action
  /-- `amap_anon_at`, with the answers of `kmem_alloc`. -/
  | anonAt (page : ℕ) (a₁ a₂ : Answer)
  /-- A store through a slot that has been returned for a page. -/
  | store (page slot anon : ℕ)

/-- One step of a run. -/
def step (r : Run) : Action → Option Run
  | .anonAt page a₁ a₂ =>
      if page / kAMapChunkNPages + 1 < 2 ^ 31 then
        (amapAnonAt a₁ a₂ r.state page).toOption.map fun x =>
          { r with state := x.2, returned := (page, x.1) :: r.returned }
      else none
  | .store page slot anon =>
      if (page, slot) ∈ r.returned then
        some { r with state := r.state.store slot anon, stored := Function.update r.stored page anon }
      else none

/-- The calls and the stores of the callers. -/
def machine : Machine Run Action := ⟨step⟩

/-- An amap without chunks, as `vm_aobj_new` makes it. -/
def empty (heap : LiveMemory) : Run := ⟨⟨heap, 0, 0⟩, [], fun _ => 0⟩

/-- The array and the chunks are live blocks of their own. -/
structure Inv (s : State) : Prop where
  heap : s.heap.WellFormed
  count_lt : s.curnchunk < 2 ^ 31
  null_iff : s.chunks = 0 ↔ s.curnchunk = 0
  array : s.curnchunk ≠ 0 → (s.chunks, s.curnchunk * 8) ∈ s.heap.live
  chunk : ∀ i < s.curnchunk, s.chunk i ≠ 0 → (s.chunk i, sizeofChunk) ∈ s.heap.live ∧ s.chunk i ≠ s.chunks
  distinct : ∀ i < s.curnchunk, ∀ j < s.curnchunk, s.chunk i ≠ 0 → s.chunk i = s.chunk j → i = j

/-- What a call leaves: the chunks that were there, and what is in them, and zeroes in others. -/
structure Extends (s s' : State) : Prop where
  count_le : s.curnchunk ≤ s'.curnchunk
  chunk_eq : ∀ i < s.curnchunk, s.chunk i ≠ 0 → s'.chunk i = s.chunk i
  mem_eq : ∀ i < s.curnchunk, s.chunk i ≠ 0 → ∀ k < kAMapChunkNPages,
    s'.heap.mem (s.chunk i + 8 * k) = s.heap.mem (s.chunk i + 8 * k)
  fresh : ∀ i < s'.curnchunk, (i < s.curnchunk → s.chunk i = 0) → s'.chunk i ≠ 0 →
    ∀ k < kAMapChunkNPages, s'.heap.mem (s'.chunk i + 8 * k) = 0

variable {s s' s'' : State} {r r' : Run} {a a₁ a₂ : Answer} {h h' : LiveMemory} {page slot n i k p : ℕ}

/-! ## Allocation -/

/-- A block that is returned was available, and is in use afterwards. -/
theorem kmemAlloc_ok {size : ℕ} {x : ℕ × LiveMemory} (hok : kmemAlloc a size h = .ok x) :
    0 < size ∧ h.Available (a.addr, size) ∧ x = (a.addr, h.take (a.addr, size) a.junk) := by
  unfold kmemAlloc at hok
  split at hok
  · split at hok
    · exact ⟨‹_›, ‹_›, (Except.ok.inj hok).symm⟩
    · exact nomatch hok
  · exact nomatch hok

/-- A block that is allocated for some words is not where another one is. -/
theorem ne_of_apart_blocks {b c : ℕ × ℕ} (hapart : Apart b c) (hb : 0 < b.2) (hc : 0 < c.2) : b.1 ≠ c.1 := by
  unfold Apart at hapart
  omega

/-- What an allocation leaves alone. -/
structure Allocates (h h' : LiveMemory) (p size : ℕ) : Prop where
  wellFormed : h'.WellFormed
  ne_zero : p ≠ 0
  mem_live : (p, size) ∈ h'.live
  apart : ∀ b ∈ h.live, Apart (p, size) b
  kept : ∀ b ∈ h.live, ∀ c, Has b c → h'.mem c = h.mem c

/-- **`kmem_realloc`**: the other blocks stay, and the old contents are in the new block. -/
theorem kmemRealloc_spec {ptr oldSize size : ℕ} (hw : h.WellFormed) (hptr : ptr ≠ 0 → (ptr, oldSize) ∈ h.live)
    (hok : kmemRealloc a ptr oldSize size h = .ok (p, h')) :
    Allocates h h' p size ∧ (∀ b ∈ h.live, b.1 ≠ ptr → b ∈ h'.live) ∧
      (ptr ≠ 0 → ∀ j < oldSize, h'.mem (p + j) = h.mem (ptr + j)) := by
  obtain ⟨x, halloc, hok⟩ := bind_eq_ok.mp hok
  obtain ⟨hsize, havail, rfl⟩ := kmemAlloc_ok halloc
  have hapart := havail.2.2.2
  -- the new block is apart from the live ones, so its junk is in none of them
  have hkept : ∀ b ∈ h.live, ∀ c, Has b c → (h.take (a.addr, size) a.junk).mem c = h.mem c :=
    fun b hb c hc => take_mem ⟨b, hb, hc⟩
  split at hok
  · rename_i hne
    split at hok
    · rename_i hlt
      obtain ⟨rfl, rfl⟩ := Prod.mk.inj (Except.ok.inj hok)
      have hold := hptr hne
      have htake : WellFormed { h.take (a.addr, size) a.junk with
          mem := memcpy (h.take (a.addr, size) a.junk).mem a.addr ptr oldSize } := by
        obtain ⟨h₁, h₂, h₃⟩ : (h.take (a.addr, size) a.junk).WellFormed := hw.take havail
        exact ⟨h₁, h₂, h₃⟩
      refine ⟨⟨htake.give, havail.1, ?_, hapart, fun b hb c hc => ?_⟩, fun b hb hbne => ?_, fun _ j hj => ?_⟩
      · exact mem_give List.mem_cons_self fun heq => by
          have := congrArg Prod.snd heq
          dsimp only at this
          omega
      · -- what is copied goes to the new block
        have hout : ¬ (a.addr ≤ c ∧ c < a.addr + oldSize) := fun hin =>
          (hapart b hb).symm.not_has hc ⟨hin.1, by dsimp only; omega⟩
        show memcpy _ _ _ _ c = _
        rw [memcpy, if_neg hout, hkept b hb c hc]
      · exact mem_give (List.mem_cons_of_mem _ hb) fun heq => hbne (congrArg Prod.fst heq)
      · show memcpy _ _ _ _ (a.addr + j) = _
        rw [memcpy, if_pos ⟨Nat.le_add_right _ _, by omega⟩, Nat.add_sub_cancel_left]
        exact hkept _ hold _ ⟨Nat.le_add_right _ _, by dsimp only; omega⟩
    · exact nomatch hok
  · rename_i hne
    obtain ⟨rfl, rfl⟩ := Prod.mk.inj (Except.ok.inj hok)
    -- a null pointer: nothing to be copied
    exact ⟨⟨hw.take havail, havail.1, List.mem_cons_self, hapart, hkept⟩,
      fun b hb _ => List.mem_cons_of_mem _ hb, fun h => absurd h hne⟩

/-- **`kmem_zalloc`**: the other blocks stay, and the new one is zero. -/
theorem kmemZalloc_spec {size : ℕ} (hw : h.WellFormed) (hok : kmemZalloc a size h = .ok (p, h')) :
    Allocates h h' p size ∧ (∀ b ∈ h.live, b ∈ h'.live) ∧ ∀ j < size, h'.mem (p + j) = 0 := by
  obtain ⟨x, halloc, hok⟩ := map_eq_ok.mp hok
  obtain ⟨hsize, havail, rfl⟩ := kmemAlloc_ok halloc
  obtain ⟨rfl, rfl⟩ := Prod.mk.inj hok
  have hapart := havail.2.2.2
  obtain ⟨h₁, h₂, h₃⟩ : (h.take (a.addr, size) a.junk).WellFormed := hw.take havail
  refine ⟨⟨⟨h₁, h₂, h₃⟩, havail.1, List.mem_cons_self, hapart, fun b hb c hc => ?_⟩,
    fun b hb => List.mem_cons_of_mem _ hb, fun j hj => ?_⟩
  · have hout : ¬ (a.addr ≤ c ∧ c < a.addr + size) := (hapart b hb).symm.not_has hc
    show memzero _ _ _ c = _
    rw [memzero, if_neg hout]
    exact take_mem ⟨b, hb, hc⟩
  · show memzero _ _ _ (a.addr + j) = 0
    rw [memzero, if_pos ⟨Nat.le_add_right _ _, by omega⟩]

/-! ## The array -/

/-- Words that are cleared one by one. -/
theorem foldl_update_zero (l : List ℕ) (f : ℕ → ℕ) (mem : ℕ → ℕ) (x : ℕ) :
    l.foldl (fun mem i => Function.update mem (f i) 0) mem x = if x ∈ l.map f then 0 else mem x := by
  induction l generalizing mem with
  | nil => rw [List.foldl_nil, List.map_nil, if_neg List.not_mem_nil]
  | cons i l ih =>
      rw [List.foldl_cons, ih, List.map_cons]
      by_cases hx : x = f i
      · rw [if_pos (List.mem_cons.mpr (.inl hx)), hx, Function.update_self, ite_self]
      · rw [Function.update_of_ne hx]
        exact if_congr (by rw [List.mem_cons, or_iff_right hx]) rfl rfl

/-- The entries that are cleared. -/
theorem clear_of_mem {mem : ℕ → ℕ} {lo hi : ℕ} (hlo : lo ≤ i) (hhi : i < hi) :
    clear mem p lo hi (p + 8 * i) = 0 := by
  rw [clear, foldl_update_zero, if_pos]
  exact List.mem_map.mpr ⟨i, List.mem_range'_1.mpr ⟨hlo, by omega⟩, rfl⟩

/-- The other words. -/
theorem clear_of_ne {mem : ℕ → ℕ} {lo hi x : ℕ} (hx : ∀ j, lo ≤ j → j < hi → x ≠ p + 8 * j) :
    clear mem p lo hi x = mem x := by
  rw [clear, foldl_update_zero, if_neg]
  intro hmem
  obtain ⟨j, hj, heq⟩ := List.mem_map.mp hmem
  have hrange := List.mem_range'_1.mp hj
  exact hx j hrange.1 (by omega) heq.symm

/-- A chunk has bytes. -/
theorem sizeofChunk_pos : 0 < sizeofChunk := by decide

/-- The size of the array of `n` pointers does not wrap: `n * 8`. -/
theorem arraySize_eq (hn : n < 2 ^ 31) : arraySize n = n * 8 := Nat.mod_eq_of_lt (by omega)

/-- An entry is in the array. -/
theorem has_entry (hi : i < n) : Has (p, n * 8) (p + 8 * i) := ⟨Nat.le_add_right _ _, by dsimp only; omega⟩

/-- A slot is in its chunk. -/
theorem has_slot (hk : k < kAMapChunkNPages) : Has (p, sizeofChunk) (p + 8 * k) := by
  have hsize : sizeofChunk = 256 := rfl
  have hpages : kAMapChunkNPages = 32 := rfl
  exact ⟨Nat.le_add_right _ _, by dsimp only; omega⟩

/-- What is cleared are the entries behind those that were there. -/
theorem withArray_chunk_of_ge (hlo : s.curnchunk ≤ i) (hhi : i < n) : (s.withArray h p n).chunk i = 0 :=
  clear_of_mem hlo hhi

/-- A pointer below the old length is read from the new array. -/
theorem withArray_chunk_of_lt (hlt : i < s.curnchunk) : (s.withArray h p n).chunk i = h.mem (p + 8 * i) := by
  have hne : ∀ j, s.curnchunk ≤ j → j < n → p + 8 * i ≠ p + 8 * j := fun j hj _ => by omega
  exact clear_of_ne hne

/-- **A new array** keeps the chunks. -/
theorem withArray_spec (hi : Inv s) (hn : n < 2 ^ 31) (hlt : s.curnchunk < n)
    (hnew : Allocates s.heap h p (n * 8)) (hlive : ∀ b ∈ s.heap.live, b.1 ≠ s.chunks → b ∈ h.live)
    (hcopy : s.chunks ≠ 0 → ∀ j < s.curnchunk * 8, h.mem (p + j) = s.heap.mem (s.chunks + j)) :
    Inv (s.withArray h p n) ∧ Extends s (s.withArray h p n) ∧
      ∀ i < s.curnchunk, (s.withArray h p n).chunk i = s.chunk i := by
  -- what was in the array has been copied, and is not among what is cleared
  have hchunk : ∀ i < s.curnchunk, (s.withArray h p n).chunk i = s.chunk i := fun i hin => by
    have hne : s.chunks ≠ 0 := mt hi.null_iff.mp (by omega)
    rw [withArray_chunk_of_lt hin, hcopy hne (8 * i) (by omega)]
    rfl
  have hold : ∀ i < n, (s.withArray h p n).chunk i ≠ 0 → i < s.curnchunk := fun i hin hne => by
    by_contra hge
    exact hne (withArray_chunk_of_ge (Nat.le_of_not_lt hge) hin)
  have hkept : ∀ b ∈ s.heap.live, ∀ c, Has b c → (s.withArray h p n).heap.mem c = s.heap.mem c :=
    fun b hb c hc => (clear_of_ne fun j _ hj => (hnew.apart b hb).symm.ne hc (has_entry hj)).trans
      (hnew.kept b hb c hc)
  refine ⟨?_, ?_, hchunk⟩
  · refine ⟨?_, hn, ?_, fun _ => hnew.mem_live, fun i hin hne => ?_, fun i hin j hjn hne heq => ?_⟩
    · exact ⟨hnew.wellFormed.apart, hnew.wellFormed.ne_zero, hnew.wellFormed.aligned⟩
    · exact iff_of_false hnew.ne_zero (Nat.ne_zero_of_lt hlt)
    · have hin' := hold i hin hne
      rw [hchunk i hin'] at hne ⊢
      obtain ⟨hmem, hother⟩ := hi.chunk i hin' hne
      refine ⟨hlive _ hmem hother, ?_⟩
      exact (ne_of_apart_blocks (hnew.apart _ hmem) (by dsimp only; omega) sizeofChunk_pos).symm
    · have hin' := hold i hin hne
      have hjn' := hold j hjn (heq ▸ hne)
      rw [hchunk i hin'] at hne heq
      rw [hchunk j hjn'] at heq
      exact hi.distinct i hin' j hjn' hne heq
  · refine ⟨Nat.le_of_lt hlt, fun i hin _ => hchunk i hin, fun i hin hne k hk => ?_,
      fun i hin hfresh hne => ?_⟩
    · exact hkept _ (hi.chunk i hin hne).1 _ (has_slot hk)
    · have hin' := hold i hin hne
      rw [hchunk i hin', hfresh hin'] at hne
      exact absurd rfl hne

/-- The pointer just written. -/
theorem withChunk_chunk_self : (s.withChunk h i p).chunk i = p := Function.update_self _ _ _

/-- Another pointer is read as before. -/
theorem withChunk_chunk_of_ne (hne : i ≠ n) : (s.withChunk h n p).chunk i = h.mem (s.chunks + 8 * i) := by
  have haddr : s.chunks + 8 * i ≠ s.chunks + 8 * n := by omega
  exact Function.update_of_ne haddr _ _

/-- **A new chunk** keeps the others. -/
theorem withChunk_spec (hi : Inv s) (hn : n < s.curnchunk) (hnull : s.chunk n = 0)
    (hnew : Allocates s.heap h p sizeofChunk) (hlive : ∀ b ∈ s.heap.live, b ∈ h.live)
    (hzero : ∀ j < sizeofChunk, h.mem (p + j) = 0) :
    Inv (s.withChunk h n p) ∧ Extends s (s.withChunk h n p) ∧
      ∀ i < s.curnchunk, i ≠ n → (s.withChunk h n p).chunk i = s.chunk i := by
  have harray := hi.array (Nat.ne_zero_of_lt hn)
  have hchunk : ∀ i < s.curnchunk, i ≠ n → (s.withChunk h n p).chunk i = s.chunk i := fun i hin hne =>
    (withChunk_chunk_of_ne hne).trans (hnew.kept _ harray _ (has_entry hin))
  -- only an entry of the array is assigned
  have hkept : ∀ b, Apart b (s.chunks, s.curnchunk * 8) → ∀ c, Has b c →
      (s.withChunk h n p).heap.mem c = h.mem c := fun b hb c hc =>
    Function.update_of_ne (hb.ne hc (has_entry hn)) _ _
  have hother : ∀ i < s.curnchunk, s.chunk i ≠ 0 → p ≠ s.chunk i := fun i hin hne =>
    ne_of_apart_blocks (hnew.apart _ (hi.chunk i hin hne).1) sizeofChunk_pos sizeofChunk_pos
  refine ⟨?_, ?_, hchunk⟩
  · refine ⟨?_, hi.count_lt, hi.null_iff, fun _ => hlive _ harray, fun i hin hne => ?_,
      fun i hin j hjn hne heq => ?_⟩
    · exact ⟨hnew.wellFormed.apart, hnew.wellFormed.ne_zero, hnew.wellFormed.aligned⟩
    · by_cases hin' : i = n
      · rw [hin', withChunk_chunk_self]
        exact ⟨hnew.mem_live, ne_of_apart_blocks (hnew.apart _ harray) sizeofChunk_pos (by dsimp only; omega)⟩
      · rw [hchunk i hin hin'] at hne ⊢
        obtain ⟨hmem, hne'⟩ := hi.chunk i hin hne
        exact ⟨hlive _ hmem, hne'⟩
    · -- no other chunk is at the address of the new one
      by_cases hi' : i = n <;> by_cases hj' : j = n
      · rw [hi', hj']
      · rw [hi', withChunk_chunk_self] at heq hne
        rw [hchunk j hjn hj'] at heq
        exact absurd heq (hother j hjn (heq ▸ hne))
      · rw [hj', withChunk_chunk_self, hchunk i hin hi'] at heq
        rw [hchunk i hin hi'] at hne
        exact absurd heq.symm (hother i hin hne)
      · rw [hchunk i hin hi'] at heq hne
        rw [hchunk j hjn hj'] at heq
        exact hi.distinct i hin j hjn hne heq
  · refine ⟨Nat.le_refl _, fun i hin hne => ?_, fun i hin hne k hk => ?_, fun i hin hfresh hne k hk => ?_⟩
    · exact hchunk i hin fun heq => hne (heq ▸ hnull)
    · obtain ⟨hmem, hne'⟩ := hi.chunk i hin hne
      have hapart := hi.heap.apart_of_ne hmem harray hne'
      exact (hkept _ hapart _ (has_slot hk)).trans (hnew.kept _ hmem _ (has_slot hk))
    · by_cases hin' : i = n
      · rw [hin', withChunk_chunk_self]
        have hslot := has_slot (p := p) hk
        refine (hkept _ (hnew.apart _ harray) _ hslot).trans (hzero (8 * k) ?_)
        have hlt := hslot.2
        dsimp only at hlt
        omega
      · rw [hchunk i hin hin', hfresh hin] at hne
        exact absurd rfl hne

/-! ## What stays -/

/-- A state extends itself. -/
theorem Extends.refl (s : State) : Extends s s :=
  ⟨Nat.le_refl _, fun _ _ _ => rfl, fun _ _ _ _ _ => rfl, fun _ hin hfresh hne => absurd (hfresh hin) hne⟩

/-- Extending twice. -/
theorem Extends.trans (h : Extends s s') (h' : Extends s' s'') : Extends s s'' := by
  have hlt : ∀ i < s.curnchunk, i < s'.curnchunk := fun i hin => Nat.lt_of_lt_of_le hin h.count_le
  have hne' : ∀ i < s.curnchunk, s.chunk i ≠ 0 → s'.chunk i ≠ 0 := fun i hin hne =>
    (h.chunk_eq i hin hne).symm ▸ hne
  refine ⟨Nat.le_trans h.count_le h'.count_le, fun i hin hne => ?_, fun i hin hne k hk => ?_,
    fun i hin hfresh hne k hk => ?_⟩
  · rw [h'.chunk_eq i (hlt i hin) (hne' i hin hne), h.chunk_eq i hin hne]
  · have hmem := h'.mem_eq i (hlt i hin) (hne' i hin hne) k hk
    rw [h.chunk_eq i hin hne] at hmem
    rw [hmem, h.mem_eq i hin hne k hk]
  · by_cases hold : i < s'.curnchunk ∧ s'.chunk i ≠ 0
    · -- the chunk is from the first part
      obtain ⟨hin', hne'⟩ := hold
      rw [h'.chunk_eq i hin' hne', h'.mem_eq i hin' hne' k hk]
      exact h.fresh i hin' hfresh hne' k hk
    · exact h'.fresh i hin (fun hin' => not_not.mp fun hne' => hold ⟨hin', hne'⟩) hne k hk

/-- The index of a page in its chunk is below the pages of a chunk. -/
theorem mod_lt_pages (page : ℕ) : page % kAMapChunkNPages < kAMapChunkNPages := Nat.mod_lt _ (by decide)

/-- A slot stays where it is. -/
theorem Extends.slot_eq (h : Extends s s') (hc : s.HasChunk page) : s'.HasChunk page ∧ s'.slot page = s.slot page := by
  have hchunk := h.chunk_eq _ hc.1 hc.2
  refine ⟨⟨Nat.lt_of_lt_of_le hc.1 h.count_le, ?_⟩, ?_⟩
  · rw [hchunk]
    exact hc.2
  · rw [State.slot, State.slot, hchunk]

/-- **The content of every page stays.** -/
theorem Extends.content_eq (h : Extends s s') (page : ℕ) : s'.content page = s.content page := by
  by_cases hc : s.HasChunk page
  · obtain ⟨hc', hslot⟩ := h.slot_eq hc
    rw [State.content, State.content, if_pos hc, if_pos hc', hslot]
    exact h.mem_eq _ hc.1 hc.2 _ (mod_lt_pages page)
  · rw [State.content, State.content, if_neg hc]
    split
    · -- the chunk is a new one
      rename_i hc'
      refine h.fresh _ hc'.1 (fun hin => ?_) hc'.2 _ (mod_lt_pages page)
      exact not_not.mp fun hne => hc ⟨hin, hne⟩
    · rfl

/-! ## The call -/

/-- Growing the array: the further chunks are not there. -/
theorem grow_spec (hi : Inv s) (hn : n < 2 ^ 31) (hok : grow a s n = .ok s') :
    Inv s' ∧ Extends s s' ∧ s'.curnchunk = max s.curnchunk n ∧
      ∀ i < s'.curnchunk, s'.chunk i = if i < s.curnchunk then s.chunk i else 0 := by
  unfold grow at hok
  split at hok
  · rename_i hlt
    rw [arraySize_eq hi.count_lt, arraySize_eq hn] at hok
    obtain ⟨⟨p, h'⟩, hrealloc, rfl⟩ := map_eq_ok.mp hok
    have harray : s.chunks ≠ 0 → (s.chunks, s.curnchunk * 8) ∈ s.heap.live := fun hne =>
      hi.array (mt hi.null_iff.mpr hne)
    obtain ⟨hnew, hlive, hcopy⟩ := kmemRealloc_spec hi.heap harray hrealloc
    obtain ⟨hi', hext, hchunk⟩ := withArray_spec hi hn hlt hnew hlive hcopy
    refine ⟨hi', hext, (Nat.max_eq_right (Nat.le_of_lt hlt)).symm, fun i hin => ?_⟩
    split
    · exact hchunk i ‹_›
    · exact withArray_chunk_of_ge (Nat.le_of_not_lt ‹_›) hin
  · rename_i hge
    obtain rfl := Except.ok.inj hok
    exact ⟨hi, .refl s, (Nat.max_eq_left (Nat.le_of_not_lt hge)).symm, fun i hin => (if_pos hin).symm⟩

/-- Adding a chunk. -/
theorem addChunk_spec (hi : Inv s) (hn : n < s.curnchunk) (hok : addChunk a s n = .ok s') :
    Inv s' ∧ Extends s s' ∧ s'.chunk n ≠ 0 ∧
      s'.curnchunk = s.curnchunk ∧ ∀ i < s.curnchunk, i ≠ n → s'.chunk i = s.chunk i := by
  unfold addChunk at hok
  split at hok
  · rename_i hnull
    obtain ⟨⟨p, h'⟩, hzalloc, rfl⟩ := map_eq_ok.mp hok
    obtain ⟨hnew, hlive, hzero⟩ := kmemZalloc_spec hi.heap hzalloc
    obtain ⟨hi', hext, hchunk⟩ := withChunk_spec hi hn hnull hnew hlive hzero
    exact ⟨hi', hext, by rw [withChunk_chunk_self]; exact hnew.ne_zero, rfl, hchunk⟩
  · rename_i hne
    obtain rfl := Except.ok.inj hok
    exact ⟨hi, .refl s, hne, rfl, fun _ _ _ => rfl⟩

/-- A call that returns has grown the array, and then added a chunk. -/
theorem amapAnonAt_ok (hok : amapAnonAt a₁ a₂ s page = .ok (slot, s')) :
    ∃ s₁, grow a₁ s (page / kAMapChunkNPages + 1) = .ok s₁ ∧
      addChunk a₂ s₁ (page / kAMapChunkNPages) = .ok s' ∧ slot = s'.slot page := by
  obtain ⟨s₁, hgrow, hok⟩ := bind_eq_ok.mp hok
  obtain ⟨s₂, hadd, hok⟩ := map_eq_ok.mp hok
  obtain ⟨rfl, rfl⟩ := Prod.mk.inj hok
  exact ⟨s₁, hgrow, hadd, rfl⟩

/-- **`amap_anon_at`** returns the page's slot. -/
theorem amapAnonAt_spec (hi : Inv s) (hpage : page / kAMapChunkNPages + 1 < 2 ^ 31)
    (hok : amapAnonAt a₁ a₂ s page = .ok (slot, s')) :
    Inv s' ∧ Extends s s' ∧ s'.HasChunk page ∧ slot = s'.slot page := by
  obtain ⟨s₁, hgrow, hadd, hslot⟩ := amapAnonAt_ok hok
  obtain ⟨hi₁, hext₁, hcount, -⟩ := grow_spec hi hpage hgrow
  have hlt : page / kAMapChunkNPages < s₁.curnchunk := by omega
  obtain ⟨hi₂, hext₂, hne, hcount₂, -⟩ := addChunk_spec hi₁ hlt hadd
  exact ⟨hi₂, hext₁.trans hext₂, ⟨hcount₂ ▸ hlt, hne⟩, hslot⟩

/-! ## Assertions -/

/-- Asking for bytes fails no assertion. -/
theorem kmemAlloc_ne_assertion {size : ℕ} (hsize : 0 < size) : kmemAlloc a size h ≠ .error .assertion := by
  rw [kmemAlloc, if_pos hsize]
  split <;> exact nofun

/-- **`kmem_realloc`** for a larger size. -/
theorem kmemRealloc_ne_assertion {ptr oldSize size : ℕ} (hsize : oldSize < size) (hold : ptr ≠ 0 → 0 < oldSize) :
    kmemRealloc a ptr oldSize size h ≠ .error .assertion := by
  refine bind_ne_error (kmemAlloc_ne_assertion (Nat.zero_lt_of_lt hsize)) fun x _ => ?_
  split
  · rw [if_pos ⟨hold ‹_›, hsize⟩]
    exact nofun
  · exact nofun

/-- The array only grows. -/
theorem arraySize_lt (hn : n < 2 ^ 31) (hlt : k < n) : arraySize k < arraySize n := by
  rw [arraySize_eq hn, arraySize_eq (Nat.lt_trans hlt hn)]
  omega

/-- Growing the array fails no assertion. -/
theorem grow_ne_assertion (hi : Inv s) (hn : n < 2 ^ 31) : grow a s n ≠ .error .assertion := by
  unfold grow
  split
  · rename_i hlt
    refine map_ne_error (kmemRealloc_ne_assertion (arraySize_lt hn hlt) fun hne => ?_)
    have hpos := mt hi.null_iff.mpr hne
    rw [arraySize_eq hi.count_lt]
    omega
  · exact nofun

/-- Adding a chunk fails no assertion. -/
theorem addChunk_ne_assertion : addChunk a s n ≠ .error .assertion := by
  unfold addChunk
  split
  · exact map_ne_error (map_ne_error (kmemAlloc_ne_assertion sizeofChunk_pos))
  · exact nofun

/-- **No assertion fails.** -/
theorem amapAnonAt_ne_assertion (hi : Inv s) (hpage : page / kAMapChunkNPages + 1 < 2 ^ 31) :
    amapAnonAt a₁ a₂ s page ≠ .error .assertion :=
  bind_ne_error (grow_ne_assertion hi hpage) fun _ _ => map_ne_error addChunk_ne_assertion

/-! ## Slots -/

/-- The block of a page's chunk. -/
theorem Inv.block (hi : Inv s) (hc : s.HasChunk page) :
    (s.chunk (page / kAMapChunkNPages), sizeofChunk) ∈ s.heap.live ∧
      Has (s.chunk (page / kAMapChunkNPages), sizeofChunk) (s.slot page) :=
  ⟨(hi.chunk _ hc.1 hc.2).1, has_slot (mod_lt_pages page)⟩

/-- A slot is not in another chunk. -/
theorem Inv.slot_ne (hi : Inv s) (hc : s.HasChunk page) (hin : i < s.curnchunk) (hne : s.chunk i ≠ 0)
    (hother : i ≠ page / kAMapChunkNPages) (hk : k < kAMapChunkNPages) : s.slot page ≠ s.chunk i + 8 * k := by
  have haddr : s.chunk (page / kAMapChunkNPages) ≠ s.chunk i := fun heq =>
    hother (hi.distinct _ hc.1 _ hin hc.2 heq).symm
  have hapart := hi.heap.apart_of_ne (hi.block hc).1 (hi.chunk i hin hne).1 haddr
  exact hapart.ne (hi.block hc).2 (has_slot hk)

/-- **Different pages have different slots.** -/
theorem Inv.slot_inj (hi : Inv s) {q : ℕ} (hp : s.HasChunk p) (hq : s.HasChunk q) (heq : s.slot p = s.slot q) :
    p = q := by
  -- chunks are apart, so the slots are of one chunk
  have hdiv : p / kAMapChunkNPages = q / kAMapChunkNPages := by
    by_contra hne
    exact hi.slot_ne hp hq.1 hq.2 (Ne.symm hne) (mod_lt_pages q) heq
  have hmod : p % kAMapChunkNPages = q % kAMapChunkNPages := by
    rw [State.slot, State.slot, hdiv] at heq
    omega
  rw [← Nat.div_add_mod p kAMapChunkNPages, hdiv, hmod, Nat.div_add_mod]

/-- A slot is not in the array. -/
theorem Inv.slot_ne_entry (hi : Inv s) (hc : s.HasChunk page) (hin : i < s.curnchunk) :
    s.chunks + 8 * i ≠ s.slot page := by
  have hapart := hi.heap.apart_of_ne (hi.block hc).1 (hi.array (Nat.ne_zero_of_lt hin)) (hi.chunk _ hc.1 hc.2).2
  exact (hapart.ne (hi.block hc).2 (has_entry hin)).symm

/-- **A store** through a slot keeps the chunks. -/
theorem Inv.store_chunk {v : ℕ} (hi : Inv s) (hc : s.HasChunk page) (hin : i < s.curnchunk) :
    (s.store (s.slot page) v).chunk i = s.chunk i :=
  Function.update_of_ne (hi.slot_ne_entry hc hin) _ _

/-- Storing into the slot of a page keeps the invariant. -/
theorem Inv.store {v : ℕ} (hi : Inv s) (hc : s.HasChunk page) : Inv (s.store (s.slot page) v) := by
  refine ⟨⟨hi.heap.apart, hi.heap.ne_zero, hi.heap.aligned⟩, hi.count_lt, hi.null_iff, hi.array,
    fun i hin hne => ?_, fun i hin j hjn hne heq => ?_⟩
  · rw [hi.store_chunk hc hin] at hne ⊢
    exact hi.chunk i hin hne
  · rw [hi.store_chunk hc hin] at hne heq
    rw [hi.store_chunk hc hjn] at heq
    exact hi.distinct i hin j hjn hne heq

/-- Storing into a slot moves neither chunks nor slots. -/
theorem Inv.store_slot {v : ℕ} (hi : Inv s) (hc : s.HasChunk page) {q : ℕ} (hq : s.HasChunk q) :
    (s.store (s.slot page) v).HasChunk q ∧ (s.store (s.slot page) v).slot q = s.slot q := by
  have hchunk := hi.store_chunk (v := v) hc hq.1
  refine ⟨⟨hq.1, ?_⟩, ?_⟩
  · rw [hchunk]
    exact hq.2
  · show (s.store (s.slot page) v).chunk _ + _ = _
    rw [hchunk]
    rfl

/-- **A store** changes the content of its page only. -/
theorem Inv.store_content {v : ℕ} (hi : Inv s) (hc : s.HasChunk page) (q : ℕ) :
    (s.store (s.slot page) v).content q = Function.update s.content page v q := by
  by_cases hq : s.HasChunk q
  · obtain ⟨hq', hslot⟩ := hi.store_slot (v := v) hc hq
    rw [State.content, if_pos hq', hslot]
    by_cases heq : q = page
    · rw [heq, Function.update_self]
      exact Function.update_self _ _ _
    · rw [Function.update_of_ne heq, State.content, if_pos hq]
      exact Function.update_of_ne (fun hslot' => heq (hi.slot_inj hq hc hslot')) _ _
  · have hne : q ≠ page := fun heq => hq (heq ▸ hc)
    have hq' : ¬ (s.store (s.slot page) v).HasChunk q := fun hq' =>
      hq ⟨hq'.1, by have hchunk := hq'.2; rwa [hi.store_chunk hc hq'.1] at hchunk⟩
    rw [Function.update_of_ne hne, State.content, State.content, if_neg hq, if_neg hq']

/-! ## Runs -/

/-- The slots that have been returned are those of their pages, and the contents are what has been stored. -/
structure RunInv (r : Run) : Prop where
  inv : Inv r.state
  content : ∀ p, r.state.content p = r.stored p
  returned : ∀ p t, (p, t) ∈ r.returned → r.state.HasChunk p ∧ t = r.state.slot p

/-- The invariant of a run at an empty map. -/
theorem RunInv.init (hw : h.WellFormed) : RunInv (empty h) where
  inv := ⟨hw, Nat.two_pow_pos 31, Iff.rfl, fun hne => absurd rfl hne, fun i hin => absurd hin (Nat.not_lt_zero i),
    fun i hin => absurd hin (Nat.not_lt_zero i)⟩
  content _ := if_neg fun hc => Nat.not_lt_zero _ hc.1
  returned _ _ hmem := absurd hmem List.not_mem_nil

/-- **Every step** keeps them. -/
theorem RunInv.step {b : Action} (hr : RunInv r) (hstep : step r b = some r') : RunInv r' := by
  cases b with
  | anonAt page a₁ a₂ =>
      change (if page / kAMapChunkNPages + 1 < 2 ^ 31 then _ else none) = some r' at hstep
      split at hstep
      · rename_i hpage
        cases hcall : amapAnonAt a₁ a₂ r.state page with
        | error e => rw [hcall] at hstep; exact nomatch hstep
        | ok x =>
            obtain ⟨slot, s'⟩ := x
            rw [hcall] at hstep
            obtain rfl := Option.some.inj hstep
            -- the call may grow the array and make a chunk, what the slots hold stays
            obtain ⟨hi, hext, hc, hslot⟩ := amapAnonAt_spec hr.inv hpage hcall
            refine ⟨hi, fun p => (hext.content_eq p).trans (hr.content p), fun p t hmem => ?_⟩
            rcases List.mem_cons.mp hmem with heq | hmem
            · obtain ⟨rfl, rfl⟩ := Prod.mk.inj heq
              exact ⟨hc, hslot⟩
            · -- the array may have been moved, the chunks have not
              obtain ⟨hp, hslot⟩ := hr.returned p t hmem
              obtain ⟨hp', hslot'⟩ := hext.slot_eq hp
              exact ⟨hp', hslot.trans hslot'.symm⟩
      · exact nomatch hstep
  | store page slot anon =>
      change (if (page, slot) ∈ r.returned then _ else none) = some r' at hstep
      split at hstep
      · rename_i hmem
        obtain rfl := Option.some.inj hstep
        obtain ⟨hc, rfl⟩ := hr.returned _ _ hmem
        refine ⟨hr.inv.store hc, fun p => ?_, fun p t hmem => ?_⟩
        · rw [hr.inv.store_content hc]
          exact congrFun (congrArg (Function.update · page anon) (funext hr.content)) p
        · obtain ⟨hp, hslot⟩ := hr.returned p t hmem
          obtain ⟨hp', hslot'⟩ := hr.inv.store_slot hc hp
          exact ⟨hp', hslot.trans hslot'.symm⟩
      · exact nomatch hstep

/-- The invariant of a run in every reachable state. -/
theorem RunInv.reachable (hw : h.WellFormed) (hreach : machine.Reachable (empty h) r) : RunInv r :=
  hreach.invariant (.init hw) fun _ _ _ hr _ hstep => hr.step hstep

/-- What an amap is for: slots have what has been stored for their pages, and a call changes nothing of it. -/
structure SparseArray (r : Run) : Prop where
  /-- A slot that has been returned has what was stored last for its page. -/
  slot_content : ∀ p t, (p, t) ∈ r.returned → r.state.heap.IsLive t ∧ r.state.heap.mem t = r.stored p
  slot_iff : ∀ p t q u, (p, t) ∈ r.returned → (q, u) ∈ r.returned → (t = u ↔ p = q)
  /-- The array is only reallocated with a larger size. -/
  larger : ∀ page, page / kAMapChunkNPages + 1 < 2 ^ 31 → r.state.curnchunk < page / kAMapChunkNPages + 1 →
    arraySize r.state.curnchunk < arraySize (page / kAMapChunkNPages + 1)
  no_assertion : ∀ page a₁ a₂, page / kAMapChunkNPages + 1 < 2 ^ 31 →
    amapAnonAt a₁ a₂ r.state page ≠ .error .assertion
  /-- Growing the array. -/
  grow_content : ∀ n a s, n < 2 ^ 31 → grow a r.state n = .ok s → ∀ q, s.content q = r.state.content q
  /-- Adding a chunk. -/
  addChunk_content : ∀ n a s, n < r.state.curnchunk → addChunk a r.state n = .ok s →
    ∀ q, s.content q = r.state.content q
  /-- The slot that a call returns. -/
  call : ∀ page a₁ a₂ slot s, page / kAMapChunkNPages + 1 < 2 ^ 31 →
    amapAnonAt a₁ a₂ r.state page = .ok (slot, s) →
      (s.heap.IsLive slot ∧ s.heap.mem slot = r.stored page) ∧
        (∀ q t, (q, t) ∈ r.returned → (t = slot ↔ q = page)) ∧
        ∀ q, s.content q = r.state.content q

/-- **An amap is a sparse array**, in every run. -/
theorem amap_sparse_array (hw : h.WellFormed) (hreach : machine.Reachable (empty h) r) : SparseArray r := by
  have hr := RunInv.reachable hw hreach
  have hi := hr.inv
  refine ⟨fun p t hmem => ?_, fun p t q u hp hq => ?_, fun page hpage hlt => arraySize_lt hpage hlt,
    fun page a₁ a₂ hpage => amapAnonAt_ne_assertion hi hpage, fun n a s hn hok => ?_, fun n a s hn hok => ?_,
    fun page a₁ a₂ slot s hpage hok => ?_⟩
  · obtain ⟨hc, rfl⟩ := hr.returned p t hmem
    refine ⟨⟨_, (hi.block hc).1, (hi.block hc).2⟩, ?_⟩
    rw [← hr.content p, State.content, if_pos hc]
  · obtain ⟨hcp, rfl⟩ := hr.returned p t hp
    obtain ⟨hcq, rfl⟩ := hr.returned q u hq
    exact ⟨hi.slot_inj hcp hcq, fun heq => congrArg _ heq⟩
  · exact (grow_spec hi hn hok).2.1.content_eq
  · exact (addChunk_spec hi hn hok).2.1.content_eq
  · obtain ⟨hi', hext, hc, rfl⟩ := amapAnonAt_spec hi hpage hok
    refine ⟨⟨⟨_, (hi'.block hc).1, (hi'.block hc).2⟩, ?_⟩, fun q t hmem => ?_, hext.content_eq⟩
    · rw [← hr.content page, ← hext.content_eq page, State.content, if_pos hc]
    · obtain ⟨hq, rfl⟩ := hr.returned q t hmem
      obtain ⟨hq', hslot⟩ := hext.slot_eq hq
      rw [← hslot]
      exact ⟨hi'.slot_inj hq' hc, fun heq => congrArg _ heq⟩

/-- Pages of three chunks, the last of which moves the array, and its chunk is where the array was. -/
def threeChunks : List Action :=
  [.anonAt 33 ⟨4096, fun _ => 7⟩ ⟨8192, fun _ => 7⟩, .store 33 8200 5,
    .anonAt 3 ⟨0, fun _ => 7⟩ ⟨12288, fun _ => 7⟩,
    .anonAt 64 ⟨16384, fun _ => 9⟩ ⟨4096, fun _ => 9⟩]

/-- Three chunks, for the third of which the array moves. -/
theorem amap_sparse_array_moved : ∃ r, machine.exec (empty ⟨fun _ => 0, []⟩) threeChunks = some r ∧
    r.returned = [(64, 4096), (3, 12312), (33, 8200)] ∧ r.state.heap.mem 8200 = 5 ∧ SparseArray r := by
  have hrun : (machine.exec (empty ⟨fun _ => 0, []⟩) threeChunks).map
      (fun r => (r.returned, r.state.heap.mem 8200)) = some ([(64, 4096), (3, 12312), (33, 8200)], 5) := by
    decide +kernel
  obtain ⟨r, hexec, hr⟩ := Option.map_eq_some_iff.mp hrun
  obtain ⟨hreturned, hmem⟩ := Prod.mk.inj hr
  have hw : WellFormed ⟨fun _ => 0, []⟩ := ⟨.nil, fun _ hb => (nomatch hb), fun _ hb => (nomatch hb)⟩
  exact ⟨r, hexec, hreturned, hmem, amap_sparse_array hw (Machine.reachable_of_exec hexec)⟩

end Scalux.AmapMemory
