import Mathlib.Algebra.Order.BigOperators.Group.List
import Scalux.Kern.Liballoc
import Scalux.Lib.Links

/-! # The heap that `malloc` keeps

The majors are a list of regions that are apart from each other, and the minors of each a list of chunks in the
order of their addresses, with gaps between them.

* **`Fit`**: chunks in order in a range.  **`Block.Ok`**, **`HeapOk`**: a region, and the regions.
* **`Represents`**: the headers, the alignment bytes and the variables of `liballoc.c` stand for a heap.
* **`Chunk.ptr_spec`**: what the caller is given lies in its chunk, behind the header and the alignment byte.
* **`Represents.change`**: what a function has to do to change one region. -/

namespace Scalux.Liballoc

open State (align)

/-- A chunk: the address of its header, and what is behind it and has been asked for. -/
structure Chunk where
  addr : ℕ
  size : ℕ
  req : ℕ
  deriving DecidableEq

/-- A region, with the chunks in it. -/
structure Block where
  addr : ℕ
  pages : ℕ
  chunks : List Chunk

namespace Chunk

/-- The end of a chunk. -/
def stop (c : Chunk) : ℕ := c.addr + header + c.size

/-- What the caller is given. -/
def ptr (c : Chunk) : ℕ := align (c.addr + header)

/-- The header of a chunk of a region, between others. -/
def node (maj prev next : ℕ) (c : Chunk) : Minor := ⟨prev, next, maj, magic, c.size, c.req⟩

end Chunk

/-! ## Chunks in order -/

/-- **Chunks in order**, from an address to another one. -/
def Fit (lo hi : ℕ) : List Chunk → Prop
  | [] => lo ≤ hi
  | c :: cs => lo ≤ c.addr ∧ Fit c.stop hi cs

/-- The end of the last chunk, or else an address before it. -/
def stopOr (lo : ℕ) : List Chunk → ℕ
  | [] => lo
  | c :: cs => stopOr c.stop cs

variable {lo hi : ℕ} {l r : List Chunk} {c : Chunk}

/-- Chunks fit in two halves: `Fit lo hi (l ++ r) ↔ Fit lo (firstOr Chunk.addr hi r) l ∧ Fit (stopOr lo l) hi
r`. -/
theorem fit_append (lo hi : ℕ) (l r : List Chunk) :
    Fit lo hi (l ++ r) ↔ Fit lo (firstOr Chunk.addr hi r) l ∧ Fit (stopOr lo l) hi r := by
  induction l generalizing lo with
  | nil =>
      cases r with
      | nil => exact (and_self_iff).symm
      | cons c r => exact ⟨fun h => ⟨h.1, h⟩, And.right⟩
  | cons c l ih =>
      rw [List.cons_append, Fit, Fit, ih, and_assoc]
      rfl

/-- The end of the last chunk. -/
theorem stopOr_concat (lo : ℕ) (l : List Chunk) (c : Chunk) : stopOr lo (l ++ [c]) = c.stop := by
  induction l generalizing lo with
  | nil => rfl
  | cons d l ih => exact ih d.stop

/-- What fits between two bounds has them in order. -/
theorem Fit.le (h : Fit lo hi l) : lo ≤ hi := by
  induction l generalizing lo with
  | nil => exact h
  | cons c l ih =>
      have hle := ih h.2
      have hlo := h.1
      unfold Chunk.stop at hle
      omega

/-- A chunk lies between the bounds. -/
theorem Fit.mem (h : Fit lo hi l) (hc : c ∈ l) : lo ≤ c.addr ∧ c.stop ≤ hi := by
  obtain ⟨l₁, l₂, rfl⟩ := List.append_of_mem hc
  obtain ⟨hl, hlo, hr⟩ := (fit_append lo hi l₁ (c :: l₂)).mp h
  exact ⟨hl.le, hr.le⟩

/-- A chunk that fits into a gap. -/
theorem Fit.insert (h : Fit lo hi (l ++ r)) (hlo : stopOr lo l ≤ c.addr) (hhi : c.stop ≤ firstOr Chunk.addr hi r) :
    Fit lo hi (l ++ c :: r) := by
  rw [fit_append] at h ⊢
  refine ⟨?_, hlo, ?_⟩
  · have hfit := h.1
    clear h hhi
    induction l generalizing lo with
    | nil => exact hlo
    | cons d l ih => exact ⟨hfit.1, ih hlo hfit.2⟩
  · cases r with
    | nil => exact hhi
    | cons d r => exact ⟨hhi, h.2.2⟩

/-- Without one of the chunks the others fit. -/
theorem Fit.remove (h : Fit lo hi (l ++ c :: r)) : Fit lo hi (l ++ r) := by
  rw [fit_append] at h ⊢
  obtain ⟨hl, hlo, hr⟩ := h
  have hstop : c.addr ≤ c.stop := by
    unfold Chunk.stop
    omega
  have hnext : c.addr ≤ firstOr Chunk.addr hi r := by
    cases r with
    | nil => exact Nat.le_trans hstop hr
    | cons d r => exact Nat.le_trans hstop hr.1
  constructor
  · clear hlo hr
    induction l generalizing lo with
    | nil => exact Nat.le_trans hl hnext
    | cons d l ih => exact ⟨hl.1, ih hl.2⟩
  · cases r with
    | nil => exact Nat.le_trans hlo (Nat.le_trans hstop hr)
    | cons d r => exact ⟨Nat.le_trans hlo (Nat.le_trans hstop hr.1), hr.2⟩

/-- The chunks and their headers take no more room than there is. -/
theorem Fit.sum_le (h : Fit lo hi l) : lo + (l.map fun c => c.size + header).sum ≤ hi := by
  induction l generalizing lo with
  | nil => exact h
  | cons c l ih =>
      have hle := ih h.2
      have hlo := h.1
      rw [List.map_cons, List.sum_cons]
      unfold Chunk.stop at hle
      omega

/-- Chunks in order are apart. -/
theorem Fit.pairwise (h : Fit lo hi l) : l.Pairwise fun c d => c.stop ≤ d.addr := by
  induction l generalizing lo with
  | nil => exact .nil
  | cons c l ih => exact .cons (fun d hd => (h.2.mem hd).1) (ih h.2)

/-! ## Pointers -/

/-- **What the caller is given**: it is aligned, and behind the header and the alignment byte, and there is room
for what was asked for. -/
theorem Chunk.ptr_spec (c : Chunk) :
    alignment ∣ c.ptr ∧ c.addr + header + alignInfo ≤ c.ptr ∧ c.ptr < c.addr + header + alignment + alignInfo := by
  unfold ptr align alignment alignInfo
  dsimp only
  split <;> omega

/-- There is room behind the header for what is asked for, however it is aligned. -/
def Chunk.Roomy (c : Chunk) : Prop := c.req + alignment + alignInfo ≤ c.size

/-- The alignment byte is in the chunk, behind the header. -/
theorem Chunk.Roomy.info (h : c.Roomy) : c.addr + header ≤ c.ptr - alignInfo ∧ c.ptr - alignInfo < c.stop := by
  have hptr := c.ptr_spec
  unfold Roomy at h
  unfold stop
  unfold alignment alignInfo at *
  omega

/-- What is asked for is in the chunk. -/
theorem Chunk.Roomy.ptr_add_le (h : c.Roomy) : c.ptr + c.req ≤ c.stop := by
  have hptr := c.ptr_spec
  unfold Roomy at h
  unfold stop
  omega

namespace Block

/-- The bytes of a region. -/
def size (b : Block) : ℕ := b.pages * pageSize

/-- The end of a region. -/
def stop (b : Block) : ℕ := b.addr + b.size

/-- The bytes of a region that are in use. -/
def usage (b : Block) : ℕ := header + (b.chunks.map fun c => c.size + header).sum

/-- The header of a region, between others. -/
def node (prev next : ℕ) (b : Block) : Major :=
  ⟨prev, next, b.pages, b.size, b.usage, firstOr Chunk.addr 0 b.chunks⟩

/-- **A region**: its chunks are behind its header, with room for what was asked for. -/
structure Ok (b : Block) : Prop where
  pos : 0 < b.addr
  aligned : pageSize ∣ b.addr
  size_lt : b.size < 2 ^ 32
  stop_le : b.stop ≤ 2 ^ 64
  fit : Fit (b.addr + header) b.stop b.chunks
  room : ∀ c ∈ b.chunks, c.Roomy

/-- There is a gap of a size. -/
def HasGap (b : Block) (n : ℕ) : Prop :=
  ∃ l r, b.chunks = l ++ r ∧ stopOr (b.addr + header) l + n ≤ firstOr Chunk.addr b.stop r

/-- Two regions are apart. -/
def Apart (b d : Block) : Prop := b.stop ≤ d.addr ∨ d.stop ≤ b.addr

variable {b d : Block}

/-- Regions are apart from each other. -/
theorem Apart.symm (h : b.Apart d) : d.Apart b := Or.symm h

/-- A chunk of a region is in it, behind its header. -/
theorem Ok.chunk (h : b.Ok) (hc : c ∈ b.chunks) : b.addr + header ≤ c.addr ∧ c.stop ≤ b.stop := h.fit.mem hc

/-- What is in use is no more than there is. -/
theorem Ok.usage_le (h : b.Ok) : b.usage ≤ b.size := by
  have hle := h.fit.sum_le
  unfold usage
  unfold stop at hle
  omega

/-- A region is not empty. -/
theorem Ok.addr_lt_stop (h : b.Ok) : b.addr < b.stop := by
  have hle := h.usage_le
  unfold usage header at hle
  unfold stop
  omega

/-- A gap is free. -/
theorem Ok.usage_add_le (h : b.Ok) {n : ℕ} (hgap : b.HasGap (n + header)) : b.usage + (n + header) ≤ b.size := by
  obtain ⟨l, r, hchunks, hle⟩ := hgap
  have hfit := h.fit
  rw [hchunks] at hfit
  -- A chunk in the gap makes a region whose usage is no more than there is.
  have hsum := (hfit.insert (c := ⟨stopOr (b.addr + header) l, n, 0⟩) (Nat.le_refl _) (by
    unfold Chunk.stop
    dsimp only
    omega)).sum_le
  rw [List.map_append, List.map_cons, List.sum_append, List.sum_cons] at hsum
  dsimp only at hsum
  unfold usage
  rw [hchunks, List.map_append, List.sum_append]
  unfold stop at hsum
  omega

/-- A chunk's address is not 0. -/
theorem Ok.addr_pos (h : b.Ok) (hc : c ∈ b.chunks) : 0 < c.addr := by
  have hlt := (h.chunk hc).1
  unfold header at hlt
  omega

/-- No two chunks of a region have one address. -/
theorem Ok.nodup (h : b.Ok) : (b.chunks.map Chunk.addr).Nodup :=
  List.pairwise_map.mpr (h.fit.pairwise.imp fun {c d} hle heq => by
    unfold Chunk.stop header at hle
    omega)

/-- An address in a region is not that of a chunk of another one. -/
theorem Apart.not_mem (h : b.Apart d) (hb : b.Ok) {a : ℕ} (hlo : d.addr < a + header) (hhi : a < d.stop) :
    a ∉ b.chunks.map Chunk.addr := by
  intro hmem
  obtain ⟨c, hc, rfl⟩ := List.mem_map.mp hmem
  have hin := hb.chunk hc
  unfold Chunk.stop at hin
  unfold header at hin hlo
  obtain h | h := h <;> omega

end Block

/-! ## The heap -/

/-- Regions that are apart from each other. -/
structure HeapOk (H : List Block) : Prop where
  ok : ∀ b ∈ H, b.Ok
  apart : H.Pairwise Block.Apart

/-- **The state stands for a heap**. -/
structure Represents (H : List Block) (s : State) : Prop extends HeapOk H where
  majors : Linked Block.node Block.addr s.majors 0 H 0
  held : ∀ a m, s.majors a = some m → a ∈ H.map Block.addr
  minors : ∀ b ∈ H, Linked (Chunk.node b.addr) Chunk.addr s.minors 0 b.chunks 0
  live : ∀ a m, s.minors a = some m → m.magic = magic → ∃ b ∈ H, a ∈ b.chunks.map Chunk.addr
  info : ∀ b ∈ H, ∀ c ∈ b.chunks, s.bytes (c.ptr - alignInfo) = UInt8.ofNat (c.ptr - (c.addr + header))
  memRoot : s.memRoot = firstOr Block.addr 0 H
  bestBet : s.bestBet = 0 ∨ s.bestBet ∈ H.map Block.addr
  inuse : s.inuse = (H.map fun b => (b.chunks.map Chunk.size).sum).sum % 2 ^ 64
  allocated : s.allocated = (H.map Block.size).sum % 2 ^ 64

variable {H H₁ H₂ : List Block} {b d : Block} {s s' : State}

/-- Nothing is allocated at first. -/
theorem represents_initial (bytes : ℕ → UInt8) : Represents [] (State.initial bytes) :=
  ⟨⟨nofun, .nil⟩, trivial, nofun, nofun, nofun, nofun, rfl, .inl rfl, rfl, rfl⟩

/-- Another region is a region. -/
theorem mem_of_mem_append (hd : d ∈ H₁ ++ H₂) : d ∈ H₁ ++ b :: H₂ := by
  rw [List.mem_append, List.mem_cons]
  exact (List.mem_append.mp hd).imp_right .inr

/-- A region is this one or another. -/
theorem mem_append_cons : d ∈ H₁ ++ b :: H₂ ↔ d ∈ H₁ ++ H₂ ∨ d = b := by
  rw [List.mem_append, List.mem_cons, List.mem_append]
  tauto

namespace HeapOk

/-- Another region in the place of one. -/
theorem change (h : HeapOk (H₁ ++ b :: H₂)) (hd : d.Ok) (haddr : d.addr = b.addr) (hpages : d.pages = b.pages) :
    HeapOk (H₁ ++ d :: H₂) := by
  have hstop : d.stop = b.stop := by rw [Block.stop, Block.stop, Block.size, Block.size, haddr, hpages]
  constructor
  · intro e he
    rw [List.mem_append, List.mem_cons] at he
    obtain he | rfl | he := he
    · exact h.ok e (List.mem_append_left _ he)
    · exact hd
    · exact h.ok e (List.mem_append_right _ (List.mem_cons_of_mem b he))
  · have hap := h.apart
    simp only [List.pairwise_append, List.pairwise_cons, List.mem_cons, forall_eq_or_imp, Block.Apart] at hap ⊢
    rw [haddr, hstop]
    exact hap

/-- The other regions are apart from a region. -/
theorem apart_of_mem (h : HeapOk (H₁ ++ b :: H₂)) (hd : d ∈ H₁ ++ H₂) : d.Apart b := by
  have hap := h.apart
  rw [List.pairwise_append, List.pairwise_cons] at hap
  obtain hd | hd := List.mem_append.mp hd
  · exact hap.2.2 d hd b (List.mem_cons_self ..)
  · exact (hap.2.1.1 d hd).symm

/-- No two regions have one address. -/
theorem addr_ne (h : HeapOk (H₁ ++ b :: H₂)) (hd : d ∈ H₁ ++ H₂) : d.addr ≠ b.addr := by
  have hb := (h.ok b (by simp)).addr_lt_stop
  have hd' := (h.ok d (mem_of_mem_append hd)).addr_lt_stop
  obtain hap | hap := h.apart_of_mem hd <;> omega

/-- No other region begins where this one does. -/
theorem addr_not_mem (h : HeapOk (H₁ ++ b :: H₂)) : b.addr ∉ (H₁ ++ H₂).map Block.addr := by
  intro hmem
  obtain ⟨d, hd, heq⟩ := List.mem_map.mp hmem
  exact h.addr_ne hd heq

end HeapOk

namespace Represents

/-- The header of a region. -/
theorem major (h : Represents (H₁ ++ b :: H₂) s) :
    s.majors b.addr = some (b.node (lastOr Block.addr 0 H₁) (firstOr Block.addr 0 H₂)) := h.majors.find

/-- **A region is changed**, and the others are not. -/
theorem change (h : Represents (H₁ ++ b :: H₂) s) (hd : d.Ok) (haddr : d.addr = b.addr) (hpages : d.pages = b.pages)
    (hmajors : s'.majors = Function.update s.majors b.addr
      (some (d.node (lastOr Block.addr 0 H₁) (firstOr Block.addr 0 H₂))))
    (hminors : Linked (Chunk.node b.addr) Chunk.addr s'.minors 0 d.chunks 0)
    (hothers : ∀ a, a + header ≤ b.addr ∨ b.stop ≤ a → s'.minors a = s.minors a)
    (hlive : ∀ a m, s'.minors a = some m → m.magic = magic → b.addr < a + header → a < b.stop →
      a ∈ d.chunks.map Chunk.addr)
    (hinfo : ∀ c ∈ d.chunks, s'.bytes (c.ptr - alignInfo) = UInt8.ofNat (c.ptr - (c.addr + header)))
    (hbytes : ∀ a, a < b.addr ∨ b.stop ≤ a → s'.bytes a = s.bytes a)
    (hroot : s'.memRoot = s.memRoot) (hbet : s'.bestBet = 0 ∨ s'.bestBet ∈ (H₁ ++ b :: H₂).map Block.addr)
    (hinuse : s'.inuse = ((H₁ ++ d :: H₂).map fun b => (b.chunks.map Chunk.size).sum).sum % 2 ^ 64)
    (hallocated : s'.allocated = s.allocated) :
    Represents (H₁ ++ d :: H₂) s' := by
  have hmap : (H₁ ++ d :: H₂).map Block.addr = (H₁ ++ b :: H₂).map Block.addr := by
    rw [List.map_append, List.map_append, List.map_cons, List.map_cons, haddr]
  have hsize : d.size = b.size := by rw [Block.size, Block.size, hpages]
  -- headers of the chunks of other regions lie outside this one
  have houter {e : Block} (he : e ∈ H₁ ++ H₂) {c : Chunk} (hc : c ∈ e.chunks) :
      c.addr + header ≤ b.addr ∨ b.stop ≤ c.addr := by
    have hin := (h.ok e (mem_of_mem_append he)).chunk hc
    have hap := h.apart_of_mem he
    unfold Chunk.stop at hin
    unfold Block.Apart at hap
    omega
  refine { toHeapOk := h.toHeapOk.change hd haddr hpages, majors := ?_, held := ?_, minors := ?_, live := ?_,
           info := ?_, memRoot := ?_, bestBet := ?_, inuse := hinuse, allocated := ?_ }
  · rw [hmajors]
    exact h.majors.replace h.addr_not_mem haddr
  · intro a m hm
    rw [hmap]
    rw [hmajors, Function.update_apply] at hm
    split at hm
    · next ha =>
        subst ha
        simp
    · exact h.held a m hm
  · intro e he
    obtain he | rfl := mem_append_cons.mp he
    · exact (h.minors e (mem_of_mem_append he)).congr fun c hc => hothers _ (houter he hc)
    · rw [haddr]
      exact hminors
  · intro a m hm hmagic
    -- a header outside the region is read as before, inside it `hlive` accounts for it
    by_cases ha : a + header ≤ b.addr ∨ b.stop ≤ a
    · obtain ⟨e, he, hmem⟩ := h.live a m (hothers a ha ▸ hm) hmagic
      obtain he | rfl := mem_append_cons.mp he
      · exact ⟨e, mem_of_mem_append he, hmem⟩
      · obtain ⟨c, hc, rfl⟩ := List.mem_map.mp hmem
        have hin := (h.ok e (by simp)).chunk hc
        unfold Chunk.stop header at hin
        unfold header at ha
        omega
    · exact ⟨d, by simp, hlive a m hm hmagic (by omega) (by omega)⟩
  · intro e he c hc
    obtain he | rfl := mem_append_cons.mp he
    · have hin := (h.ok e (mem_of_mem_append he)).chunk hc
      have hinfo := ((h.ok e (mem_of_mem_append he)).room c hc).info
      have hap := h.apart_of_mem he
      unfold Block.Apart at hap
      rw [hbytes _ (by omega)]
      exact h.info e (mem_of_mem_append he) c hc
    · exact hinfo c hc
  · rw [hroot, h.memRoot]
    cases H₁ with
    | nil => exact haddr.symm
    | cons e H₁ => rfl
  · rw [hmap]
    exact hbet
  · rw [hallocated, h.allocated]
    simp only [List.map_append, List.map_cons, hsize]

end Represents

end Scalux.Liballoc
