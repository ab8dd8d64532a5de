import Mathlib.Algebra.Order.BigOperators.Group.List
import Mathlib.Algebra.Order.Ring.Nat
import Scalux.Kern.LiballocGap

/-! # What `malloc` does to the heap

A chunk is put into a gap of a region, or into a new region if there is no gap for it.

* **`Represents.append`**: a new region after the others.
* **`searchMajors_spec`**: the loop over the regions, which goes round the list once more if it started at
  `l_bestBet`.
* **`malloc_spec`**: `malloc` returns, and what it has done. -/

namespace Scalux.Liballoc

open State

variable {H L R H₁ H₂ : List Block} {b e : Block} {l r : List Chunk} {c : Chunk} {s s' : State} {fuel size req : ℕ}
  {alloc : ℕ → ℕ} {bytes : ℕ → UInt8}

/-! ## New regions -/

/-- There is room for the headers and what they are taken for in the pages of a new region. -/
theorem newPages_spec (h : size + header + header + pageSize ≤ 2 ^ 32) :
    size + header + header ≤ newPages size * pageSize ∧ newPages size * pageSize < 2 ^ 32 := by
  unfold newPages header pageSize pageCount at *
  dsimp only
  rw [Nat.mod_eq_of_lt (a := size) (by omega), Nat.mod_eq_of_lt (a := size + 40 + 40) (b := 2 ^ 32) (by omega)]
  split <;> omega

/-- The region that `allocate_new_page` makes. -/
def newBlock (alloc : ℕ → ℕ) (size : ℕ) : Block := ⟨alloc (newPages size), newPages size, []⟩

/-- The block that `allocate_new_page` makes has room for the request. -/
theorem newBlock_ok (h : size + header + header + pageSize ≤ 2 ^ 32) (hne : alloc (newPages size) ≠ 0)
    (haligned : pageSize ∣ alloc (newPages size)) (hstop : alloc (newPages size) + newPages size * pageSize ≤ 2 ^ 64) :
    (newBlock alloc size).Ok where
  pos := Nat.pos_of_ne_zero hne
  aligned := haligned
  size_lt := (newPages_spec h).2
  stop_le := hstop
  fit := Nat.add_le_add_left (Nat.le_trans (Nat.le_add_left ..) (newPages_spec h).1) _
  room := nofun

/-- **What is promised of `liballoc_alloc`**: the pages that it returns are apart from the regions. -/
def Supplies (alloc : ℕ → ℕ) (H : List Block) (size : ℕ) : Prop :=
  alloc (newPages size) ≠ 0 → (newBlock alloc size).Ok ∧ ∀ b ∈ H, b.Apart (newBlock alloc size)

/-- `allocate_new_page`: the new block is in the heap, without a neighbour. -/
theorem allocateNewPage_eq (s : State) (h : alloc (newPages size) ≠ 0) (hlt : newPages size * pageSize < 2 ^ 32) :
    s.allocateNewPage alloc size = ((newBlock alloc size).addr, { s with
      majors := Function.update s.majors (newBlock alloc size).addr (some ((newBlock alloc size).node 0 0))
      allocated := (s.allocated + (newBlock alloc size).size) % 2 ^ 64 }) := by
  unfold allocateNewPage
  dsimp only
  rw [if_neg h, Nat.mod_eq_of_lt hlt]
  rfl

/-- Another value of `l_bestBet`. -/
theorem Represents.bet (h : Represents H s) {x : ℕ} (hx : x ∈ H.map Block.addr) :
    Represents H { s with bestBet := x } := { h with bestBet := .inr hx }

/-- **A new region** after the others. -/
theorem Represents.append (h : Represents H s) (he : e.Ok) (hap : ∀ b ∈ H, b.Apart e) (hnil : e.chunks = [])
    (hmajors : Linked Block.node Block.addr s'.majors 0 (H ++ [e]) 0)
    (hheld : ∀ a m, s'.majors a = some m → a = e.addr ∨ ∃ m, s.majors a = some m)
    (hroot : s'.memRoot = firstOr Block.addr e.addr H) (hallocated : s'.allocated = (s.allocated + e.size) % 2 ^ 64)
    (hrest : s' = { s with majors := s'.majors, memRoot := s'.memRoot, allocated := s'.allocated }) :
    Represents (H ++ [e]) s' := by
  have hmem {d : Block} : d ∈ H ++ [e] ↔ d ∈ H ∨ d = e := by rw [List.mem_append, List.mem_singleton]
  have hminors : s'.minors = s.minors := by rw [hrest]
  have hbytes : s'.bytes = s.bytes := by rw [hrest]
  -- the new region has no chunk, so the fields about chunks are those of before
  refine { ok := ?_, apart := ?_, majors := hmajors, held := ?_, minors := ?_, live := ?_, info := ?_, memRoot := ?_,
           bestBet := ?_, inuse := ?_, allocated := ?_ }
  · intro d hd
    obtain hd | rfl := hmem.mp hd
    · exact h.ok d hd
    · exact he
  · refine List.pairwise_append.mpr ⟨h.apart, List.pairwise_singleton .., fun d hd d' hd' => ?_⟩
    rw [List.mem_singleton.mp hd']
    exact hap d hd
  · intro a m hm
    rw [List.map_append, List.mem_append]
    obtain rfl | ⟨m', hm'⟩ := hheld a m hm
    · exact .inr (List.mem_singleton_self _)
    · exact .inl (h.held a m' hm')
  · intro d hd
    rw [hminors]
    obtain hd | rfl := hmem.mp hd
    · exact h.minors d hd
    · rw [hnil]
      trivial
  · intro a m hm hmagic
    obtain ⟨d, hd, ha⟩ := h.live a m (hminors ▸ hm) hmagic
    exact ⟨d, hmem.mpr (.inl hd), ha⟩
  · intro d hd c hc
    rw [hbytes]
    obtain hd | rfl := hmem.mp hd
    · exact h.info d hd c hc
    · rw [hnil] at hc
      exact absurd hc List.not_mem_nil
  · rw [hroot, firstOr_append]
    rfl
  · rw [show s'.bestBet = s.bestBet by rw [hrest], List.map_append, List.mem_append]
    exact h.bestBet.imp_right .inl
  · rw [show s'.inuse = s.inuse by rw [hrest], h.inuse, List.map_append, List.sum_append, List.map_singleton,
      List.sum_singleton, hnil]
    rfl
  · rw [hallocated, h.allocated, Nat.mod_add_mod, List.map_append, List.sum_append, List.map_singleton,
      List.sum_singleton]

/-- Blocks that are apart have different addresses. -/
theorem addr_ne_of_apart (he : e.Ok) (hb : b.Ok) (hap : b.Apart e) : b.addr ≠ e.addr := by
  have hpos := hb.addr_lt_stop
  have hpos' := he.addr_lt_stop
  obtain hap | hap := hap <;> omega

/-- The first region. -/
theorem Represents.first (h : Represents [] s) (hsup : Supplies alloc [] size)
    (hlt : newPages size * pageSize < 2 ^ 32) (hne : alloc (newPages size) ≠ 0) :
    Represents [newBlock alloc size]
      { (s.allocateNewPage alloc size).2 with memRoot := (newBlock alloc size).addr } := by
  rw [allocateNewPage_eq s hne hlt]
  exact h.append (hsup hne).1 nofun rfl ⟨Function.update_self .., trivial⟩ (fun a m hm => by
    dsimp only at hm
    rw [Function.update_apply] at hm
    split at hm
    · next ha => exact .inl ha
    · exact .inr ⟨m, hm⟩) rfl rfl rfl

/-- A new region after the last one. -/
theorem appendMajor_spec (h : Represents (L ++ [b]) s) (hsup : Supplies alloc (L ++ [b]) size)
    (hlt : newPages size * pageSize < 2 ^ 32) :
    Ends (fun x => x.2.bytes = s.bytes ∧ if alloc (newPages size) = 0 then x.1 = 0 ∧ Represents (L ++ [b]) x.2
        else x.1 = (newBlock alloc size).addr ∧ Represents (L ++ [b] ++ [newBlock alloc size]) x.2)
      (s.appendMajor alloc b.addr size) := by
  have hmajor := h.major
  unfold appendMajor
  -- no page: the list stays as it is, only the warning is counted
  by_cases h0 : alloc (newPages size) = 0
  · simp only [if_pos h0]
    unfold allocateNewPage
    dsimp only
    rw [if_pos h0]
    exact .some ⟨rfl, rfl, { h with }⟩
  · simp only [if_neg h0]
    rw [allocateNewPage_eq s h0 hlt]
    obtain ⟨he, hap⟩ := hsup h0
    have hnodup := h.addr_not_mem
    rw [List.append_nil] at hnodup
    have hne {d : Block} (hd : d ∈ L ++ [b]) : d.addr ≠ (newBlock alloc size).addr :=
      addr_ne_of_apart he (h.ok d hd) (hap d hd)
    have hnew : (newBlock alloc size).addr ≠ 0 := h0
    dsimp only
    rw [if_neg hnew, setMajor_eq (m := b.node (lastOr Block.addr 0 L) 0) (by
      dsimp only
      rw [Function.update_of_ne (hne (by simp))]
      exact hmajor), Option.bind_some, setMajor_eq (m := (newBlock alloc size).node 0 0) (by
      dsimp only
      rw [Function.update_of_ne (hne (by simp)).symm, Function.update_self])]
    refine .some ⟨rfl, rfl, h.append he hap rfl ?_ (fun a m hm => ?_) ?_ rfl rfl⟩
    · refine (linked_append ..).mpr ⟨?_, ?_, trivial⟩
      -- the last region is linked forward, the new one backward
      · have hset : Linked Block.node Block.addr (Function.update s.majors b.addr
            (some (b.node (lastOr Block.addr 0 L) (newBlock alloc size).addr))) 0 (L ++ [b])
            (newBlock alloc size).addr :=
          h.majors.setAfter hnodup
        refine hset.congr fun d hd => ?_
        dsimp only
        rw [Function.update_of_ne (hne hd)]
        by_cases hdb : d.addr = b.addr
        · rw [hdb, Function.update_self, Function.update_self]
          rfl
        · rw [Function.update_of_ne hdb, Function.update_of_ne (hne hd), Function.update_of_ne hdb]
      · rw [lastOr_concat]
        exact Function.update_self ..
    · dsimp only at hm
      by_cases ha : a = (newBlock alloc size).addr
      · exact .inl ha
      · rw [Function.update_of_ne ha] at hm
        by_cases hb : a = b.addr
        · exact .inr ⟨_, hb ▸ hmajor⟩
        · rw [Function.update_of_ne hb, Function.update_of_ne ha] at hm
          exact .inr ⟨m, hm⟩
    · rw [h.memRoot]
      cases L <;> rfl

/-! ## The loop over the regions -/

/-- **The outcome of `malloc`**: a chunk in a gap of a region, or in a new region where no region has a gap for it;
or else `liballoc_alloc` has failed. -/
inductive Allocated (alloc : ℕ → ℕ) (H : List Block) (bytes : ℕ → UInt8) (size req : ℕ) : ℕ × State → Prop
  | gap {H₁ H₂ : List Block} {b : Block} {l r : List Chunk} {a : ℕ} {x : ℕ × State} (hH : H = H₁ ++ b :: H₂)
      (hchunks : b.chunks = l ++ r)
      (h : Placed (H₁ ++ { b with chunks := l ++ ⟨a, size, req⟩ :: r } :: H₂) ⟨a, size, req⟩ bytes x) :
      Allocated alloc H bytes size req x
  | region {x : ℕ × State} (hno : ∀ b ∈ H, ¬ b.HasGap (size + header)) (hne : alloc (newPages size) ≠ 0)
      (h : Placed (H ++ [⟨alloc (newPages size), newPages size, [⟨alloc (newPages size) + header, size, req⟩]⟩])
        ⟨alloc (newPages size) + header, size, req⟩ bytes x) : Allocated alloc H bytes size req x
  | failed {s' : State} (hno : ∀ b ∈ H, ¬ b.HasGap (size + header)) (h0 : alloc (newPages size) = 0)
      (h : Represents H s') (hbytes : s'.bytes = bytes) : Allocated alloc H bytes size req (0, s')

/-- What the loop notes of a region. -/
def visit (b : Block) (bestSize : ℕ) (s : State) : State :=
  if bestSize < b.size - b.usage then { s with bestBet := b.addr } else s

/-- A visit changes the best bet at most. -/
theorem Represents.visit (h : Represents H s) (hb : b ∈ H) (bestSize : ℕ) : Represents H (visit b bestSize s) := by
  unfold Liballoc.visit
  split
  · exact h.bet (List.mem_map_of_mem hb)
  · exact h

/-- A visit changes no byte. -/
@[simp] theorem visit_bytes (b : Block) (bestSize : ℕ) (s : State) : (visit b bestSize s).bytes = s.bytes := by
  unfold visit
  split <;> rfl

/-- A round of the loop. -/
theorem searchMajors_succ (h : Represents (L ++ b :: R) s) (startedBet : Bool) (bestSize : ℕ) :
    searchMajors alloc size req (fuel + 1) b.addr startedBet bestSize s
      = (if b.size - b.usage < need size then some none
          else (visit b bestSize s).searchMajor fuel b.addr
            (b.node (lastOr Block.addr 0 L) (firstOr Block.addr 0 R)) size req).bind fun o =>
        o.elim
          (if firstOr Block.addr 0 R ≠ 0 then
              searchMajors alloc size req fuel (firstOr Block.addr 0 R) startedBet
                (max bestSize (b.size - b.usage)) (visit b bestSize s)
            else if startedBet then
              searchMajors alloc size req fuel (visit b bestSize s).memRoot false (max bestSize (b.size - b.usage))
                (visit b bestSize s)
            else ((visit b bestSize s).appendMajor alloc b.addr size).bind fun x =>
              if x.1 = 0 then some (0, x.2)
              else if b.size - b.usage < need size then x.2.insertOnly x.1 size req
              else searchMajors alloc size req fuel x.1 false (max bestSize (b.size - b.usage)) x.2)
          some := by
  have hb := h.ok b (by simp)
  -- the free bytes of a region do not wrap, as its usage is within its size
  have hdiff : sub32 b.size b.usage = b.size - b.usage := sub32_eq hb.usage_le hb.size_lt
  have hne : b.addr ≠ 0 := Nat.ne_of_gt hb.pos
  rw [searchMajors, if_neg hne, h.major, Option.bind_some]
  dsimp only [Block.node]
  rw [hdiff]
  change Option.bind _ _ = Option.bind _ _
  congr 1
  funext o
  cases o <;> rfl

section Search

variable (hroom : req + alignment + alignInfo ≤ size) (hsize : size + header + header + pageSize ≤ 2 ^ 32)

include hroom hsize

/-- The loop finds room in a new region. -/
theorem searchMajors_new (h : Represents (H ++ [newBlock alloc size]) s) (startedBet : Bool) (bestSize : ℕ) :
    Ends (Placed (H ++ [⟨alloc (newPages size), newPages size, [⟨alloc (newPages size) + header, size, req⟩]⟩])
        ⟨alloc (newPages size) + header, size, req⟩ s.bytes)
      (searchMajors alloc size req (fuel + 1) (newBlock alloc size).addr startedBet bestSize s) := by
  have hpages := (newPages_spec hsize).1
  have husage : (newBlock alloc size).size - (newBlock alloc size).usage = newPages size * pageSize - header := rfl
  rw [searchMajors_succ h, husage, need_eq (by
    unfold pageSize at hsize
    omega), if_neg (by omega)]
  have hgap : (newBlock alloc size).addr + header + header + size ≤ (newBlock alloc size).stop := by
    unfold Block.stop Block.size newBlock
    dsimp only
    omega
  obtain ⟨x, hins, hx⟩ := insertOnly_spec (h.visit (b := newBlock alloc size) (by simp) bestSize) rfl hgap hroom
  rw [visit_bytes] at hx
  refine ⟨x, ?_, hx⟩
  unfold searchMajor
  rw [show ((newBlock alloc size).node _ _).first = 0 from rfl, if_pos rfl, hins]
  rfl

/-- **The loop over the regions**: those before the one it has come to have no gap, unless it has started
somewhere else. -/
theorem searchMajors_spec {N : ℕ} {startedBet : Bool} (hN : ∀ b ∈ H, b.chunks.length < N) (hsup : Supplies alloc H size)
    (h : Represents H s) (hH : H = L ++ R) (hR : R ≠ [])
    (hno : startedBet = false → ∀ b ∈ L, ¬ b.HasGap (size + header))
    (hfuel : N + (if startedBet then H.length else 0) + R.length < fuel) (bestSize : ℕ) :
    Ends (Allocated alloc H s.bytes size req)
      (searchMajors alloc size req fuel (firstOr Block.addr 0 R) startedBet bestSize s) := by
  have hpages := newPages_spec hsize
  have hneed : need size = size + header := need_eq (by
    unfold pageSize at hsize
    omega)
  induction fuel generalizing L R s startedBet bestSize with
  | zero => omega
  | succ fuel ih =>
      obtain ⟨b, R, rfl⟩ := List.exists_cons_of_ne_nil hR
      subst hH
      rw [List.length_cons] at hfuel
      have hb := h.ok b (by simp)
      have hle := hb.usage_le
      have hv := h.visit (b := b) (by simp) bestSize
      -- The region is searched, if it has the memory.
      have hsearch : Ends (Searched L R b s.bytes size req (¬ b.HasGap (size + header)))
          (if b.size - b.usage < need size then some none
            else (visit b bestSize s).searchMajor fuel b.addr
              (b.node (lastOr Block.addr 0 L) (firstOr Block.addr 0 R)) size req) := by
        rw [hneed]
        refine .ite (fun hlt => .some (.none fun hgap => ?_)) fun hlt => ?_
        · have hle := hb.usage_add_le hgap
          omega
        · have hlen : b.chunks.length < fuel := by
            have hlt := hN b (by simp)
            omega
          rw [← visit_bytes b bestSize s]
          exact searchMajor_spec hv (by omega) hroom hlen _ _
      change Ends _ (searchMajors alloc size req (fuel + 1) b.addr startedBet bestSize s)
      rw [searchMajors_succ h]
      refine hsearch.bind fun o ho => ?_
      cases ho with
      | some hchunks hx => exact .some (.gap rfl hchunks hx)
      | none hgap =>
          change Ends _ (if _ then _ else _)
          have hvb := visit_bytes b bestSize s
          obtain rfl | hne := eq_or_ne R []
          · rw [if_neg (by
              rw [firstOr]
              exact fun hne => hne rfl)]
            cases startedBet with
            | true =>
                -- Once more, from the first region.
                rw [if_pos rfl, hv.memRoot, ← hvb]
                exact ih hv (List.nil_append _).symm (by simp) (fun _ _ hmem => absurd hmem List.not_mem_nil) (by
                  rw [if_pos rfl] at hfuel
                  rw [if_neg (by decide)]
                  rw [List.length_nil] at hfuel
                  omega) _
            | false =>
                have hall : ∀ d ∈ L ++ [b], ¬ d.HasGap (size + header) := by
                  intro d hd
                  obtain hd | hd := List.mem_append.mp hd
                  · exact hno rfl d hd
                  · exact List.mem_singleton.mp hd ▸ hgap
                rw [if_neg (by decide)]
                refine (appendMajor_spec hv hsup hpages.2).bind fun x hx => ?_
                obtain ⟨hbytes, hx⟩ := hx
                rw [hvb] at hbytes
                split at hx
                · next h0 =>
                    rw [if_pos hx.1]
                    exact .some (.failed hall h0 hx.2 hbytes)
                · next h0 =>
                    have hnew : x.1 ≠ 0 := hx.1 ▸ h0
                    rw [if_neg hnew, hx.1]
                    refine .ite (fun _ => ?_) fun _ => ?_
                    · have hroom' : (newBlock alloc size).addr + header + header + size
                          ≤ (newBlock alloc size).stop := by
                        unfold Block.stop Block.size newBlock
                        dsimp only
                        omega
                      rw [← hbytes]
                      exact (insertOnly_spec hx.2 rfl hroom' hroom).mono fun y hy => .region hall h0 hy
                    · obtain ⟨k, rfl⟩ : ∃ k, fuel = k + 1 := ⟨fuel - 1, by omega⟩
                      rw [← hbytes]
                      exact (searchMajors_new hroom hsize hx.2 false _).mono fun y hy => .region hall h0 hy
          · obtain ⟨d, R', rfl⟩ := List.exists_cons_of_ne_nil hne
            have hd : firstOr Block.addr 0 (d :: R') ≠ 0 := Nat.ne_of_gt (h.ok d (by simp)).pos
            have hH : L ++ b :: d :: R' = (L ++ [b]) ++ d :: R' := by rw [List.append_assoc, List.singleton_append]
            rw [if_pos hd, ← hvb]
            refine ih hv hH (List.cons_ne_nil d R') (fun hst e he => ?_) ?_ _
            · obtain he | he := List.mem_append.mp he
              · exact hno hst e he
              · exact List.mem_singleton.mp he ▸ hgap
            · rw [List.length_cons] at hfuel ⊢
              omega

end Search

/-! ## The whole function -/

/-- The rounds that `malloc` goes at most. -/
def rounds (H : List Block) : ℕ := (H.map fun b => b.chunks.length).sum + 2 * H.length + 1

/-- A block has no more chunks than all blocks. -/
theorem length_lt_of_mem (hb : b ∈ H) : b.chunks.length < (H.map fun b => b.chunks.length).sum + 1 :=
  Nat.lt_succ_of_le (List.le_sum_of_mem (List.mem_map_of_mem hb))

/-- **`malloc`** of a size with the room for the alignment. -/
theorem mallocSized_spec (h : Represents H s) (hroom : req + alignment + alignInfo ≤ size)
    (hsize : size + header + header + pageSize ≤ 2 ^ 32) (hsup : Supplies alloc H size) (hfuel : rounds H < fuel) :
    Ends (Allocated alloc H s.bytes size req) (s.mallocSized alloc fuel size req) := by
  have hpages := newPages_spec hsize
  unfold mallocSized
  unfold rounds at hfuel
  -- no region yet: the first one is allocated and searched
  obtain rfl | hne := eq_or_ne H []
  · have hroot : s.memRoot = 0 := h.memRoot
    have hbet : s.bestBet = 0 := h.bestBet.resolve_right List.not_mem_nil
    rw [if_pos hroot]
    by_cases h0 : alloc (newPages size) = 0
    · unfold allocateNewPage
      dsimp only
      rw [if_pos h0]
      dsimp only
      rw [if_pos rfl]
      exact .some (.failed nofun h0 { h with memRoot := rfl } rfl)
    · obtain ⟨k, rfl⟩ : ∃ k, fuel = k + 1 := ⟨fuel - 1, by omega⟩
      have hfirst := h.first hsup hpages.2 h0
      have hnew : (newBlock alloc size).addr ≠ 0 := h0
      rw [allocateNewPage_eq s h0 hpages.2] at hfirst ⊢
      dsimp only at hfirst ⊢
      rw [if_neg hnew, if_pos hbet]
      exact (searchMajors_new hroom hsize (H := []) hfirst false 0).mono fun x hx => .region nofun h0 hx
  · obtain ⟨b, H', rfl⟩ := List.exists_cons_of_ne_nil hne
    have hroot : s.memRoot ≠ 0 := h.memRoot ▸ Nat.ne_of_gt (h.ok b (by simp)).pos
    rw [if_neg hroot]
    dsimp only
    rw [if_neg hroot]
    -- the search from the root, which ends with a new region if no gap is found
    have hfromRoot (bestSize : ℕ) : Ends (Allocated alloc (b :: H') s.bytes size req)
        (searchMajors alloc size req fuel s.memRoot false bestSize s) := by
      rw [h.memRoot]
      refine searchMajors_spec hroom hsize (fun d => length_lt_of_mem) hsup h (List.nil_append _).symm
        (List.cons_ne_nil b H') (fun _ _ hmem => absurd hmem List.not_mem_nil) ?_ bestSize
      rw [if_neg (by decide)]
      omega
    refine .ite (fun _ => hfromRoot 0) fun hbet => ?_
    obtain ⟨d, hd, heq⟩ := List.mem_map.mp (h.bestBet.resolve_left hbet)
    obtain ⟨L, R, hH⟩ := List.append_of_mem hd
    have hmajor := (hH ▸ h).major
    rw [heq] at hmajor
    rw [hmajor, Option.bind_some]
    refine .ite (fun _ => ?_) fun _ => hfromRoot _
    -- the search from the best bet, which starts over at the root before it takes new pages
    have hfromBet (bestSize : ℕ) : Ends (Allocated alloc (b :: H') s.bytes size req)
        (searchMajors alloc size req fuel (firstOr Block.addr 0 (d :: R)) true bestSize s) := by
      have hlen := congrArg List.length hH
      rw [List.length_append] at hlen
      refine searchMajors_spec hroom hsize (fun d => length_lt_of_mem) hsup h hH (List.cons_ne_nil d R) ?_ ?_ bestSize
      · exact nofun
      · rw [if_pos rfl]
        omega
    rw [show firstOr Block.addr 0 (d :: R) = s.bestBet from heq] at hfromBet
    exact hfromBet _

/-- **`malloc`** returns, and has placed a chunk with room for what is asked for, or `liballoc_alloc` has failed. -/
theorem malloc_spec (h : Represents H s)
    (hreq : req + alignment + alignInfo + header + header + pageSize ≤ 2 ^ 32)
    (hsup : Supplies alloc H (req + alignment + alignInfo)) (hfuel : rounds H < fuel) :
    Ends (Allocated alloc H s.bytes (req + alignment + alignInfo) req) (s.malloc alloc fuel req) := by
  have hlt : (req + alignment + alignInfo) % 2 ^ 64 = req + alignment + alignInfo := Nat.mod_eq_of_lt (by omega)
  have hne : req + alignment + alignInfo ≠ 0 := by
    unfold alignInfo
    omega
  unfold malloc
  rw [hlt, if_neg hne]
  exact mallocSized_spec h (Nat.le_refl _) hreq hsup hfuel

/-! ## More rounds -/

section Mono

variable {s : State} {maj majSize min fuel' : ℕ} {m : Major} {startedBet : Bool} {bestSize : ℕ}

/-- More fuel changes nothing in the search of a block. -/
theorem searchMinors_mono (hle : fuel ≤ fuel') :
    Follows Eq (s.searchMinors maj majSize size req fuel' min) (s.searchMinors maj majSize size req fuel min) := by
  induction fuel generalizing fuel' min with
  | zero => exact .none
  | succ fuel ih =>
      obtain ⟨k, rfl⟩ : ∃ k, fuel' = k + 1 := ⟨fuel' - 1, by omega⟩
      rw [searchMinors, searchMinors]
      refine .ite (.refl _) ((Follows.refl _).bind ?_)
      rintro m _ rfl
      exact .ite (.refl _) (ih (by omega))

/-- More fuel changes nothing in the search for a gap of a major. -/
theorem searchMajor_mono (hle : fuel ≤ fuel') :
    Follows Eq (s.searchMajor fuel' maj m size req) (s.searchMajor fuel maj m size req) :=
  .ite (.refl _) (.ite (.refl _) (searchMinors_mono hle))

/-- More fuel changes nothing in the search of all majors. -/
theorem searchMajors_mono (hle : fuel ≤ fuel') :
    Follows Eq (searchMajors alloc size req fuel' maj startedBet bestSize s)
      (searchMajors alloc size req fuel maj startedBet bestSize s) := by
  induction fuel generalizing fuel' maj startedBet bestSize s with
  | zero => exact .none
  | succ fuel ih =>
      obtain ⟨k, rfl⟩ : ∃ k, fuel' = k + 1 := ⟨fuel' - 1, by omega⟩
      have hk : fuel ≤ k := by omega
      rw [searchMajors, searchMajors]
      refine .ite (.refl _) ((Follows.refl _).bind ?_)
      rintro m _ rfl
      refine Follows.bind (.ite (.refl _) (searchMajor_mono hk)) ?_
      rintro o _ rfl
      cases o with
      | some r => exact .refl _
      | none =>
          refine .ite (ih hk) (.ite (ih hk) ((Follows.refl _).bind ?_))
          rintro x _ rfl
          exact .ite (.refl _) (.ite (.refl _) (ih hk))

/-- More fuel changes nothing in `malloc`. -/
theorem mallocSized_mono (hle : fuel ≤ fuel') :
    Follows Eq (s.mallocSized alloc fuel' size req) (s.mallocSized alloc fuel size req) := by
  unfold mallocSized
  refine .ite (.refl _) (.ite (searchMajors_mono hle) ((Follows.refl _).bind ?_))
  rintro m _ rfl
  exact .ite (searchMajors_mono hle) (searchMajors_mono hle)

/-- **More rounds do not change the result**. -/
theorem malloc_mono (hle : fuel ≤ fuel') : Follows Eq (s.malloc alloc fuel' req) (s.malloc alloc fuel req) :=
  .ite (mallocSized_mono hle) (mallocSized_mono hle)

end Mono

/-- What `malloc` has done where it returns. -/
theorem malloc_of_eq (h : Represents H s)
    (hreq : req + alignment + alignInfo + header + header + pageSize ≤ 2 ^ 32)
    (hsup : Supplies alloc H (req + alignment + alignInfo)) {x : ℕ × State} (hx : s.malloc alloc fuel req = some x) :
    Allocated alloc H s.bytes (req + alignment + alignInfo) req x := by
  have hends : Ends (Allocated alloc H s.bytes (req + alignment + alignInfo) req)
      (s.malloc alloc (max fuel (rounds H + 1)) req) := malloc_spec h hreq hsup (by omega)
  exact hends.of_eq ((malloc_mono (Nat.le_max_left ..)).eq hx)

end Scalux.Liballoc
