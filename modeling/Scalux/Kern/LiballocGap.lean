import Scalux.Kern.LiballocHeap
import Scalux.Lib.Partial

/-! # A chunk in a gap

`malloc` puts a chunk into a gap of a region.

* **`Opened.insertMinor`**: the end that the cases 2 to 4 have in common, with a lemma for each of the cases.
* **`searchMinors_spec`**, **`searchMajor_spec`**: the gap of a region that is found, if it has one. -/

namespace Scalux.Liballoc

open State (align)

variable {H H₁ H₂ : List Block} {b : Block} {l r : List Chunk} {c : Chunk} {s s₁ : State} {a fuel size req : ℕ}
  {bytes : ℕ → UInt8}

namespace State

/-- An assignment to the fields of a major that is there. -/
theorem setMajor_eq {m : Major} (h : s.majors a = some m) (f : Major → Major) :
    s.setMajor a f = some { s with majors := Function.update s.majors a (some (f m)) } := by
  rw [setMajor, h]
  rfl

/-- An assignment to the fields of a minor that is there. -/
theorem setMinor_eq {m : Minor} (h : s.minors a = some m) (f : Minor → Minor) :
    s.setMinor a f = some { s with minors := Function.update s.minors a (some (f m)) } := by
  rw [setMinor, h]
  rfl

variable {m : Minor} {n x : ℕ}

/-- The header that has been written is there. -/
theorem putMinor_self (s : State) (a : ℕ) (m : Minor) (n : ℕ) : (s.putMinor a m n).minors a = some m := if_pos rfl

/-- A header apart from the new one and its bytes stays. -/
theorem putMinor_apart (h : x + header ≤ a ∨ a + header + n ≤ x) : (s.putMinor a m n).minors x = s.minors x := by
  unfold putMinor header at *
  exact (if_neg (by omega)).trans (if_neg (by omega))

/-- A header that is there after is the new one, or was there before. -/
theorem putMinor_minors {m' : Minor} (h : (s.putMinor a m n).minors x = some m') :
    x = a ∨ s.minors x = some m' := by
  unfold putMinor at h
  dsimp only at h
  split_ifs at h with ha
  · exact .inl ha
  · exact .inr h

/-- The byte with the alignment is the only one that is written. -/
theorem putMinor_bytes_of_ne (h : x ≠ align (a + header) - alignInfo) : (s.putMinor a m n).bytes x = s.bytes x :=
  Function.update_of_ne h ..

/-- A new minor, and the usage of its major. -/
theorem insertMinor_eq {maj prev next : ℕ} {m : Major} (h : s.majors maj = some m) :
    s.insertMinor maj a prev next size req
      = some (align (a + header), { s.putMinor a ⟨prev, next, maj, magic, size % 2 ^ 32, req % 2 ^ 32⟩ size with
          majors := Function.update s.majors maj (some { m with usage := (m.usage + size + header) % 2 ^ 32 }) }) := by
  unfold insertMinor
  rw [setMajor_eq (s := s.putMinor _ _ _) (a := maj) (m := m) h]
  rfl

end State

open State

/-! ## A chunk in a gap -/

/-- **A chunk has been placed** in a heap, and its pointer is returned. -/
structure Placed (H : List Block) (c : Chunk) (bytes : ℕ → UInt8) (x : ℕ × State) : Prop where
  ptr : x.1 = c.ptr
  represents : Represents H x.2
  bytes : ∀ a, a ≠ c.ptr - alignInfo → x.2.bytes a = bytes a

/-- The lists of a region are opened: the minors before an address and behind it, and the major, refer to it. -/
structure Opened (H₁ H₂ : List Block) (b : Block) (l r : List Chunk) (a : ℕ) (s s₁ : State) : Prop where
  majors : s₁.majors = Function.update s.majors b.addr
    (some { b.node (lastOr Block.addr 0 H₁) (firstOr Block.addr 0 H₂) with first := firstOr Chunk.addr a l })
  before : Linked (Chunk.node b.addr) Chunk.addr s₁.minors 0 l a
  after : Linked (Chunk.node b.addr) Chunk.addr s₁.minors a r 0
  others : ∀ x, x ∉ b.chunks.map Chunk.addr → s₁.minors x = s.minors x
  rest : s₁ = { s with majors := s₁.majors, minors := s₁.minors }

/-- The bytes in use with a chunk more. -/
theorem sum_inuse_put (hchunks : b.chunks = l ++ r) (H₁ H₂ : List Block) (c : Chunk) :
    ((H₁ ++ { b with chunks := l ++ c :: r } :: H₂).map fun b => (b.chunks.map Chunk.size).sum).sum
      = ((H₁ ++ b :: H₂).map fun b => (b.chunks.map Chunk.size).sum).sum + c.size := by
  simp only [List.map_append, List.map_cons, List.sum_append, List.sum_cons, hchunks]
  omega

/-- The usage with a chunk more: `c.size + header`. -/
theorem usage_put (hchunks : b.chunks = l ++ r) (c : Chunk) :
    ({ b with chunks := l ++ c :: r } : Block).usage = b.usage + c.size + header := by
  unfold Block.usage
  simp only [List.map_append, List.map_cons, List.sum_append, List.sum_cons, hchunks]
  omega

/-- A chunk in a gap of a region leaves it as it should be. -/
theorem Block.Ok.put (hb : b.Ok) (hchunks : b.chunks = l ++ r) (haddr : stopOr (b.addr + header) l ≤ c.addr)
    (hstop : c.stop ≤ firstOr Chunk.addr b.stop r) (hroom : c.Roomy) :
    ({ b with chunks := l ++ c :: r } : Block).Ok := by
  refine { hb with fit := (hchunks ▸ hb.fit).insert haddr hstop, room := fun d hd => ?_ }
  have hd : d ∈ l ∨ d = c ∨ d ∈ r := by simpa using hd
  obtain hd | rfl | hd := hd
  · exact hb.room d (hchunks ▸ List.mem_append_left r hd)
  · exact hroom
  · exact hb.room d (hchunks ▸ List.mem_append_right l hd)

namespace Opened

variable (ho : Opened H₁ H₂ b l r c.addr s s₁) (hb : b.Ok) (hchunks : b.chunks = l ++ r)
  (hput : ({ b with chunks := l ++ c :: r } : Block).Ok)

include hput in
/-- The chunks are in order, and so the new one does not overlap the others. -/
theorem chunk_apart {d : Chunk} (hd : d ∈ l ++ r) : d.stop ≤ c.addr ∨ c.stop ≤ d.addr := by
  have hpair := hput.fit.pairwise
  rw [List.pairwise_append, List.pairwise_cons] at hpair
  exact (List.mem_append.mp hd).imp (fun hd => hpair.2.2 d hd c (List.mem_cons_self ..)) fun hd => hpair.2.1.1 d hd

include ho hput in
/-- The list of a region, with the header of the new minor. -/
theorem linked (n : ℕ) (hn : n = c.size) : Linked (Chunk.node b.addr) Chunk.addr
    (s₁.putMinor c.addr (c.node b.addr (lastOr Chunk.addr 0 l) (firstOr Chunk.addr 0 r)) n).minors 0 (l ++ c :: r)
    0 := by
  have hothers {d : Chunk} (hd : d ∈ l ++ r) : (s₁.putMinor c.addr
      (c.node b.addr (lastOr Chunk.addr 0 l) (firstOr Chunk.addr 0 r)) n).minors d.addr = s₁.minors d.addr := by
    refine putMinor_apart ?_
    have hap := chunk_apart hput hd
    unfold Chunk.stop at hap
    omega
  exact (linked_append ..).mpr ⟨ho.before.congr fun d hd => hothers (List.mem_append_left r hd), putMinor_self ..,
    ho.after.congr fun d hd => hothers (List.mem_append_right l hd)⟩

include hb hchunks hput in
/-- The alignment bytes of a region, with that of the new minor. -/
theorem info (hinfo : ∀ d ∈ b.chunks, s₁.bytes (d.ptr - alignInfo) = UInt8.ofNat (d.ptr - (d.addr + header)))
    (m : Minor) (n : ℕ) : ∀ d ∈ l ++ c :: r,
      (s₁.putMinor c.addr m n).bytes (d.ptr - alignInfo) = UInt8.ofNat (d.ptr - (d.addr + header)) := by
  intro d hd
  obtain rfl | hne := eq_or_ne d c
  · exact Function.update_self ..
  · have hmem : d ∈ l ++ r := by
      rw [List.mem_append, List.mem_cons] at hd
      rw [List.mem_append]
      tauto
    have hap := chunk_apart hput hmem
    have hd' := (hb.room d (hchunks ▸ hmem)).info
    have hc := (hput.room c (by simp)).info
    rw [putMinor_bytes_of_ne (by
      change d.ptr - alignInfo ≠ c.ptr - alignInfo
      omega)]
    exact hinfo d (hchunks ▸ hmem)

/-- **The header of a minor is put** between the others. -/
theorem insertMinor (h : Represents (H₁ ++ b :: H₂) s) (ho : Opened H₁ H₂ b l r c.addr s s₁)
    (hchunks : b.chunks = l ++ r) (haddr : stopOr (b.addr + header) l ≤ c.addr)
    (hstop : c.stop ≤ firstOr Chunk.addr b.stop r) (hroom : c.Roomy) :
    Ends (Placed (H₁ ++ { b with chunks := l ++ c :: r } :: H₂) c s.bytes)
      (s₁.insertMinor b.addr c.addr (lastOr Chunk.addr 0 l) (firstOr Chunk.addr 0 r) c.size c.req) := by
  have hb := h.ok b (by simp)
  have hput := hb.put hchunks haddr hstop hroom
  have hin : b.addr + header ≤ c.addr ∧ c.stop ≤ b.stop := hput.chunk (c := c) (by simp)
  -- the chunk fits into its region, so nothing is lost when the sizes are stored in 32 bits
  have husage : ({ b with chunks := l ++ c :: r } : Block).usage ≤ b.size := hput.usage_le
  rw [usage_put hchunks] at husage
  have hlt := hb.size_lt
  have hsize : c.size % 2 ^ 32 = c.size := Nat.mod_eq_of_lt (by omega)
  have hreq : c.req % 2 ^ 32 = c.req := Nat.mod_eq_of_lt (by
    unfold Chunk.Roomy at hroom
    omega)
  have hbytes : s₁.bytes = s.bytes := by rw [ho.rest]
  have hinfo := hroom.info
  rw [insertMinor_eq (by rw [ho.majors, Function.update_self]), hsize, hreq]
  let m := c.node b.addr (lastOr Chunk.addr 0 l) (firstOr Chunk.addr 0 r)
  refine .some ⟨rfl, h.change hput rfl rfl ?_ (ho.linked hput c.size rfl) ?_ ?_ (info hb hchunks hput ?_ m c.size) ?_ ?_
    ?_ ?_ ?_, ?_⟩
  · dsimp only
    rw [ho.majors, Function.update_idem]
    unfold Block.node
    dsimp only
    rw [usage_put hchunks, firstOr_append, Nat.mod_eq_of_lt (by omega)]
    rfl
  · intro a ha
    refine (putMinor_apart ?_).trans (ho.others a fun hmem => ?_)
    · unfold Chunk.stop at hin
      omega
    · obtain ⟨d, hd, rfl⟩ := List.mem_map.mp hmem
      have hd := hb.chunk hd
      unfold Chunk.stop header at hd
      unfold header at ha
      omega
  · intro a m hm hmagic hlo hhi
    simp only [List.map_append, List.map_cons, List.mem_append, List.mem_cons]
    obtain ha | hm := putMinor_minors hm
    · exact .inr (.inl ha)
    · by_cases hmem : a ∈ b.chunks.map Chunk.addr
      · rw [hchunks, List.map_append, List.mem_append] at hmem
        exact hmem.imp_right .inr
      -- a header that lies outside was there before and belongs to a chunk of another region
      · obtain ⟨e, he, hlive⟩ := h.live a m (ho.others a hmem ▸ hm) hmagic
        obtain he | rfl := mem_append_cons.mp he
        · exact absurd hlive ((h.apart_of_mem he).not_mem (h.ok e (mem_of_mem_append he)) hlo hhi)
        · exact absurd hlive hmem
  · intro d hd
    rw [hbytes]
    exact h.info b (by simp) d hd
  · intro a ha
    rw [← hbytes]
    refine putMinor_bytes_of_ne (m := m) (n := c.size) ?_
    change a ≠ c.ptr - alignInfo
    omega
  · change s₁.memRoot = s.memRoot
    rw [ho.rest]
  · change s₁.bestBet = 0 ∨ s₁.bestBet ∈ _
    rw [ho.rest]
    exact h.bestBet
  · have hrest : s₁.inuse = s.inuse := by rw [ho.rest]
    rw [sum_inuse_put hchunks]
    change (s₁.inuse + c.size) % 2 ^ 64 = _
    rw [hrest, h.inuse, Nat.mod_add_mod]
  · change s₁.allocated = s.allocated
    rw [ho.rest]
  · intro a ha
    rw [← hbytes]
    exact putMinor_bytes_of_ne (m := m) (n := c.size) ha

end Opened

variable {d f : Chunk}

/-- Case 2. -/
theorem insertOnly_spec (h : Represents (H₁ ++ b :: H₂) s) (hchunks : b.chunks = [])
    (hgap : b.addr + header + header + size ≤ b.stop) (hroom : Chunk.Roomy ⟨b.addr + header, size, req⟩) :
    Ends (Placed (H₁ ++ { b with chunks := [⟨b.addr + header, size, req⟩] } :: H₂) ⟨b.addr + header, size, req⟩ s.bytes)
      (s.insertOnly b.addr size req) := by
  unfold insertOnly
  rw [setMajor_eq h.major]
  exact Opened.insertMinor (l := []) (r := []) h ⟨rfl, trivial, trivial, fun _ _ => rfl, rfl⟩ hchunks
    (Nat.le_refl _) hgap hroom

/-- Case 3. -/
theorem insertFirst_spec (h : Represents (H₁ ++ b :: H₂) s) (hchunks : b.chunks = f :: r)
    (hgap : b.addr + header + header + size ≤ f.addr) (hroom : Chunk.Roomy ⟨b.addr + header, size, req⟩) :
    Ends (Placed (H₁ ++ { b with chunks := ⟨b.addr + header, size, req⟩ :: f :: r } :: H₂)
      ⟨b.addr + header, size, req⟩ s.bytes) (s.insertFirst b.addr f.addr size req) := by
  have hb := h.ok b (by simp)
  have hlinked := h.minors b (by simp)
  have hnodup := hb.nodup
  rw [hchunks] at hlinked hnodup
  have hopened : Opened H₁ H₂ b [] (f :: r) (b.addr + header) s
      { s with
        minors := Function.update s.minors f.addr (some (f.node b.addr (b.addr + header) (firstOr Chunk.addr 0 r)))
        majors := Function.update s.majors b.addr (some { b.node (lastOr Block.addr 0 H₁) (firstOr Block.addr 0 H₂) with
          first := b.addr + header }) } := by
    refine ⟨rfl, trivial, hlinked.setBefore (List.nodup_cons.mp hnodup).1, fun x hx => ?_, rfl⟩
    refine Function.update_of_ne ?_ ..
    rintro rfl
    exact hx (hchunks ▸ List.mem_cons_self ..)
  unfold insertFirst
  rw [setMinor_eq hlinked.1, Option.bind_some,
    setMajor_eq (m := b.node (lastOr Block.addr 0 H₁) (firstOr Block.addr 0 H₂)) (by exact h.major)]
  exact hopened.insertMinor (c := ⟨b.addr + header, size, req⟩) h hchunks (Nat.le_refl _) hgap hroom

/-- The last address is none of the others. -/
theorem addr_not_mem_of_nodup (h : ((l ++ [d]).map Chunk.addr).Nodup) : d.addr ∉ l.map Chunk.addr := by
  rw [List.map_append, List.nodup_append] at h
  exact fun hmem => h.2.2 _ hmem _ (List.mem_singleton_self _) rfl

/-- Case 4.1. -/
theorem insertLast_spec (h : Represents (H₁ ++ b :: H₂) s) (hchunks : b.chunks = l ++ [d])
    (hgap : d.stop + header + size ≤ b.stop) (hroom : Chunk.Roomy ⟨d.stop, size, req⟩) :
    Ends (Placed (H₁ ++ { b with chunks := l ++ [d] ++ [⟨d.stop, size, req⟩] } :: H₂) ⟨d.stop, size, req⟩ s.bytes)
      (s.insertLast b.addr d.addr d.stop size req) := by
  have hb := h.ok b (by simp)
  have hlinked := h.minors b (by simp)
  have hnodup := hb.nodup
  rw [hchunks] at hlinked hnodup
  have hd := addr_not_mem_of_nodup hnodup
  -- the last header gets its forward link before the new one is written
  have hopened : Opened H₁ H₂ b (l ++ [d]) [] d.stop s
      { s with
        minors := Function.update s.minors d.addr (some (d.node b.addr (lastOr Chunk.addr 0 l) d.stop)) } := by
    refine ⟨?_, hlinked.setAfter hd, trivial, fun x hx => ?_, rfl⟩
    · refine (Function.update_eq_self_iff.mpr ?_).symm
      rw [h.major]
      unfold Block.node
      rw [hchunks]
      cases l <;> rfl
    · refine Function.update_of_ne ?_ ..
      rintro rfl
      exact hx (hchunks ▸ by simp)
  unfold insertLast
  rw [setMinor_eq hlinked.find]
  have hins := hopened.insertMinor (c := ⟨d.stop, size, req⟩) h (hchunks.trans (List.append_nil _).symm)
    (Nat.le_of_eq (stopOr_concat ..)) hgap hroom
  rw [lastOr_concat] at hins
  exact hins

/-- Case 4.2. -/
theorem insertBetween_spec (h : Represents (H₁ ++ b :: H₂) s) (hchunks : b.chunks = l ++ d :: f :: r)
    (hgap : d.stop + header + size ≤ f.addr) (hroom : Chunk.Roomy ⟨d.stop, size, req⟩) :
    Ends (Placed (H₁ ++ { b with chunks := l ++ [d] ++ ⟨d.stop, size, req⟩ :: f :: r } :: H₂) ⟨d.stop, size, req⟩
      s.bytes) (s.insertBetween b.addr d.addr f.addr d.stop size req) := by
  have hb := h.ok b (by simp)
  have hlinked := h.minors b (by simp)
  have hnodup := hb.nodup
  have hchunks' : b.chunks = (l ++ [d]) ++ f :: r := by rw [hchunks, List.append_assoc, List.singleton_append]
  rw [hchunks'] at hlinked hnodup
  rw [List.map_append, List.nodup_append] at hnodup
  have hd := addr_not_mem_of_nodup hnodup.1
  -- the two neighbours are different headers: each store changes the link of one of them
  have hne {e : Chunk} (he : e ∈ l ++ [d]) {g : Chunk} (hg : g ∈ f :: r) : e.addr ≠ g.addr :=
    hnodup.2.2 _ (List.mem_map_of_mem he) _ (List.mem_map_of_mem hg)
  have hsplit := (linked_append ..).mp hlinked
  rw [lastOr_concat] at hsplit
  have hopened : Opened H₁ H₂ b (l ++ [d]) (f :: r) d.stop s
      { s with
        minors := Function.update (Function.update s.minors f.addr
            (some (f.node b.addr d.stop (firstOr Chunk.addr 0 r)))) d.addr
          (some (d.node b.addr (lastOr Chunk.addr 0 l) d.stop)) } := by
    refine ⟨?_, ?_, ?_, fun x hx => ?_, rfl⟩
    · refine (Function.update_eq_self_iff.mpr ?_).symm
      rw [h.major]
      unfold Block.node
      rw [hchunks]
      cases l <;> rfl
    · exact (hsplit.1.congr fun e he => Function.update_of_ne (hne he (List.mem_cons_self ..)) ..).setAfter hd
    · exact (hsplit.2.setBefore (List.nodup_cons.mp hnodup.2.1).1).congr fun e he =>
        Function.update_of_ne (hne (List.mem_append_right l (List.mem_singleton_self d)) he).symm ..
    · rw [hchunks, List.map_append, List.mem_append, List.map_cons, List.map_cons, List.mem_cons, List.mem_cons] at hx
      push Not at hx
      exact (Function.update_of_ne hx.2.1 ..).trans (Function.update_of_ne hx.2.2.1 ..)
  unfold insertBetween
  rw [setMinor_eq hsplit.2.1, Option.bind_some, setMinor_eq (m := d.node b.addr (lastOr Chunk.addr 0 l) f.addr) (by
    dsimp only
    rw [Function.update_of_ne (hne (List.mem_append_right l (List.mem_singleton_self d)) (List.mem_cons_self ..))]
    exact hsplit.1.find)]
  have hins := hopened.insertMinor (c := ⟨d.stop, size, req⟩) h hchunks' (Nat.le_of_eq (stopOr_concat ..)) hgap hroom
  rw [lastOr_concat] at hins
  exact hins

/-! ## A region -/

/-- The outcome of the search in a region: a chunk in a gap of it, or none. -/
inductive Searched (H₁ H₂ : List Block) (b : Block) (bytes : ℕ → UInt8) (size req : ℕ) (noGap : Prop) :
    Option (ℕ × State) → Prop
  | none (h : noGap) : Searched H₁ H₂ b bytes size req noGap none
  | some {l r : List Chunk} {a : ℕ} {x : ℕ × State} (hchunks : b.chunks = l ++ r)
      (h : Placed (H₁ ++ { b with chunks := l ++ ⟨a, size, req⟩ :: r } :: H₂) ⟨a, size, req⟩ bytes x) :
      Searched H₁ H₂ b bytes size req noGap (some x)

/-- A search whose failure says less. -/
theorem Searched.mono {p q : Prop} (hpq : p → q) {o : Option (ℕ × State)} (h : Searched H₁ H₂ b bytes size req p o) :
    Searched H₁ H₂ b bytes size req q o := by
  cases h with
  | none h => exact .none (hpq h)
  | some hchunks h => exact .some hchunks h

/-- What is needed, when the sum does not wrap: `size + header`. -/
theorem need_eq (h : size + header < 2 ^ 64) : need size = size + header := Nat.mod_eq_of_lt h

/-- The room behind a minor, as it is computed. -/
theorem room_eq {x : ℕ} (hpos : 0 < d.addr) (hle : d.stop ≤ x) (hx : x ≤ 2 ^ 64) :
    sub64 (sub64 (sub64 x d.addr) header) d.size = x - d.stop := by
  unfold Chunk.stop at hle ⊢
  rw [sub64_eq (a := x) (by omega) (by omega), sub64_eq (b := header) (by omega) (by omega),
    sub64_eq (b := d.size) (by omega) (by omega)]
  omega

/-- **The loop over the minors** tries the gaps behind them. -/
theorem searchMinors_spec (h : Represents (H₁ ++ b :: H₂) s) (hsize : size + header < 2 ^ 64)
    (hroom : req + alignment + alignInfo ≤ size) (hchunks : b.chunks = l ++ r) (hfuel : r.length < fuel) :
    Ends (Searched H₁ H₂ b s.bytes size req (∀ l' r', b.chunks = l' ++ r' → l.length < l'.length →
        firstOr Chunk.addr b.stop r' < stopOr (b.addr + header) l' + (size + header)))
      (s.searchMinors b.addr b.size size req fuel (firstOr Chunk.addr 0 r)) := by
  have hb := h.ok b (by simp)
  have hlinked := h.minors b (by simp)
  rw [hchunks] at hlinked
  induction fuel generalizing l r with
  | zero => omega
  | succ fuel ih =>
      cases r with
      | nil =>
          refine .some (.none fun l' r' hl' hlt => ?_)
          have hlen := congrArg List.length (hchunks.symm.trans hl')
          rw [List.length_append, List.length_append, List.length_nil] at hlen
          omega
      | cons d r =>
          have hd : d ∈ b.chunks := hchunks ▸ by simp
          have hpos := hb.addr_pos hd
          have hchunks' : b.chunks = (l ++ [d]) ++ r := by rw [hchunks, List.append_assoc, List.singleton_append]
          have hfit := hb.fit
          rw [hchunks', fit_append, stopOr_concat] at hfit
          have hrec := ih hchunks' (by
            rw [List.length_cons] at hfuel
            omega) (hchunks' ▸ hchunks ▸ hlinked)
          -- The gap behind this minor is the one after `l ++ [d]`, and the others come later.
          have hnext (hgap : firstOr Chunk.addr b.stop r < d.stop + (size + header)) :
              (∀ l' r', b.chunks = l' ++ r' → (l ++ [d]).length < l'.length →
                firstOr Chunk.addr b.stop r' < stopOr (b.addr + header) l' + (size + header)) →
              ∀ l' r', b.chunks = l' ++ r' → l.length < l'.length →
                firstOr Chunk.addr b.stop r' < stopOr (b.addr + header) l' + (size + header) := by
            intro hno l' r' hl' hlt
            obtain hlt | heq := Nat.lt_or_eq_of_le (Nat.succ_le_of_lt hlt)
            · exact hno l' r' hl' (by
                rw [List.length_append, List.length_singleton]
                exact hlt)
            · obtain ⟨rfl, rfl⟩ := List.append_inj (hchunks'.symm.trans hl') (by
                rw [List.length_append, List.length_singleton]
                exact heq)
              rw [stopOr_concat]
              exact hgap
          have hstep : s.searchMinors b.addr b.size size req (fuel + 1) d.addr
              = if need size ≤ sub64 (sub64 (sub64 (if firstOr Chunk.addr 0 r = 0 then b.addr + b.size
                    else firstOr Chunk.addr 0 r) d.addr) header) d.size then
                  (if firstOr Chunk.addr 0 r = 0 then s.insertLast b.addr d.addr d.stop size req
                    else s.insertBetween b.addr d.addr (firstOr Chunk.addr 0 r) d.stop size req).map some
                else s.searchMinors b.addr b.size size req fuel (firstOr Chunk.addr 0 r) := by
            rw [searchMinors, if_neg (by omega), hlinked.find]
            rfl
          change Ends _ (s.searchMinors b.addr b.size size req (fuel + 1) d.addr)
          rw [hstep, need_eq hsize]
          cases r with
          | nil =>
              change Ends _ (if _ ≤ sub64 (sub64 (sub64 b.stop d.addr) header) d.size then
                (s.insertLast b.addr d.addr d.stop size req).map some else _)
              rw [room_eq hpos hfit.2 hb.stop_le]
              refine .ite (fun hle => ?_) fun hle => hrec.mono fun o => Searched.mono (hnext ?_)
              · refine (insertLast_spec h hchunks ?_ hroom).map fun x hx => .some hchunks' hx
                have hstop : d.stop ≤ b.stop := hfit.2
                omega
              · change b.stop < _
                omega
          | cons f r =>
              have hf := hb.chunk (c := f) (hchunks' ▸ by simp)
              have hfpos := hb.addr_pos (c := f) (hchunks' ▸ by simp)
              have hfle : f.addr ≤ 2 ^ 64 := by
                have hstop := hb.stop_le
                unfold Chunk.stop at hf
                omega
              have hne : f.addr ≠ 0 := Nat.ne_of_gt hfpos
              have hdf : d.stop ≤ f.addr := hfit.2.1
              rw [firstOr, if_neg hne, if_neg hne, room_eq hpos hfit.2.1 hfle]
              refine .ite (fun hle => ?_) fun hle => hrec.mono fun o => Searched.mono (hnext ?_)
              · refine (insertBetween_spec h hchunks ?_ hroom).map fun x hx => .some hchunks' hx
                omega
              · change f.addr < _
                omega

/-- **A region with room** is searched for a gap. -/
theorem searchMajor_spec (h : Represents (H₁ ++ b :: H₂) s) (hfit : b.usage + (size + header) ≤ b.size)
    (hroom : req + alignment + alignInfo ≤ size) (hfuel : b.chunks.length < fuel) (p q : ℕ) :
    Ends (Searched H₁ H₂ b s.bytes size req (¬ b.HasGap (size + header)))
      (s.searchMajor fuel b.addr (b.node p q) size req) := by
  have hb := h.ok b (by simp)
  have hsize : size + header < 2 ^ 64 := by
    have hlt := hb.size_lt
    omega
  have hstep : s.searchMajor fuel b.addr (b.node p q) size req
      = if firstOr Chunk.addr 0 b.chunks = 0 then (s.insertOnly b.addr size req).map some
        else if need size ≤ sub64 (sub64 (firstOr Chunk.addr 0 b.chunks) b.addr) header then
          (s.insertFirst b.addr (firstOr Chunk.addr 0 b.chunks) size req).map some
        else s.searchMinors b.addr b.size size req fuel (firstOr Chunk.addr 0 b.chunks) := rfl
  rw [hstep, need_eq hsize]
  -- three places in turn: the empty region, the gap before the first chunk, the gaps behind the chunks
  obtain hnil | hne := eq_or_ne b.chunks []
  · rw [if_pos (by rw [hnil]; rfl)]
    refine (insertOnly_spec h hnil ?_ hroom).map fun x hx => .some (hnil.trans (List.append_nil []).symm) hx
    unfold Block.usage at hfit
    rw [hnil, List.map_nil, List.sum_nil] at hfit
    unfold Block.stop
    omega
  · obtain ⟨f, r, hchunks⟩ := List.exists_cons_of_ne_nil hne
    have hf := hb.chunk (c := f) (hchunks ▸ by simp)
    have hpos := hb.addr_pos (c := f) (hchunks ▸ by simp)
    have hstop := hb.stop_le
    have hbpos := hb.pos
    have hfirst : firstOr Chunk.addr 0 b.chunks = f.addr := by
      rw [hchunks]
      rfl
    unfold Chunk.stop at hf
    rw [hfirst, if_neg (by omega), sub64_eq (a := f.addr) (by omega) (by omega), sub64_eq (by omega) (by omega)]
    refine .ite (fun hle => ?_) fun hle => ?_
    · exact (insertFirst_spec h hchunks (by omega) hroom).map fun x hx => .some (l := []) hchunks hx
    · rw [← hfirst]
      refine (searchMinors_spec h hsize hroom (List.nil_append b.chunks).symm hfuel).mono fun o =>
        Searched.mono fun hno => ?_
      -- the search found no gap: the one before the first chunk was tried here, the others by the loop
      rintro ⟨l, r', hl, hgap⟩
      cases l with
      | nil =>
          rw [List.nil_append] at hl
          rw [← hl, hchunks] at hgap
          change b.addr + header + (size + header) ≤ f.addr at hgap
          omega
      | cons d l =>
          have hlt := hno _ _ hl (Nat.succ_pos _)
          omega

end Scalux.Liballoc
