import Scalux.Kern.LiballocGap

/-! # What `free` does to the heap

The chunk of the pointer is taken out, and its region is given back if that was the last one in it.

* **`unalign_ptr`**: the header of a chunk is found from its pointer.
* **`unlink_spec`**, **`releaseMajor_spec`**: the two steps.
* **`free_spec`**: `free` returns, and what it has done. -/

namespace Scalux.Liballoc

open State

variable {H H₁ H₂ : List Block} {b : Block} {l r : List Chunk} {c : Chunk} {s s₁ : State} {a : ℕ}

namespace State

/-- An assignment to the fields of a minor, unless there is none. -/
theorem ifSetMinor (s : State) (a : ℕ) (f : Minor → Minor) :
    (if a = 0 then some s else s.setMinor a f) = (modify s.minors a f).map fun g => { s with minors := g } := by
  unfold modify setMinor
  split
  · rfl
  · rw [Option.map_map]
    rfl

/-- An assignment to the fields of a major, unless there is none. -/
theorem ifSetMajor (s : State) (a : ℕ) (f : Major → Major) :
    (if a = 0 then some s else s.setMajor a f) = (modify s.majors a f).map fun g => { s with majors := g } := by
  unfold modify setMajor
  split
  · rfl
  · rw [Option.map_map]
    rfl

end State

/-! ## The header of a pointer -/

/-- **The header is found** from the pointer. -/
theorem unalign_ptr (h : Represents H s) (hb : b ∈ H) (hc : c ∈ b.chunks) :
    sub64 (s.unalign c.ptr) header = c.addr := by
  have hptr := c.ptr_spec
  have hinfo := h.info b hb c hc
  have hin := ((h.ok b hb).chunk hc).2
  have hroom := (h.ok b hb).room c hc
  have hstop := (h.ok b hb).stop_le
  unfold Chunk.Roomy at hroom
  unfold Chunk.stop at hin
  unfold alignment alignInfo at *
  unfold unalign
  rw [sub64_eq (a := c.ptr) (b := alignInfo) (by unfold alignInfo; omega) (by unfold alignInfo; omega)]
  unfold alignInfo
  rw [hinfo, UInt8.toNat_ofNat', Nat.mod_eq_of_lt (by omega)]
  unfold alignment
  dsimp only
  rw [if_pos (by omega), sub64_eq (a := c.ptr) (by omega) (by omega), sub64_eq (by omega) (by omega)]
  omega

/-! ## A chunk is taken out -/

/-- A block without one of its chunks is one. -/
theorem Block.Ok.take (hb : b.Ok) (hchunks : b.chunks = l ++ c :: r) : ({ b with chunks := l ++ r } : Block).Ok := by
  refine { hb with fit := (hchunks ▸ hb.fit).remove, room := fun d hd => hb.room d (hchunks ▸ ?_) }
  have hd : d ∈ l ∨ d ∈ r := List.mem_append.mp hd
  rw [List.mem_append, List.mem_cons]
  tauto

/-- The lists of a region are closed where a chunk has been. -/
structure Closed (b : Block) (l r : List Chunk) (c : Chunk) (s s₁ : State) : Prop where
  minors : Linked (Chunk.node b.addr) Chunk.addr s₁.minors 0 (l ++ r) 0
  dead : ∃ m, s₁.minors c.addr = some m ∧ m.magic = dead
  others : ∀ a, a ∉ b.chunks.map Chunk.addr → s₁.minors a = s.minors a
  majors : s₁.majors = Function.update s.majors b.addr
    ((s.majors b.addr).map fun m => { m with first := firstOr Chunk.addr 0 (l ++ r) })
  rest : s₁ = { s with majors := s₁.majors, minors := s₁.minors }

/-- **A minor is taken out** of the list of its major. -/
theorem unlinkMinor_spec (hb : b.Ok) (hchunks : b.chunks = l ++ c :: r)
    (hbefore : Linked (Chunk.node b.addr) Chunk.addr s.minors 0 l c.addr)
    (hafter : Linked (Chunk.node b.addr) Chunk.addr s.minors c.addr r 0)
    (hdead : ∃ m, s.minors c.addr = some m ∧ m.magic = dead) {m : Major} (hmajor : s.majors b.addr = some m)
    (hfirst : m.first = firstOr Chunk.addr 0 b.chunks) {n : Minor} (hblock : n.block = b.addr)
    (hprev : n.prev = lastOr Chunk.addr 0 l) (hnext : n.next = firstOr Chunk.addr 0 r) :
    Ends (Closed b l r c s) (s.unlinkMinor n) := by
  have hnodup := hb.nodup
  rw [hchunks, List.map_append, List.map_cons, List.nodup_append, List.nodup_cons] at hnodup
  have hpos {d : Chunk} (hd : d ∈ l ∨ d ∈ r) : d.addr ≠ 0 := Nat.ne_of_gt (hb.addr_pos (hchunks ▸ by
    rw [List.mem_append, List.mem_cons]
    tauto))
  have hlr {x : ℕ} (hl : x ∈ l.map Chunk.addr) : x ∉ r.map Chunk.addr := fun hr =>
    hnodup.2.2 x hl x (List.mem_cons_of_mem _ hr) rfl
  have hcl : c.addr ∉ l.map Chunk.addr := fun hl => hnodup.2.2 _ hl _ (List.mem_cons_self ..) rfl
  have hout {x : ℕ} (hx : x ∉ b.chunks.map Chunk.addr) : x ∉ l.map Chunk.addr ∧ x ∉ r.map Chunk.addr := by
    rw [hchunks, List.map_append, List.map_cons, List.mem_append, List.mem_cons] at hx
    tauto
  unfold unlinkMinor
  rw [hprev, hnext, hblock, ifSetMinor]
  -- First the minors after the one that goes, and then those before it.
  obtain ⟨g, hg, hgr, hgother⟩ := hafter.modifyFirst (f := fun n => { n with prev := lastOr Chunk.addr 0 l })
    (fun d hd => hpos (.inr hd)) hnodup.2.1.2 fun _ _ => rfl
  rw [hg, Option.map_some, Option.bind_some, ifSetMinor]
  have hgl : Linked (Chunk.node b.addr) Chunk.addr g 0 l c.addr :=
    hbefore.congr fun d hd => hgother _ (hlr (List.mem_map_of_mem hd))
  obtain ⟨k, hk, hkl, hkother⟩ := hgl.modifyLast (f := fun n => { n with next := firstOr Chunk.addr 0 r })
    (fun d hd => hpos (.inl hd)) hnodup.1 fun _ _ => rfl
  dsimp only
  rw [hk, Option.map_some, Option.bind_some]
  have hkr : Linked (Chunk.node b.addr) Chunk.addr k (lastOr Chunk.addr 0 l) r 0 :=
    hgr.congr fun d hd => hkother _ fun hl => hlr hl (List.mem_map_of_mem hd)
  have hminors : Linked (Chunk.node b.addr) Chunk.addr k 0 (l ++ r) 0 := hkl.cut hkr
  have hdead' : ∃ m, k c.addr = some m ∧ m.magic = dead := by
    rw [hkother _ hcl, hgother _ hnodup.2.1.1]
    exact hdead
  have hothers (x : ℕ) (hx : x ∉ b.chunks.map Chunk.addr) : k x = s.minors x :=
    (hkother x (hout hx).1).trans (hgother x (hout hx).2)
  obtain rfl | ⟨l, d, rfl⟩ := l.eq_nil_or_concat'
  · rw [lastOr, if_pos rfl, setMajor_eq (m := m) (by exact hmajor)]
    refine .some ⟨hminors, hdead', hothers, ?_, rfl⟩
    rw [hmajor]
    rfl
  · have hd : d.addr ≠ 0 := hpos (.inl (by simp))
    rw [lastOr_concat, if_neg hd]
    refine .some ⟨hminors, hdead', hothers, (Function.update_eq_self_iff.mpr ?_).symm, rfl⟩
    rw [hmajor, Option.map_some, ← show m.first = firstOr Chunk.addr 0 (l ++ [d] ++ r) by
      rw [hfirst, hchunks]
      cases l <;> rfl]

/-- What is in use is less by the chunk. -/
theorem sum_inuse_take (hchunks : b.chunks = l ++ c :: r) (H₁ H₂ : List Block) :
    ((H₁ ++ b :: H₂).map fun b => (b.chunks.map Chunk.size).sum).sum
      = ((H₁ ++ { b with chunks := l ++ r } :: H₂).map fun b => (b.chunks.map Chunk.size).sum).sum + c.size := by
  simp only [List.map_append, List.map_cons, List.sum_append, List.sum_cons, hchunks]
  omega

/-- The usage without a chunk is less by the chunk and its header. -/
theorem usage_take (hchunks : b.chunks = l ++ c :: r) :
    b.usage = ({ b with chunks := l ++ r } : Block).usage + c.size + header := by
  unfold Block.usage
  simp only [List.map_append, List.map_cons, List.sum_append, List.sum_cons, hchunks]
  omega

/-- **The first step**: the chunk is no longer there, but perhaps its region is empty. -/
theorem unlink_spec (h : Represents (H₁ ++ b :: H₂) s) (hchunks : b.chunks = l ++ c :: r) :
    Ends (fun s' => s'.bytes = s.bytes ∧ Represents (H₁ ++ { b with chunks := l ++ r } :: H₂) s')
      (({ s with inuse := sub64 s.inuse c.size }.setMajor b.addr fun m =>
          { m with usage := sub32 m.usage (c.size + header) }).bind fun s =>
        (s.setMinor c.addr fun m => { m with magic := dead }).bind fun s =>
          s.unlinkMinor (c.node b.addr (lastOr Chunk.addr 0 l) (firstOr Chunk.addr 0 r))) := by
  have hb := h.ok b (by simp)
  have htake := hb.take hchunks
  have hlinked := h.minors b (by simp)
  rw [hchunks] at hlinked
  have hsplit := (linked_append ..).mp hlinked
  have hnodup := hb.nodup
  rw [hchunks, List.map_append, List.map_cons, List.nodup_append, List.nodup_cons] at hnodup
  have hcl : c.addr ∉ l.map Chunk.addr := fun hl => hnodup.2.2 _ hl _ (List.mem_cons_self ..) rfl
  -- `usage` is an unsigned int, and the chunk was counted in it
  have husage : sub32 b.usage (c.size + header) = ({ b with chunks := l ++ r } : Block).usage := by
    have hle := hb.usage_le
    have hlt := hb.size_lt
    have heq := usage_take hchunks
    rw [sub32_eq (by omega) (by omega)]
    omega
  rw [setMajor_eq (m := b.node (lastOr Block.addr 0 H₁) (firstOr Block.addr 0 H₂)) (by exact h.major),
    Option.bind_some, setMinor_eq (by exact hlinked.find), Option.bind_some]
  refine (unlinkMinor_spec hb hchunks ?_ ?_ ⟨_, Function.update_self .., rfl⟩ (Function.update_self ..) rfl rfl rfl
    rfl).mono fun s₁ hs₁ => ?_
  · exact hsplit.1.congr fun d hd =>
      Function.update_of_ne (fun heq : d.addr = c.addr => hcl (heq ▸ List.mem_map_of_mem hd)) ..
  · exact hsplit.2.2.congr fun d hd =>
      Function.update_of_ne (fun heq : d.addr = c.addr => hnodup.2.1.1 (heq ▸ List.mem_map_of_mem hd)) ..
  · have hbytes : s₁.bytes = s.bytes := by rw [hs₁.rest]
    have hmem {d : Chunk} (hd : d ∈ l ++ r) : d ∈ b.chunks := by
      rw [hchunks, List.mem_append, List.mem_cons]
      rw [List.mem_append] at hd
      tauto
    have hothers (a : ℕ) (ha : a ∉ b.chunks.map Chunk.addr) : s₁.minors a = s.minors a :=
      (hs₁.others a ha).trans (Function.update_of_ne (fun heq => ha (by
        rw [heq, hchunks]
        simp)) ..)
    refine ⟨hbytes, h.change htake rfl rfl ?_ hs₁.minors (fun a ha => hothers a fun hin => ?_) ?_ ?_ ?_ ?_ ?_ ?_ ?_⟩
    · rw [hs₁.majors]
      dsimp only
      rw [Function.update_idem, Function.update_self, Option.map_some]
      dsimp only [Block.node]
      rw [husage]
      rfl
    · obtain ⟨d, hd, rfl⟩ := List.mem_map.mp hin
      have hd := hb.chunk hd
      unfold Chunk.stop header at hd
      unfold header at ha
      omega
    · intro a m hm hmagic hlo hhi
      by_cases ha : a ∈ b.chunks.map Chunk.addr
      · rw [hchunks, List.map_append, List.map_cons, List.mem_append, List.mem_cons] at ha
        rw [List.map_append, List.mem_append]
        obtain ⟨m', hm', hdead⟩ := hs₁.dead
        -- the header of the freed chunk carries the dead magic from now on
        obtain ha | rfl | ha := ha
        · exact .inl ha
        · rw [Option.some.inj (hm.symm.trans hm')] at hmagic
          exact absurd (hdead.symm.trans hmagic) (by decide)
        · exact .inr ha
      · obtain ⟨e, he, hlive⟩ := h.live a m (hothers a ha ▸ hm) hmagic
        obtain he | rfl := mem_append_cons.mp he
        · exact absurd hlive ((h.apart_of_mem he).not_mem (h.ok e (mem_of_mem_append he)) hlo hhi)
        · exact absurd hlive ha
    · intro d hd
      rw [hbytes]
      exact h.info b (by simp) d (hmem hd)
    · intro a _
      rw [hbytes]
    · rw [hs₁.rest]
    · rw [hs₁.rest]
      exact h.bestBet
    · rw [hs₁.rest]
      change sub64 s.inuse c.size = _
      rw [h.inuse, sum_inuse_take hchunks]
      -- the sum of all sizes wraps on both sides
      unfold sub64
      omega
    · rw [hs₁.rest]

/-! ## A region is given back -/

/-- `free` of the last minor of a major: the links of the two neighbours, and the root. -/
theorem releaseMajor_eq (s : State) (maj : ℕ) (m : Major) :
    s.releaseMajor maj m
      = ((modify s.majors m.prev fun n => { n with next := m.next }).bind fun g =>
          modify g m.next fun n => { n with prev := m.prev }).map fun g =>
        { s with
          majors := Function.update g maj none
          minors := fun a => if maj ≤ a ∧ a < maj + m.pages * pageSize then none else s.minors a
          memRoot := if s.memRoot = maj then m.next else s.memRoot
          bestBet := if s.bestBet = maj then 0 else s.bestBet
          allocated := sub64 s.allocated m.size } := by
  unfold releaseMajor
  dsimp only
  rw [ifSetMajor]
  dsimp only
  cases modify s.majors m.prev fun n => { n with next := m.next } with
  | none => rfl
  | some g =>
      rw [Option.map_some, Option.bind_some, Option.bind_some, ifSetMajor, Option.map_map]
      rfl

/-- **The second step**: a region without chunks is no longer there. -/
theorem releaseMajor_spec (h : Represents (H₁ ++ b :: H₂) s) (hnil : b.chunks = []) :
    Ends (fun s' => s'.bytes = s.bytes ∧ Represents (H₁ ++ H₂) s')
      (s.releaseMajor b.addr (b.node (lastOr Block.addr 0 H₁) (firstOr Block.addr 0 H₂))) := by
  have hpos {d : Block} (hd : d ∈ H₁ ∨ d ∈ H₂) : d.addr ≠ 0 :=
    Nat.ne_of_gt (h.ok d (mem_of_mem_append (List.mem_append.mpr hd))).pos
  have hnodup : ((H₁ ++ b :: H₂).map Block.addr).Nodup := by
    refine List.pairwise_map.mpr (h.apart.imp_of_mem fun {d e} hd he hap => ?_)
    have hd := (h.ok d hd).addr_lt_stop
    have he := (h.ok e he).addr_lt_stop
    obtain hap | hap := hap <;> omega
  rw [List.map_append, List.map_cons, List.nodup_append, List.nodup_cons] at hnodup
  have hdisj {x : ℕ} (h₁ : x ∈ H₁.map Block.addr) : x ∉ H₂.map Block.addr := fun h₂ =>
    hnodup.2.2 x h₁ x (List.mem_cons_of_mem _ h₂) rfl
  have hsplit := (linked_append ..).mp h.majors
  rw [releaseMajor_eq]
  -- First the regions before the one that goes, and then those after it.
  obtain ⟨g, hg, hg₁, hgother⟩ := hsplit.1.modifyLast (f := fun m => { m with next := firstOr Block.addr 0 H₂ })
    (fun d hd => hpos (.inl hd)) hnodup.1 fun _ _ => rfl
  have hg₂ : Linked Block.node Block.addr g b.addr H₂ 0 :=
    hsplit.2.2.congr fun d hd => hgother _ fun h₁ => hdisj h₁ (List.mem_map_of_mem hd)
  obtain ⟨k, hk, hk₂, hkother⟩ := hg₂.modifyFirst (f := fun m => { m with prev := lastOr Block.addr 0 H₁ })
    (fun d hd => hpos (.inr hd)) hnodup.2.1.2 fun _ _ => rfl
  have hk₁ : Linked Block.node Block.addr k 0 H₁ (firstOr Block.addr 0 H₂) :=
    hg₁.congr fun d hd => hkother _ (hdisj (List.mem_map_of_mem hd))
  dsimp only [Block.node]
  rw [hg, Option.bind_some, hk, Option.map_some]
  have hmem := h.addr_not_mem
  refine .some ⟨rfl, { ok := fun d hd => h.ok d (mem_of_mem_append hd), apart := ?_, majors := ?_, held := ?_,
                       minors := ?_, live := ?_, info := fun d hd => h.info d (mem_of_mem_append hd), memRoot := ?_,
                       bestBet := ?_, inuse := ?_, allocated := ?_ }⟩
  · exact h.apart.sublist (List.Sublist.append (List.Sublist.refl H₁) (List.sublist_cons_self b H₂))
  · refine (hk₁.cut hk₂).congr fun d hd => Function.update_of_ne (fun heq : d.addr = b.addr => hmem ?_) ..
    exact heq ▸ List.mem_map_of_mem hd
  · intro a m hm
    dsimp only at hm
    rw [Function.update_apply] at hm
    split at hm
    · exact absurd hm nofun
    · next ha =>
        by_contra hnot
        rw [List.map_append, List.mem_append, not_or] at hnot
        rw [hkother a hnot.2, hgother a hnot.1] at hm
        have hheld := h.held a m hm
        rw [List.map_append, List.map_cons, List.mem_append, List.mem_cons] at hheld
        tauto
  · intro d hd
    refine (h.minors d (mem_of_mem_append hd)).congr fun c hc => ?_
    have hin := (h.ok d (mem_of_mem_append hd)).chunk hc
    have hap := h.apart_of_mem hd
    unfold Chunk.stop header at hin
    unfold Block.Apart at hap
    exact if_neg fun hrange => by
      change b.addr ≤ c.addr ∧ c.addr < b.stop at hrange
      omega
  · intro a m hm hmagic
    change (if b.addr ≤ a ∧ a < b.stop then none else s.minors a) = some m at hm
    split at hm
    · exact absurd hm nofun
    · obtain ⟨d, hd, hlive⟩ := h.live a m hm hmagic
      obtain hd | rfl := mem_append_cons.mp hd
      · exact ⟨d, hd, hlive⟩
      · rw [hnil] at hlive
        exact absurd hlive List.not_mem_nil
  · dsimp only [Block.node]
    rw [h.memRoot]
    cases H₁ with
    | nil => exact if_pos rfl
    | cons d H₁ =>
        exact if_neg fun heq : d.addr = b.addr => hmem (heq ▸ List.mem_cons_self ..)
  · dsimp only
    split_ifs with hbet
    · exact .inl rfl
    · refine h.bestBet.imp_right fun hin => ?_
      rw [List.map_append, List.map_cons, List.mem_append, List.mem_cons] at hin
      rw [List.map_append, List.mem_append]
      tauto
  · change s.inuse = _
    rw [h.inuse]
    simp only [List.map_append, List.map_cons, List.sum_append, List.sum_cons, hnil, List.map_nil, List.sum_nil,
      Nat.zero_add]
  · change sub64 s.allocated b.size = _
    rw [h.allocated]
    simp only [List.map_append, List.map_cons, List.sum_append, List.sum_cons]
    unfold sub64
    omega

/-! ## The whole function -/

/-- What `free` does after the minor has been taken out. -/
def cleanUp (maj : ℕ) (s : State) : Option State :=
  (s.majors maj).bind fun m =>
    if m.first = 0 then s.releaseMajor maj m
    else if s.bestBet = 0 then some s
    else (s.majors s.bestBet).map fun best =>
      if toInt (sub32 best.size best.usage) < toInt (sub32 m.size m.usage) then { s with bestBet := maj } else s

/-- `free` of a minor, by the three assignments before the search for the best bet. -/
theorem freeMinor_eq {m : Minor}
    (h : (({ s with inuse := sub64 s.inuse m.size }.setMajor m.block fun b =>
        { b with usage := sub32 b.usage (m.size + header) }).bind fun s =>
      (s.setMinor a fun m => { m with magic := dead }).bind fun s => s.unlinkMinor m) = some s₁) :
    s.freeMinor a m = cleanUp m.block s₁ := by
  rw [← Option.bind_some s₁ (cleanUp m.block), ← h, Option.bind_assoc]
  change Option.bind _ _ = Option.bind _ _
  congr 1
  funext s
  rw [Option.bind_assoc]
  rfl

/-- **`free`** returns, and has taken out the chunk, and the region with its last chunk. -/
theorem free_spec (h : Represents (H₁ ++ b :: H₂) s) (hchunks : b.chunks = l ++ c :: r) :
    Ends (fun s' => s'.bytes = s.bytes ∧
        Represents (if l ++ r = [] then H₁ ++ H₂ else H₁ ++ { b with chunks := l ++ r } :: H₂) s')
      (s.free c.ptr) := by
  have hc : c ∈ b.chunks := hchunks ▸ by simp
  have hptr : c.ptr ≠ 0 := by
    have hspec := c.ptr_spec
    unfold header at hspec
    omega
  have hlinked := h.minors b (by simp)
  rw [hchunks] at hlinked
  unfold free
  rw [if_neg hptr]
  dsimp only
  rw [unalign_ptr h (by simp) hc, hlinked.find, Option.bind_some]
  change Ends _ (if magic = magic then _ else _)
  rw [if_pos rfl]
  obtain ⟨s₁, hs₁, hbytes, hrep⟩ := unlink_spec h hchunks
  rw [freeMinor_eq (m := c.node b.addr (lastOr Chunk.addr 0 l) (firstOr Chunk.addr 0 r)) (by exact hs₁)]
  unfold cleanUp
  change Ends _ ((s₁.majors b.addr).bind _)
  rw [hrep.major, Option.bind_some]
  refine .ite (fun hfirst => ?_) fun hfirst => ?_
  -- `maj->first` is null: no chunk is left, since no chunk has the address 0
  · have hnil : l ++ r = [] := by
      obtain hnil | hne := eq_or_ne (l ++ r) []
      · exact hnil
      · obtain ⟨d, t, hlr⟩ := List.exists_cons_of_ne_nil hne
        have hd := (hrep.ok { b with chunks := l ++ r } (by simp)).addr_pos (c := d) (by
          change d ∈ l ++ r
          rw [hlr]
          exact List.mem_cons_self ..)
        change firstOr Chunk.addr 0 (l ++ r) = 0 at hfirst
        rw [hlr] at hfirst
        exact absurd hfirst (Nat.ne_of_gt hd)
    rw [if_pos hnil]
    exact (releaseMajor_spec hrep hnil).mono fun s₂ hs₂ => ⟨hs₂.1.trans hbytes, hs₂.2⟩
  · have hne : l ++ r ≠ [] := fun hnil => hfirst (by
      change firstOr Chunk.addr 0 (l ++ r) = 0
      rw [hnil]
      rfl)
    rw [if_neg hne]
    -- a region that keeps a chunk stays, and may become the best bet
    refine .ite (fun _ => .some ⟨hbytes, hrep⟩) fun hbet => ?_
    obtain ⟨d, hd, heq⟩ := List.mem_map.mp (hrep.bestBet.resolve_left hbet)
    obtain ⟨L, R, hH⟩ := List.append_of_mem hd
    have hmajor := (hH ▸ hrep).major
    rw [← heq, hmajor, Option.map_some]
    split
    · exact .some ⟨hbytes, { hrep with bestBet := .inr (List.mem_map.mpr ⟨{ b with chunks := l ++ r }, by simp, rfl⟩) }⟩
    · exact .some ⟨hbytes, hrep⟩

end Scalux.Liballoc
