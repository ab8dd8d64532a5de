import Scalux.Kern.LiballocRun

/-! # Where the blocks are, and when there is no memory

What holds in every state that the callers reach.

* **`block_placed`**: a block is in a region, and no header, alignment byte or other block is in it.
* **`nothing_leaks`**: there is a block in each region, and so nothing is held when all blocks have been freed.
* **`malloc_null_iff`**: `malloc` returns 0 exactly when no region has the room and there are no pages.
* **`stops_iff`**: the other calls return too, but for those that clear or copy to 0. -/

namespace Scalux.Liballoc

open State

variable {H : List Block} {b : Block} {l r : List Chunk} {c : Chunk} {s : State} {fuel req p a lo hi n : ℕ}
  {alloc : ℕ → ℕ} {x : ℕ × State} {bytes : ℕ → UInt8} {v : List UInt8}

/-! ## Headers -/

/-- The region of a header. -/
theorem Represents.region (h : Represents H s) {m : Major} (hm : s.majors a = some m) :
    ∃ b ∈ H, b.addr = a ∧ m.pages = b.pages := by
  obtain ⟨b, hb, rfl⟩ := List.mem_map.mp (h.held a m hm)
  obtain ⟨H₁, H₂, rfl⟩ := List.append_of_mem hb
  exact ⟨b, hb, rfl, (Option.some.inj (hm.symm.trans h.major)).symm ▸ rfl⟩

/-- The header of a region is in memory. -/
theorem Represents.header (h : Represents H s) (hb : b ∈ H) : ∃ m, s.majors b.addr = some m ∧ m.pages = b.pages := by
  obtain ⟨H₁, H₂, rfl⟩ := List.append_of_mem hb
  exact ⟨_, h.major, rfl⟩

/-- The chunk of a header. -/
theorem Represents.chunk (h : Represents H s) {m : Minor} (hm : s.minors a = some m) (hmagic : m.magic = magic) :
    ∃ b ∈ H, ∃ c ∈ b.chunks, c.addr = a ∧ m.size = c.size := by
  obtain ⟨b, hb, hmem⟩ := h.live a m hm hmagic
  obtain ⟨c, hc, rfl⟩ := List.mem_map.mp hmem
  obtain ⟨l, r, hchunks⟩ := List.append_of_mem hc
  have hlinked := h.minors b hb
  rw [hchunks] at hlinked
  exact ⟨b, hb, c, hc, rfl, (Option.some.inj (hm.symm.trans hlinked.find)).symm ▸ rfl⟩

/-- The header of a chunk is in memory. -/
theorem Represents.minor (h : Represents H s) (hb : b ∈ H) (hc : c ∈ b.chunks) :
    ∃ m, s.minors c.addr = some m ∧ m.magic = magic ∧ m.size = c.size := by
  obtain ⟨l, r, hchunks⟩ := List.append_of_mem hc
  have hlinked := h.minors b hb
  rw [hchunks] at hlinked
  exact ⟨_, hlinked.find, rfl, rfl⟩

/-! ## The place of a block -/

/-- **A block is in a region that is held**, at a multiple of 16, and it is apart from the headers of the regions
and of the blocks, from the alignment bytes, and from the other blocks. -/
theorem block_placed (h : callers.Reach Allowed (0, .initial bytes) x) (hv : x.2.block p = some v) :
    alignment ∣ p ∧
      (∃ a m, x.2.majors a = some m ∧ a + header ≤ p ∧ p + v.length ≤ a + m.pages * pageSize) ∧
      (∀ a m, x.2.majors a = some m → a + header ≤ p ∨ p + v.length ≤ a) ∧
      (∀ a m, x.2.minors a = some m → m.magic = magic → a + header ≤ p ∨ p + v.length ≤ a) ∧
      (∀ a m, x.2.minors a = some m → m.magic = magic →
        align (a + header) - alignInfo < p ∨ p + v.length ≤ align (a + header) - alignInfo) ∧
      ∀ q w, x.2.block q = some w → q ≠ p → p + v.length ≤ q ∨ q + w.length ≤ p := by
  obtain ⟨H, hrep, -⟩ := good_of_reach h
  obtain ⟨c, hc, rfl, rfl⟩ := (block_eq_some hrep).mp hv
  obtain ⟨b, hb, hmem⟩ := hc
  have hc : IsChunk H c := ⟨b, hb, hmem⟩
  have hin := (hrep.ok b hb).chunk hmem
  have hspec := c.ptr_spec
  have hle := (hrep.roomy hc).ptr_add_le
  rw [Chunk.length_content]
  -- inside its region, off the headers of the regions and the chunks, off the alignment bytes and the blocks
  refine ⟨hspec.1, ?_, fun a m hm => ?_, fun a m hm hmagic => ?_, fun a m hm hmagic => ?_, fun q w hw hq => ?_⟩
  · obtain ⟨m, hm, hpages⟩ := hrep.header hb
    refine ⟨b.addr, m, hm, by omega, ?_⟩
    rw [hpages]
    unfold Block.stop Block.size at hin
    omega
  · obtain ⟨d, hd, rfl, -⟩ := hrep.region hm
    -- behind the header of its own region, and apart from every other region
    by_cases hbd : d = b
    · subst hbd
      omega
    · have hsymm : Std.Symm Block.Apart := ⟨fun _ _ => Block.Apart.symm⟩
      have hap : d.Apart b := hrep.apart.forall hd hb hbd
      have husage := (hrep.ok d hd).usage_le
      unfold Block.usage at husage
      unfold Block.Apart Block.stop at hap
      unfold Block.stop at hin
      omega
  · obtain ⟨e, he, d, hd, rfl, -⟩ := hrep.chunk hm hmagic
    by_cases hcd : d = c
    · subst hcd
      omega
    · have hap := hrep.chunk_apart ⟨e, he, hd⟩ hc hcd
      unfold Chunk.stop at hap hle
      omega
  · obtain ⟨e, he, d, hd, rfl, -⟩ := hrep.chunk hm hmagic
    change d.ptr - alignInfo < _ ∨ _ ≤ d.ptr - alignInfo
    by_cases hcd : d = c
    · subst hcd
      unfold alignInfo at hspec ⊢
      omega
    · have hap := hrep.chunk_apart ⟨e, he, hd⟩ hc hcd
      have hinfo := (hrep.roomy ⟨e, he, hd⟩).info
      omega
  · obtain ⟨d, hd, rfl, rfl⟩ := (block_eq_some hrep).mp hw
    have hap := hrep.chunk_apart hd hc fun heq => hq (heq ▸ rfl)
    have hdspec := d.ptr_spec
    have hdle := (hrep.roomy hd).ptr_add_le
    rw [Chunk.length_content]
    omega

/-- The second of two blocks. -/
theorem block_placed_second : ∃ v, twoBlocks.2.block 65808 = some v ∧ v.length = 40 ∧ alignment ∣ 65808 ∧
    (∃ a m, twoBlocks.2.majors a = some m ∧ a + header ≤ 65808 ∧ 65808 + v.length ≤ a + m.pages * pageSize) ∧
    (∀ a m, twoBlocks.2.minors a = some m → m.magic = magic → a + header ≤ 65808 ∨ 65808 + v.length ≤ a) ∧
    ∀ q w, twoBlocks.2.block q = some w → q ≠ 65808 → 65808 + v.length ≤ q ∨ q + w.length ≤ 65808 := by
  have hblock : (twoBlocks.2.block 65808).map List.length = some 40 := by decide
  obtain ⟨v, hv, hlen⟩ := Option.map_eq_some_iff.mp hblock
  obtain ⟨hdvd, hin, -, hminors, -, hothers⟩ := block_placed reach_twoBlocks hv
  exact ⟨v, hv, hlen, hdvd, hin, hminors, hothers⟩

/-! ## What is held -/

/-- **Nothing leaks**: in each region that is held there is a block, `l_allocated` counts the pages of the regions,
and when all blocks have been freed there is nothing in use or allocated. -/
theorem nothing_leaks (h : callers.Reach Allowed (0, .initial bytes) x) :
    (∀ a m, x.2.majors a = some m → ∃ p v, x.2.block p = some v ∧ a + header ≤ p ∧ p < a + m.pages * pageSize) ∧
      (∃ R : List (ℕ × ℕ), (R.map Prod.fst).Nodup ∧
        (∀ a n, (a, n) ∈ R ↔ ∃ m, x.2.majors a = some m ∧ m.pages = n) ∧
        x.2.allocated = (R.map fun e => e.2 * pageSize).sum % 2 ^ 64) ∧
      ((∀ p, x.2.block p = none) →
        (∀ a, x.2.majors a = none) ∧ x.2.memRoot = 0 ∧ x.2.bestBet = 0 ∧ x.2.allocated = 0 ∧ x.2.inuse = 0) := by
  obtain ⟨H, hrep, hset⟩ := good_of_reach h
  -- a region that is kept holds a chunk, since `free` releases the one that becomes empty
  have hblock (b : Block) (hb : b ∈ H) : ∃ p v, x.2.block p = some v ∧ b.addr + header ≤ p ∧ p < b.stop := by
    obtain ⟨c, l, hchunks⟩ := List.exists_cons_of_ne_nil (hset b hb)
    have hmem : c ∈ b.chunks := hchunks ▸ List.mem_cons_self ..
    have hin := (hrep.ok b hb).chunk hmem
    have hroom := (hrep.ok b hb).room c hmem
    have hspec := c.ptr_spec
    refine ⟨c.ptr, _, block_ptr hrep ⟨b, hb, hmem⟩, by omega, ?_⟩
    unfold Chunk.Roomy at hroom
    unfold Chunk.stop at hin
    omega
  refine ⟨fun a m hm => ?_, ⟨H.map fun b => (b.addr, b.pages), ?_, fun a n => ?_, ?_⟩, fun hnone => ?_⟩
  · obtain ⟨b, hb, rfl, hpages⟩ := hrep.region hm
    rw [hpages]
    exact hblock b hb
  · rw [List.map_map]
    refine List.pairwise_map.mpr (hrep.apart.imp_of_mem fun {d e} hd he hap => ?_)
    exact addr_ne_of_apart (hrep.ok e he) (hrep.ok d hd) hap
  · rw [List.mem_map]
    constructor
    · rintro ⟨b, hb, heq⟩
      obtain ⟨rfl, rfl⟩ := Prod.mk.inj heq
      exact hrep.header hb
    · rintro ⟨m, hm, rfl⟩
      obtain ⟨b, hb, rfl, hpages⟩ := hrep.region hm
      exact ⟨b, hb, Prod.ext rfl hpages.symm⟩
  · rw [hrep.allocated, List.map_map]
    rfl
  -- no block, hence no region
  · obtain rfl : H = [] := by
      by_contra hne
      obtain ⟨b, H', rfl⟩ := List.exists_cons_of_ne_nil hne
      obtain ⟨p, v, hv, -⟩ := hblock b (List.mem_cons_self ..)
      exact nomatch hv.symm.trans (hnone p)
    refine ⟨fun a => Option.eq_none_iff_forall_ne_some.mpr fun m hm => ?_, hrep.memRoot,
      hrep.bestBet.resolve_right List.not_mem_nil, hrep.allocated, hrep.inuse⟩
    exact absurd (hrep.held a m hm) List.not_mem_nil

/-- Where no region is held there is no block. -/
theorem block_of_memRoot (h : Represents H s) (h0 : s.memRoot = 0) (p : ℕ) : s.block p = none := by
  obtain rfl : H = [] := by
    by_contra hne
    obtain ⟨b, H', rfl⟩ := List.exists_cons_of_ne_nil hne
    exact (h.ok b (List.mem_cons_self ..)).pos.ne' (h.memRoot.symm.trans h0)
  refine Option.eq_none_iff_forall_ne_some.mpr fun v hv => ?_
  obtain ⟨c, ⟨b, hb, -⟩, -⟩ := (block_eq_some h).mp hv
  exact absurd hb List.not_mem_nil

/-- A region is held while one of its two blocks is there, and given back with the other. -/
theorem nothing_leaks_freed :
    (∀ a m, oneGap.2.majors a = some m →
      ∃ p v, oneGap.2.block p = some v ∧ a + header ≤ p ∧ p < a + m.pages * pageSize) ∧
      oneGap.2.majors 65536 ≠ none ∧
      (∀ a, noBlocks.2.majors a = none) ∧ noBlocks.2.memRoot = 0 ∧ noBlocks.2.bestBet = 0 ∧
      noBlocks.2.allocated = 0 ∧ noBlocks.2.inuse = 0 := by
  obtain ⟨H, hrep, -⟩ := good_of_reach reach_noBlocks
  obtain ⟨hregions, -, -⟩ := nothing_leaks reach_oneGap
  obtain ⟨-, -, hnone⟩ := nothing_leaks reach_noBlocks
  exact ⟨hregions, by decide, hnone (block_of_memRoot hrep (by decide))⟩

/-! ## Room -/

/-- **There is room** for a block in a region: for its header, for what is asked for, and for the alignment, apart
from the other blocks with their headers. -/
def State.Room (s : State) (req : ℕ) : Prop :=
  let size := req + alignment + alignInfo + header
  ∃ a m p, s.majors a = some m ∧ a + header ≤ p ∧ p + size ≤ a + m.pages * pageSize ∧
    ∀ b n, s.minors b = some n → n.magic = magic → b + header + n.size ≤ p ∨ p + size ≤ b

/-- A free range is a gap. -/
theorem Fit.gap (h : Fit lo hi l) {n : ℕ} (hlo : lo ≤ p) (hhi : p + n ≤ hi)
    (hap : ∀ c ∈ l, c.stop ≤ p ∨ p + n ≤ c.addr) :
    ∃ l₁ l₂, l = l₁ ++ l₂ ∧ stopOr lo l₁ ≤ p ∧ p + n ≤ firstOr Chunk.addr hi l₂ := by
  induction l generalizing lo with
  | nil => exact ⟨[], [], rfl, hlo, hhi⟩
  | cons c l ih =>
      obtain hle | hle := hap c (List.mem_cons_self ..)
      · obtain ⟨l₁, l₂, rfl, h₁, h₂⟩ := ih h.2 hle fun d hd => hap d (List.mem_cons_of_mem c hd)
        exact ⟨c :: l₁, l₂, rfl, h₁, h₂⟩
      · exact ⟨[], c :: l, rfl, hlo, hle⟩

/-- The chunks before the end of the last one. -/
theorem Fit.le_stopOr (h : Fit lo hi l) : lo ≤ stopOr lo l ∧ ∀ c ∈ l, c.stop ≤ stopOr lo l := by
  induction l generalizing lo with
  | nil => exact ⟨Nat.le_refl _, nofun⟩
  | cons d l ih =>
      obtain ⟨hle, hall⟩ := ih h.2
      have hlo := h.1
      change lo ≤ stopOr d.stop l ∧ ∀ c ∈ d :: l, c.stop ≤ stopOr d.stop l
      refine ⟨?_, List.forall_mem_cons.mpr ⟨hle, hall⟩⟩
      unfold Chunk.stop at hle ⊢
      omega

/-- The chunks behind the first address. -/
theorem Fit.firstOr_le (h : Fit lo hi l) :
    firstOr Chunk.addr hi l ≤ hi ∧ ∀ c ∈ l, firstOr Chunk.addr hi l ≤ c.addr := by
  cases l with
  | nil => exact ⟨Nat.le_refl _, nofun⟩
  | cons d l =>
      have hle := h.2.le
      change d.addr ≤ hi ∧ ∀ c ∈ d :: l, d.addr ≤ c.addr
      refine ⟨?_, List.forall_mem_cons.mpr ⟨Nat.le_refl _, fun c hc => ?_⟩⟩
      · unfold Chunk.stop at hle
        omega
      · have hmem := (h.2.mem hc).1
        unfold Chunk.stop at hmem
        omega

/-- **There is room** exactly when a region has a gap. -/
theorem room_iff (h : Represents H s) :
    s.Room req ↔ ∃ b ∈ H, b.HasGap (req + alignment + alignInfo + header) := by
  constructor
  -- a stretch of its region that meets no chunk lies between two neighbours
  · rintro ⟨a, m, p, hm, hlo, hhi, hap⟩
    obtain ⟨b, hb, rfl, hpages⟩ := h.region hm
    rw [hpages] at hhi
    obtain ⟨l₁, l₂, hchunks, h₁, h₂⟩ := (h.ok b hb).fit.gap hlo hhi fun c hc => by
      obtain ⟨n, hn, hmagic, hsize⟩ := h.minor hb hc
      have hor := hap _ n hn hmagic
      rw [hsize] at hor
      exact hor
    exact ⟨b, hb, l₁, l₂, hchunks, by omega⟩
  -- the gap begins where the chunk before it ends
  · rintro ⟨b, hb, l, r, hchunks, hle⟩
    obtain ⟨m, hm, hpages⟩ := h.header hb
    have hfit := (h.ok b hb).fit
    rw [hchunks, fit_append] at hfit
    have hl := hfit.1.le_stopOr
    have hr := hfit.2.firstOr_le
    refine ⟨b.addr, m, stopOr (b.addr + header) l, hm, hl.1, ?_, fun a n hn hmagic => ?_⟩
    · rw [hpages]
      exact Nat.le_trans hle hr.1
    · obtain ⟨e, he, c, hc, rfl, hsize⟩ := h.chunk hn hmagic
      rw [hsize]
      by_cases heb : e = b
      · subst heb
        rw [hchunks] at hc
        exact (List.mem_append.mp hc).imp (hl.2 c) fun hc => Nat.le_trans hle (hr.2 c hc)
      · have hsymm : Std.Symm Block.Apart := ⟨fun _ _ => Block.Apart.symm⟩
        have hap : e.Apart b := h.apart.forall he hb heb
        have hin := (h.ok e he).chunk hc
        unfold Chunk.stop at hin
        unfold Block.Apart at hap
        omega

/-- `malloc` fails exactly when no region has a gap and there are no pages. -/
theorem Allocated.null_iff {size : ℕ} (h : Allocated alloc H bytes size req x) :
    x.1 = 0 ↔ (∀ b ∈ H, ¬ b.HasGap (size + header)) ∧ alloc (newPages size) = 0 := by
  cases h with
  | failed hno h0 hrep hbytes => exact iff_of_true rfl ⟨hno, h0⟩
  | region hno hne hp => exact iff_of_false (hp.ptr ▸ Chunk.ptr_ne_zero _) fun hall => hne hall.2
  | @gap H₁ H₂ b l r a x hH hchunks hp =>
      refine iff_of_false (hp.ptr ▸ Chunk.ptr_ne_zero _) fun hall => hall.1 b (hH ▸ by simp) ⟨l, r, hchunks, ?_⟩
      have hfit := (hp.represents.ok { b with chunks := l ++ ⟨a, size, req⟩ :: r } (by simp)).fit
      rw [fit_append] at hfit
      obtain ⟨-, hle, hr⟩ := hfit
      have hnext : a + header + size ≤ firstOr Chunk.addr b.stop r := by
        cases r with
        | nil => exact hr
        | cons d r => exact hr.1
      change stopOr (b.addr + header) l ≤ a at hle
      omega

/-- `malloc` returns, with 0 if there is no memory. -/
theorem malloc_returns (h : Represents H s) (hsmall : Small req) (hp : s.Promised alloc req) (hfuel : rounds H < fuel) :
    Ends (fun y => y.1 = 0 ↔ ¬ s.Room req ∧ alloc (newPages (req + alignment + alignInfo)) = 0)
      (s.malloc alloc fuel req) := by
  refine (malloc_spec h hsmall (hp.supplies h hsmall) hfuel).mono fun y hy => ?_
  rw [hy.null_iff, room_iff h, not_exists]
  exact and_congr_left' (forall_congr' fun b => by rw [not_and])

/-- **`malloc` returns 0** exactly when no region has the room for what is asked for, and `liballoc_alloc` has no
pages either. -/
theorem malloc_null_iff (h : callers.Reach Allowed (0, .initial bytes) x) (hsmall : Small req)
    (hp : x.2.Promised alloc req) :
    ∃ N, ∀ fuel, N ≤ fuel → ∃ y, x.2.malloc alloc fuel req = some y ∧
      (y.1 = 0 ↔ ¬ x.2.Room req ∧ alloc (newPages (req + alignment + alignInfo)) = 0) := by
  obtain ⟨H, hrep, -⟩ := good_of_reach h
  exact ⟨rounds H + 1, fun fuel hfuel => malloc_returns hrep hsmall hp hfuel⟩

/-- Without pages, the gap before a block is found for 100 bytes, and there is none for 65300. -/
theorem malloc_null_iff_gap : oneGap.2.Room 100 ∧ ¬ oneGap.2.Room 65300 := by
  have hpromised (req : ℕ) : oneGap.2.Promised (fun _ => 0) req := fun hne => absurd rfl hne
  obtain ⟨N₁, h₁⟩ := malloc_null_iff reach_oneGap (by decide) (hpromised 100)
  obtain ⟨N₂, h₂⟩ := malloc_null_iff reach_oneGap (by decide) (hpromised 65300)
  obtain ⟨y₁, hy₁, hiff₁⟩ := h₁ (max N₁ 5) (Nat.le_max_left ..)
  obtain ⟨y₂, hy₂, hiff₂⟩ := h₂ (max N₂ 5) (Nat.le_max_left ..)
  have hfound : (oneGap.2.malloc (fun _ => 0) 5 100).map Prod.fst = some 65632 := by decide
  have hnull : (oneGap.2.malloc (fun _ => 0) 5 65300).map Prod.fst = some 0 := by decide
  obtain ⟨z₁, hz₁, heq₁⟩ := Option.map_eq_some_iff.mp hfound
  obtain ⟨z₂, hz₂, heq₂⟩ := Option.map_eq_some_iff.mp hnull
  -- more rounds do not change what has been returned
  obtain rfl := Option.some.inj (hy₁.symm.trans ((malloc_mono (Nat.le_max_right N₁ 5)).eq hz₁))
  obtain rfl := Option.some.inj (hy₂.symm.trans ((malloc_mono (Nat.le_max_right N₂ 5)).eq hz₂))
  have hroom : ¬ (¬ oneGap.2.Room 100 ∧ 0 = 0) := fun hno => absurd (heq₁.symm.trans (hiff₁.mpr hno)) (by decide)
  exact ⟨by_contra fun hno => hroom ⟨hno, rfl⟩, (hiff₂.mp heq₂).1⟩

/-! ## The other calls -/

/-- An action with another bound on the rounds. -/
def Action.withFuel (fuel : ℕ) : Action → Action
  | .malloc alloc _ req => .malloc alloc fuel req
  | .calloc alloc _ nobj size => .calloc alloc fuel nobj size
  | .realloc alloc _ p size => .realloc alloc fuel p size
  | .free p => .free p
  | .write p i v => .write p i v

/-- There is no memory for a block. -/
def NoMemory (s : State) (alloc : ℕ → ℕ) (req : ℕ) : Prop :=
  ¬ s.Room req ∧ alloc (newPages (req + alignment + alignInfo)) = 0

/-- **A call that writes to 0**: `calloc` clears, and `realloc` copies to, what `malloc` has not been able to
allocate. -/
def WritesNull (x : ℕ × State) : Action → Prop
  | .calloc alloc _ nobj size => nobj * size ≠ 0 ∧ NoMemory x.2 alloc (nobj * size)
  | .realloc alloc _ p size =>
      (∃ v, x.2.block p = some v ∧ 0 < v.length ∧ v.length < size) ∧ NoMemory x.2 alloc size
  | _ => False

/-- `calloc` stops exactly for want of memory. -/
theorem calloc_stops_iff (h : Represents H s) {m : ℕ} (hlt : n * m < 2 ^ 31) (hp : s.Promised alloc (n * m))
    (hfuel : rounds H < fuel) :
    s.calloc alloc fuel n m = none ↔ n * m ≠ 0 ∧ NoMemory s alloc (n * m) := by
  have hsmall : Small (n * m) := by
    unfold Small alignment alignInfo header pageSize
    omega
  obtain ⟨y, hy, hnull⟩ := malloc_returns h hsmall hp hfuel
  unfold calloc NoMemory
  rw [Nat.mod_eq_of_lt (show n * m < 2 ^ 32 by omega), if_pos hlt, hy, Option.bind_some, ← hnull]
  change (if y.1 = 0 ∧ n * m ≠ 0 then none else _) = none ↔ _
  rw [and_comm (a := n * m ≠ 0)]
  split
  · next hstop => exact iff_of_true rfl hstop
  · next hstop => exact iff_of_false nofun hstop

/-- `realloc` stops exactly for want of memory for a larger block. -/
theorem realloc_stops_iff (h : Represents H s) (hset : Settled H) (hptr : p = 0 ∨ s.block p ≠ none) (hsmall : Small n)
    (hp : s.Promised alloc n) (hfuel : rounds H < fuel) :
    s.realloc alloc fuel p n = none ↔
      (∃ v, s.block p = some v ∧ 0 < v.length ∧ v.length < n) ∧ NoMemory s alloc n := by
  unfold realloc
  obtain rfl | hn := Nat.eq_zero_or_pos n
  · obtain ⟨s', hs', -⟩ := free_step ⟨H, h, hset⟩ hptr 0
    rw [if_pos rfl, hs']
    refine iff_of_false nofun ?_
    rintro ⟨⟨v, -, -, hlt⟩, -⟩
    omega
  rw [if_neg (Nat.ne_of_gt hn)]
  by_cases hp0 : p = 0
  · obtain ⟨y, hy, -⟩ := malloc_returns h hsmall hp hfuel
    rw [if_pos hp0, hy]
    refine iff_of_false nofun ?_
    rintro ⟨⟨v, hv, -⟩, -⟩
    obtain ⟨c, -, hc, -⟩ := (block_eq_some h).mp hv
    exact c.ptr_ne_zero (hc.trans hp0)
  rw [if_neg hp0]
  obtain ⟨v, hv⟩ := Option.ne_none_iff_exists'.mp (hptr.resolve_left hp0)
  obtain ⟨c, m, hc, rfl, rfl, haddr, hm, hmagic, hreq⟩ := header_of_block h hv
  dsimp only
  rw [haddr, hm, Option.bind_some, if_neg (not_not.mpr hmagic), hreq, hv]
  split
  · next hle =>
      obtain ⟨s', hs', -⟩ := resize_block h hset hc hle
      rw [hs']
      refine iff_of_false nofun ?_
      rintro ⟨⟨v, hv, -, hlt⟩, -⟩
      rw [← Option.some.inj hv, Chunk.length_content] at hlt
      omega
  · next hlt =>
      obtain ⟨y, hy, hnull⟩ := malloc_returns h hsmall hp hfuel
      -- the old block is shorter, so only its length can save the copy to the null pointer
      have hlen : (∃ v, some (c.content s.bytes) = some v ∧ 0 < v.length ∧ v.length < n) ↔ c.req ≠ 0 := by
        constructor
        · rintro ⟨v, hv, hpos, -⟩
          rw [← Option.some.inj hv, Chunk.length_content] at hpos
          omega
        · intro hne
          refine ⟨_, rfl, ?_, ?_⟩ <;> rw [Chunk.length_content] <;> omega
      unfold NoMemory
      rw [hy, Option.bind_some, hlen, ← hnull, and_comm (a := c.req ≠ 0)]
      split
      · next hstop => exact iff_of_true rfl hstop
      · next hstop =>
          refine iff_of_false ?_ hstop
          obtain ⟨h0, hrep, hbytes⟩ | ⟨H', d, rfl, hfresh⟩ := malloc_fresh h hsmall hp hy
          -- `malloc` gave nothing, and nothing is copied
          · have hzero : c.req = 0 := by
              by_contra hne
              exact hstop ⟨h0, hne⟩
            obtain ⟨s', hs', -⟩ := free_block hrep hset hc
            rw [hzero, h0, show y.2.memcpy 0 c.ptr 0 = y.2 from rfl, hs']
            exact nofun
          · obtain ⟨s', hs', -⟩ := realloc_move h hset hc (Nat.lt_of_not_le hlt) hfresh 0
            rw [hfresh.ptr, hs']
            exact nofun

/-- **Every call returns**, with enough rounds, but for those that write to 0. -/
theorem stops_iff (h : callers.Reach Allowed (0, .initial bytes) x) {a : Action} (ha : Allowed x a) :
    ∃ N, ∀ fuel, N ≤ fuel → (step x (a.withFuel fuel) = none ↔ WritesNull x a) := by
  obtain ⟨H, hrep, hset⟩ := good_of_reach h
  refine ⟨rounds H + 1, fun fuel hfuel => ?_⟩
  cases a with
  | malloc alloc _ req =>
      obtain ⟨y, hy, -⟩ := malloc_returns hrep ha.1 ha.2 hfuel
      exact iff_of_false (fun hnone => nomatch hnone.symm.trans hy) not_false
  | calloc alloc _ nobj size => exact calloc_stops_iff hrep ha.1 ha.2 hfuel
  | realloc alloc _ p size => exact realloc_stops_iff hrep hset ha.1 ha.2.1 ha.2.2 hfuel
  | free p =>
      obtain ⟨s', hs', -⟩ := free_step ⟨H, hrep, hset⟩ ha 0
      refine iff_of_false ?_ not_false
      change (x.2.free p).map _ ≠ none
      rw [hs']
      exact nofun
  | write p i v => exact iff_of_false nofun not_false

/-- A result of `malloc`, whatever the rounds: 0 where there is no memory. -/
theorem null_iff_noMemory (h : callers.Reach Allowed (0, .initial bytes) x) (hsmall : Small req)
    (hp : x.2.Promised alloc req) {y : ℕ × State} (hy : x.2.malloc alloc fuel req = some y) :
    y.1 = 0 ↔ NoMemory x.2 alloc req := by
  obtain ⟨H, hrep, -⟩ := good_of_reach h
  exact (malloc_returns hrep hsmall hp (Nat.lt_of_lt_of_le (Nat.lt_succ_self _) (Nat.le_max_right fuel _))).of_eq
    ((malloc_mono (Nat.le_max_left ..)).eq hy)

/-- Without pages, `calloc` writes to 0 where the gap is too small, and returns where it is not. -/
theorem stops_iff_gap : ∃ N, ∀ fuel, N ≤ fuel →
    oneGap.2.calloc (fun _ => 0) fuel 1 65300 = none ∧ oneGap.2.calloc (fun _ => 0) fuel 10 10 ≠ none := by
  have hpromised (req : ℕ) : oneGap.2.Promised (fun _ => 0) req := fun hne => absurd rfl hne
  have hallowed (n m : ℕ) (hlt : n * m < 2 ^ 31) : Allowed oneGap (.calloc (fun _ => 0) 0 n m) := ⟨hlt, hpromised _⟩
  obtain ⟨N₁, h₁⟩ := stops_iff reach_oneGap (hallowed 1 65300 (by decide))
  obtain ⟨N₂, h₂⟩ := stops_iff reach_oneGap (hallowed 10 10 (by decide))
  have hnull : (oneGap.2.malloc (fun _ => 0) 5 65300).map Prod.fst = some 0 := by decide
  have hfound : (oneGap.2.malloc (fun _ => 0) 5 100).map Prod.fst = some 65632 := by decide
  obtain ⟨y₁, hy₁, heq₁⟩ := Option.map_eq_some_iff.mp hnull
  obtain ⟨y₂, hy₂, heq₂⟩ := Option.map_eq_some_iff.mp hfound
  have hno : NoMemory oneGap.2 (fun _ => 0) 65300 :=
    (null_iff_noMemory reach_oneGap (by decide) (hpromised _) hy₁).mp heq₁
  have hroom : ¬ NoMemory oneGap.2 (fun _ => 0) 100 := fun hno =>
    absurd (heq₂.symm.trans ((null_iff_noMemory reach_oneGap (by decide) (hpromised _) hy₂).mpr hno)) (by decide)
  refine ⟨max N₁ N₂, fun fuel hfuel => ⟨?_, fun hnone => ?_⟩⟩
  · exact (h₁ fuel ((Nat.le_max_left ..).trans hfuel)).mpr ⟨by decide, hno⟩
  · exact hroom ((h₂ fuel ((Nat.le_max_right ..).trans hfuel)).mp hnone).2

end Scalux.Liballoc
