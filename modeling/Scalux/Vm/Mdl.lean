import Scalux.Kern.Config
import Scalux.Lib.Extend

/-! # Copying out of an MDL

`vm_mdl_copy` of `vm/vm_page.c` copies bytes of the pages of an MDL, which need not be next to each other in
physical memory, into a buffer.  Each iteration of its loop copies from one page.

* A page of an MDL is a value of some type: here its physical address, and where pages are allocated
  (`Scalux.Vm.MdlExpand`) the page itself.
* Memory is a function from physical addresses to bytes, read through the direct map.
* `none` stands for an index beyond the pages of the MDL.

Only the first page is copied from its middle, and the loop takes no account of that: a page after it is
always copied to a multiple of the page size, and a copy of at most a page is taken from the first page
even if it goes beyond its end.

* **`copyLoop_aligned`**: a copy that begins with a page is right.
* **`mdl_copy_iff`**: the copies that are right. -/

namespace Scalux.VmMdl

/-- `vm_mdl_t`, with pages of the type `α`. -/
structure Mdl (α : Type) where
  offset : ℤ
  nBytes : ℕ
  nPages : ℕ
  pages : List α
  deriving DecidableEq

/-- `vm_mdl_capacity`. -/
def vmMdlCapacity {α : Type} (mdl : Mdl α) : ℕ := mdl.nPages * pgSize % 2 ^ 64

/-- An MDL with the physical addresses of its pages, `pages[i]->paddr`, which are physical memory. -/
structure PhysMdl extends Mdl ℕ where
  length_eq : pages.length = nPages
  nPages_lt : nPages * pgSize < 2 ^ 64

/-- `memcpy(buf + dst, P2V(src), n)`. -/
def memcpy (mem : ℕ → UInt8) (buf : ℕ → UInt8) (dst src n : ℕ) : ℕ → UInt8 := fun j =>
  if dst ≤ j ∧ j < dst + n then mem (src + (j - dst)) else buf j

/-- The buffer and the variables of the loop, with the ranges that have been read. -/
structure Copy where
  buf : ℕ → UInt8
  nBytes : ℕ
  pageoff : ℕ
  reads : List (ℕ × ℕ)

section Loop

variable (mem : ℕ → UInt8) (pages : List ℕ) (firstpage : ℕ)

/-- `tocopy`. -/
def Copy.tocopy (s : Copy) : ℕ := if pgSize < s.nBytes then pgSize - s.pageoff else s.nBytes

/-- An iteration of the loop, with the page at `iPage`. -/
def copyPage (s : Copy) (iPage page : ℕ) : Copy where
  buf := memcpy mem s.buf ((iPage - firstpage) * pgSize) (page + s.pageoff) s.tocopy
  nBytes := s.nBytes - s.tocopy
  pageoff := 0
  reads := (page + s.pageoff, s.tocopy) :: s.reads

/-- `n` iterations of the loop, from `iPage` on. -/
def copyLoop : ℕ → ℕ → Copy → Option Copy
  | 0, _, s => some s
  | n + 1, iPage, s => do
      let page ← pages[iPage]?
      copyLoop n (iPage + 1) (copyPage mem firstpage s iPage page)

end Loop

/-- `vm_mdl_copy`.  `pageoff + nBytes - 1` is a `size_t`. -/
def vmMdlCopy (mem : ℕ → UInt8) (mdl : Mdl ℕ) (buf : ℕ → UInt8) (nBytes : ℕ) (off : ℤ) : Option Copy :=
  let off := ((off + mdl.offset) % 2 ^ 64).toNat
  let base := off / pgSize * pgSize
  let pageoff := off - base
  let firstpage := base / pgSize
  let lastpage := firstpage + decr64 (pageoff + nBytes) / pgSize + 1
  copyLoop mem mdl.pages firstpage (lastpage - firstpage) firstpage ⟨buf, nBytes, pageoff, []⟩

/-- The contents of the pages, one after the other. -/
def contents (mem : ℕ → UInt8) (pages : List ℕ) : List UInt8 :=
  pages.flatMap fun page => (List.range pgSize).map fun i : ℕ => mem (page + i)

/-- A range of addresses in the pages. -/
def InPages (pages : List ℕ) (r : ℕ × ℕ) : Prop :=
  ∀ i < r.2, ∃ page ∈ pages, page ≤ r.1 + i ∧ r.1 + i < page + pgSize

/-- What `vm_mdl_copy` is for: it ends, it reads the pages of the MDL only, and it assigns the bytes of the
pages to the buffer. -/
def CopiesExactly (mdl : Mdl ℕ) (nBytes : ℕ) (off : ℤ) : Prop :=
  ∀ mem buf, ∃ s, vmMdlCopy mem mdl buf nBytes off = some s ∧
    (∀ r ∈ s.reads, InPages mdl.pages r) ∧
    (∀ i < nBytes, (contents mem mdl.pages)[(mdl.offset + off).toNat + i]? = some (s.buf i)) ∧
    ∀ i, nBytes ≤ i → s.buf i = buf i

/-! ## Bytes of pages -/

variable {mem : ℕ → UInt8} {pages : List ℕ} {firstpage iPage page n k : ℕ} {s s' : Copy} {buf : ℕ → UInt8}

theorem pgSize_pos : 0 < pgSize := by decide

/-- The bytes of one page. -/
theorem getElem?_contents (hpage : pages[iPage]? = some page) {i : ℕ} (hi : i < pgSize) :
    (contents mem pages)[iPage * pgSize + i]? = some (mem (page + i)) := by
  have hdiv : (iPage * pgSize + i) / pgSize = iPage := by
    rw [Nat.mul_comm, Nat.mul_add_div pgSize_pos, Nat.div_eq_of_lt hi, Nat.add_zero]
  have hmod : (iPage * pgSize + i) % pgSize = i := by
    rw [Nat.mul_comm, Nat.mul_add_mod, Nat.mod_eq_of_lt hi]
  rw [contents, getElem?_flatMap_block (by simp) pgSize_pos, hdiv, hmod, hpage, Option.bind_some,
    List.getElem?_map, List.getElem?_range hi, Option.map_some]

/-- A range within a page. -/
theorem inPages_of_le (hpage : page ∈ pages) {i : ℕ} (hle : i + n ≤ pgSize) :
    InPages pages (page + i, n) := by
  intro j hj
  dsimp only at hj ⊢
  exact ⟨page, hpage, by omega, by omega⟩

/-! ## The loop -/

/-- The loop does not go beyond the pages. -/
theorem copyLoop_beyond (hlt : pages.length < iPage + n) (hle : iPage ≤ pages.length) :
    copyLoop mem pages firstpage n iPage s = none := by
  induction n generalizing iPage s with
  | zero => omega
  | succ n ih =>
      rw [copyLoop]
      cases hpage : pages[iPage]? with
      | none => rfl
      | some page =>
          have hin : iPage < pages.length := (List.getElem?_eq_some_iff.mp hpage).1
          exact ih (by omega) hin

/-- The loop does not come back to the part of the buffer that it has left. -/
theorem copyLoop_before (h : copyLoop mem pages firstpage n iPage s = some s') (hge : firstpage ≤ iPage)
    {j : ℕ} (hj : j < (iPage - firstpage) * pgSize) : s'.buf j = s.buf j := by
  induction n generalizing iPage s with
  | zero =>
      obtain rfl : s = s' := Option.some.inj h
      rfl
  | succ n ih =>
      rw [copyLoop] at h
      obtain ⟨page, -, h⟩ := Option.bind_eq_some_iff.mp h
      have hnext : iPage + 1 - firstpage = iPage - firstpage + 1 := by omega
      rw [ih h (by omega) (by rw [hnext, Nat.succ_mul]; omega)]
      exact if_neg fun hin => Nat.not_lt.mpr hin.1 hj

/-- **From the beginning of a page on**, the loop copies the rest. -/
theorem copyLoop_aligned (hk : (s.nBytes - 1) / pgSize + 1 = k) (hpos : 0 < s.nBytes)
    (hoff : s.pageoff = 0) (hge : firstpage ≤ iPage) (hlen : iPage + k ≤ pages.length) :
    ∃ s', copyLoop mem pages firstpage k iPage s = some s' ∧
      (∀ i < s.nBytes, (contents mem pages)[iPage * pgSize + i]?
        = some (s'.buf ((iPage - firstpage) * pgSize + i))) ∧
      (∀ j, j < (iPage - firstpage) * pgSize ∨ (iPage - firstpage) * pgSize + s.nBytes ≤ j →
        s'.buf j = s.buf j) ∧
      ∀ r ∈ s'.reads, r ∈ s.reads ∨ InPages pages r := by
  have hP : 0 < pgSize := pgSize_pos
  -- by the number of pages, each copied from its first byte
  induction k generalizing iPage s with
  | zero => exact absurd hk (Nat.succ_ne_zero _)
  | succ k ih =>
      have hlt : iPage < pages.length := by omega
      have hpage : pages[iPage]? = some pages[iPage] := List.getElem?_eq_getElem hlt
      have hmem : pages[iPage] ∈ pages := List.getElem_mem hlt
      rw [copyLoop, hpage, Option.bind_eq_bind, Option.bind_some]
      generalize pages[iPage] = page at hpage hmem
      have hstart : page + s.pageoff = page := by rw [hoff, Nat.add_zero]
      rcases Nat.lt_or_ge pgSize s.nBytes with hmore | hlast
      · -- a whole page, and more to come
        have htocopy : s.tocopy = pgSize := by rw [Copy.tocopy, if_pos hmore, hoff, Nat.sub_zero]
        have hnext : iPage + 1 - firstpage = iPage - firstpage + 1 := by omega
        have hdst : (iPage + 1 - firstpage) * pgSize = (iPage - firstpage) * pgSize + pgSize := by
          rw [hnext, Nat.succ_mul]
        have hrest : (s.nBytes - pgSize - 1) / pgSize + 1 = k := by
          have hdiv := Nat.div_eq_sub_div hP (a := s.nBytes - 1) (by omega)
          have hsub : s.nBytes - pgSize - 1 = s.nBytes - 1 - pgSize := by omega
          rw [hsub]
          omega
        obtain ⟨s', hs', hbytes, hother, hreads⟩ := @ih (iPage + 1) (copyPage mem firstpage s iPage page)
          (by dsimp only [copyPage]; rw [htocopy]; exact hrest) (by dsimp only [copyPage]; omega) rfl
          (by omega) (by omega)
        dsimp only [copyPage] at hbytes hother hreads
        rw [htocopy] at hbytes
        rw [htocopy, hstart] at hother hreads
        rw [hdst] at hbytes hother
        refine ⟨s', hs', fun i hi => ?_, fun j hj => ?_, fun r hr => ?_⟩
        · rcases Nat.lt_or_ge i pgSize with hlow | hhigh
          · rw [getElem?_contents hpage hlow, hother _ (by omega), memcpy, if_pos (by omega),
              Nat.add_sub_cancel_left]
          · have hi' := hbytes (i - pgSize) (by omega)
            have hsrc : (iPage + 1) * pgSize + (i - pgSize) = iPage * pgSize + i := by
              rw [Nat.succ_mul]
              omega
            have hdst' : (iPage - firstpage) * pgSize + pgSize + (i - pgSize)
                = (iPage - firstpage) * pgSize + i := by omega
            rw [hsrc, hdst'] at hi'
            exact hi'
        · rw [hother j (by omega), memcpy, if_neg (by omega)]
        · rcases hreads r hr with hr | hr
          · rcases List.mem_cons.mp hr with rfl | hr
            · exact .inr (inPages_of_le (i := 0) hmem (by omega))
            · exact .inl hr
          · exact .inr hr
      · -- the last page
        have htocopy : s.tocopy = s.nBytes := by rw [Copy.tocopy, if_neg (by omega)]
        have hone : k = 0 := by
          have hdiv := Nat.div_eq_of_lt (show s.nBytes - 1 < pgSize by omega)
          omega
        subst hone
        refine ⟨_, rfl, fun i hi => ?_, fun j hj => ?_, fun r hr => ?_⟩
        · dsimp only [copyPage]
          rw [getElem?_contents hpage (by omega), htocopy, hstart, memcpy, if_pos (by omega),
            Nat.add_sub_cancel_left]
        · dsimp only [copyPage]
          rw [htocopy, memcpy, if_neg (by omega)]
        · rcases List.mem_cons.mp hr with rfl | hr
          · rw [htocopy, hstart]
            exact .inr (inPages_of_le (i := 0) hmem (by omega))
          · exact .inl hr

/-! ## `vm_mdl_copy` -/

variable {mdl : PhysMdl} {nBytes : ℕ} {off : ℤ}

/-- The pages of an MDL are fewer bytes than there are addresses: `pages.length * PGSIZE < 2 ^ 64`. -/
theorem PhysMdl.length_lt (mdl : PhysMdl) : mdl.pages.length * pgSize < 2 ^ 64 :=
  mdl.length_eq ▸ mdl.nPages_lt

/-- The capacity is the size of the pages: `pages.length * PGSIZE`. -/
theorem PhysMdl.capacity_eq (mdl : PhysMdl) : vmMdlCapacity mdl.toMdl = mdl.pages.length * pgSize := by
  rw [vmMdlCapacity, mdl.length_eq, Nat.mod_eq_of_lt mdl.nPages_lt]

/-- The first page and the offset in it. -/
theorem vmMdlCopy_eq (hpos : 0 ≤ mdl.offset + off) (hcap : mdl.offset + off + nBytes ≤ vmMdlCapacity mdl.toMdl) :
    vmMdlCopy mem mdl.toMdl buf nBytes off
      = copyLoop mem mdl.pages ((mdl.offset + off).toNat / pgSize)
          (decr64 ((mdl.offset + off).toNat % pgSize + nBytes) / pgSize + 1)
          ((mdl.offset + off).toNat / pgSize)
          ⟨buf, nBytes, (mdl.offset + off).toNat % pgSize, []⟩ := by
  have hlt := mdl.length_lt
  rw [mdl.capacity_eq] at hcap
  have hoff : ((off + mdl.offset) % 2 ^ 64).toNat = (mdl.offset + off).toNat := by
    rw [Int.emod_eq_of_lt (by omega) (by omega), Int.add_comm]
  unfold vmMdlCopy
  rw [hoff]
  generalize (mdl.offset + off).toNat = o
  have hbase : o / pgSize * pgSize / pgSize = o / pgSize := Nat.mul_div_cancel _ pgSize_pos
  have hpageoff : o - o / pgSize * pgSize = o % pgSize := by
    rw [Nat.mul_comm]
    exact (Nat.mod_eq_sub_mul_div).symm
  dsimp only
  rw [hbase, hpageoff, Nat.add_assoc (o / pgSize), Nat.add_sub_cancel_left]

/-- An iteration that has nothing left to copy. -/
theorem copyPage_zero (mem : ℕ → UInt8) (firstpage iPage page : ℕ) (hn : s.nBytes = 0) :
    (copyPage mem firstpage s iPage page).buf = s.buf ∧
    (copyPage mem firstpage s iPage page).reads = (page + s.pageoff, 0) :: s.reads := by
  have htocopy : s.tocopy = 0 := by
    rw [Copy.tocopy, hn]
    rfl
  unfold copyPage memcpy
  rw [htocopy]
  refine ⟨funext fun j => if_neg fun hj => ?_, rfl⟩
  omega

/-- A copy of at most a page takes all its bytes from the first page on; if it goes beyond the end of that
page, one more iteration copies nothing. -/
theorem copyLoop_within (hpage : pages[firstpage]? = some page) (hn : s.nBytes ≤ pgSize)
    (hk : k = 1 ∨ k = 2 ∧ firstpage + 1 < pages.length) :
    ∃ s', copyLoop mem pages firstpage k firstpage s = some s' ∧
      s'.buf = memcpy mem s.buf 0 (page + s.pageoff) s.nBytes ∧
      ∀ r ∈ s'.reads, r = (page + s.pageoff, s.nBytes) ∨ r.2 = 0 ∨ r ∈ s.reads := by
  have htocopy : s.tocopy = s.nBytes := by rw [Copy.tocopy, if_neg (Nat.not_lt.mpr hn)]
  have hbuf : (copyPage mem firstpage s firstpage page).buf
      = memcpy mem s.buf 0 (page + s.pageoff) s.nBytes := by
    unfold copyPage
    rw [htocopy, Nat.sub_self, Nat.zero_mul]
  have hreads : (copyPage mem firstpage s firstpage page).reads
      = (page + s.pageoff, s.nBytes) :: s.reads := by
    unfold copyPage
    rw [htocopy]
  -- a second round, when the loop makes one, copies nothing
  rcases hk with rfl | ⟨rfl, hlt⟩
  · refine ⟨copyPage mem firstpage s firstpage page, ?_, hbuf, fun r hr => ?_⟩
    · rw [copyLoop, hpage]
      rfl
    · rw [hreads] at hr
      exact (List.mem_cons.mp hr).imp_right .inr
  · have hnext : pages[firstpage + 1]? = some pages[firstpage + 1] := List.getElem?_eq_getElem hlt
    have hzero : (copyPage mem firstpage s firstpage page).nBytes = 0 := by
      show s.nBytes - s.tocopy = 0
      rw [htocopy, Nat.sub_self]
    obtain ⟨hbuf', hreads'⟩ := copyPage_zero mem firstpage (firstpage + 1) pages[firstpage + 1] hzero
    refine ⟨copyPage mem firstpage (copyPage mem firstpage s firstpage page) (firstpage + 1)
      pages[firstpage + 1], ?_, hbuf'.trans hbuf, fun r hr => ?_⟩
    · rw [copyLoop, hpage]
      show copyLoop mem pages firstpage 1 (firstpage + 1) _ = _
      rw [copyLoop, hnext]
      rfl
    · rw [hreads', hreads] at hr
      rcases List.mem_cons.mp hr with rfl | hr
      · exact .inr (.inl rfl)
      · exact (List.mem_cons.mp hr).imp_right .inr

/-- A copy of more than a page from the middle of one leaves a gap in the buffer. -/
theorem copyLoop_gap (hn : pgSize < s.nBytes) (hoff : 0 < s.pageoff) (hlt : s.pageoff < pgSize)
    (h : copyLoop mem pages firstpage (k + 1) firstpage s = some s') :
    s'.buf (pgSize - s.pageoff) = s.buf (pgSize - s.pageoff) := by
  rw [copyLoop] at h
  obtain ⟨page, -, h⟩ := Option.bind_eq_some_iff.mp h
  have htocopy : s.tocopy = pgSize - s.pageoff := if_pos hn
  rw [copyLoop_before h (by omega) (by rw [Nat.add_sub_cancel_left]; omega)]
  unfold copyPage memcpy
  dsimp only
  rw [htocopy, Nat.sub_self, Nat.zero_mul]
  exact if_neg (by omega)

/-! ## Which copies are right -/

/-- The loop from the first page on does what `vm_mdl_copy` is for. -/
def LoopOk (mdl : Mdl ℕ) (nBytes firstpage pageoff : ℕ) (mem buf : ℕ → UInt8) : Prop :=
  ∃ s, copyLoop mem mdl.pages firstpage (decr64 (pageoff + nBytes) / pgSize + 1) firstpage
      ⟨buf, nBytes, pageoff, []⟩ = some s ∧
    (∀ r ∈ s.reads, InPages mdl.pages r) ∧
    (∀ i < nBytes, (contents mem mdl.pages)[firstpage * pgSize + pageoff + i]? = some (s.buf i)) ∧
    ∀ i, nBytes ≤ i → s.buf i = buf i

section Cases

variable {pageoff : ℕ} (hlen : firstpage * pgSize + pageoff + nBytes ≤ mdl.pages.length * pgSize)

include hlen

/-- An empty copy from the beginning of a page on does not end within the MDL. -/
theorem not_loopOk_empty (hoff : pageoff = 0) (hn : nBytes = 0) :
    ¬ LoopOk mdl.toMdl nBytes firstpage pageoff mem buf := by
  rintro ⟨s, hs, -⟩
  have hlt := mdl.length_lt
  have hcount : decr64 (0 + 0) / pgSize + 1 = 2 ^ 52 := by decide
  subst hoff hn
  rw [pgSize] at hlen hlt
  rw [hcount, copyLoop_beyond (by omega) (by omega)] at hs
  cases hs

/-- From the beginning of a page on. -/
theorem loopOk_aligned (hoff : pageoff = 0) (hn : 0 < nBytes) :
    LoopOk mdl.toMdl nBytes firstpage pageoff mem buf := by
  have hlt := mdl.length_lt
  subst hoff
  unfold LoopOk
  have hfits : firstpage + ((nBytes - 1) / pgSize + 1) ≤ mdl.pages.length := by
    rw [pgSize] at hlen ⊢
    omega
  have hcount : decr64 (0 + nBytes) = nBytes - 1 := by
    rw [Nat.zero_add, decr64_eq hn (by rw [pgSize] at hlen hlt; omega)]
  obtain ⟨s, hs, hbytes, hother, hreads⟩ := copyLoop_aligned (s := ⟨buf, nBytes, 0, []⟩) rfl hn rfl
    (Nat.le_refl firstpage) hfits
  rw [Nat.sub_self, Nat.zero_mul] at hbytes hother
  rw [hcount]
  refine ⟨s, hs, fun r hr => (hreads r hr).resolve_left (by simp), fun i hi => ?_, fun i hi => ?_⟩
  · rw [Nat.add_zero, hbytes i hi, Nat.zero_add]
  · exact hother i (.inr (by dsimp only; omega))

/-- A copy of at most a page, from the middle of a page. -/
theorem loopOk_within (hoff : 0 < pageoff) (hlt : pageoff < pgSize) (hn : nBytes ≤ pgSize) :
    ∃ s page, mdl.pages[firstpage]? = some page ∧
      copyLoop mem mdl.pages firstpage (decr64 (pageoff + nBytes) / pgSize + 1) firstpage
        ⟨buf, nBytes, pageoff, []⟩ = some s ∧
      s.buf = memcpy mem buf 0 (page + pageoff) nBytes ∧
      ∀ r ∈ s.reads, r = (page + pageoff, nBytes) ∨ r.2 = 0 := by
  have hsize := mdl.length_lt
  have hcount : decr64 (pageoff + nBytes) = pageoff + nBytes - 1 := by
    rw [pgSize] at hlt hn
    exact decr64_eq (by omega) (by omega)
  have hpage : firstpage < mdl.pages.length := by
    rw [pgSize] at hlen
    omega
  -- a request inside one page, or across one boundary: the loop runs once or twice
  have hk : (pageoff + nBytes - 1) / pgSize + 1 = 1 ∨
      (pageoff + nBytes - 1) / pgSize + 1 = 2 ∧ firstpage + 1 < mdl.pages.length := by
    rw [pgSize] at hlen hlt hn ⊢
    omega
  obtain ⟨s, hs, hbuf, hreads⟩ := copyLoop_within (s := ⟨buf, nBytes, pageoff, []⟩)
    (List.getElem?_eq_getElem hpage) hn hk
  rw [hcount]
  refine ⟨s, mdl.pages[firstpage], List.getElem?_eq_getElem hpage, hs, hbuf, fun r hr => ?_⟩
  rcases hreads r hr with hr | hr | hr
  · exact .inl hr
  · exact .inr hr
  · cases hr

/-- A copy of at most a page is right if its bytes follow each other in memory. -/
theorem loopOk_of_consecutive (hoff : 0 < pageoff) (hlt : pageoff < pgSize) (hn : nBytes ≤ pgSize)
    (hnext : pageoff + nBytes ≤ pgSize ∨
      mdl.pages[firstpage + 1]? = (mdl.pages[firstpage]?).map (· + pgSize)) :
    LoopOk mdl.toMdl nBytes firstpage pageoff mem buf := by
  obtain ⟨s, page, hpage, hs, hbuf, hreads⟩ := loopOk_within hlen hoff hlt hn
  rw [hpage, Option.map_some] at hnext
  have hmem : page ∈ mdl.pages := List.mem_of_getElem? hpage
  have hbytes : ∀ i < nBytes, ∃ page' ∈ mdl.pages, page' ≤ page + pageoff + i ∧
      page + pageoff + i < page' + pgSize ∧
      (contents mem mdl.pages)[firstpage * pgSize + pageoff + i]? = some (mem (page + pageoff + i)) := by
    intro i hi
    rcases Nat.lt_or_ge (pageoff + i) pgSize with hlow | hhigh
    · refine ⟨page, hmem, by omega, by omega, ?_⟩
      rw [Nat.add_assoc, getElem?_contents hpage hlow, Nat.add_assoc]
    -- the byte is behind the first page, and the next page follows it in memory
    · have hnext := hnext.resolve_left (by omega)
      refine ⟨page + pgSize, List.mem_of_getElem? hnext, by omega, by omega, ?_⟩
      have hidx : firstpage * pgSize + pageoff + i = (firstpage + 1) * pgSize + (pageoff + i - pgSize) := by
        rw [Nat.succ_mul]
        omega
      have hsrc : page + pgSize + (pageoff + i - pgSize) = page + pageoff + i := by omega
      rw [hidx, getElem?_contents hnext (by omega), hsrc]
  refine ⟨s, hs, fun r hr i hi => ?_, fun i hi => ?_, fun i hi => ?_⟩
  · rcases hreads r hr with rfl | hzero
    · obtain ⟨page', hmem', hge, hlt', -⟩ := hbytes i hi
      exact ⟨page', hmem', hge, hlt'⟩
    · rw [hzero] at hi
      exact absurd hi (Nat.not_lt_zero i)
  · obtain ⟨-, -, -, -, heq⟩ := hbytes i hi
    rw [heq, hbuf, memcpy, if_pos (by omega), Nat.sub_zero]
  · rw [hbuf, memcpy, if_neg (by omega)]

/-- Of a copy that goes beyond the end of the first page, and is right for all contents of the pages, the
next page of the MDL follows the first. -/
theorem consecutive_of_loopOk (hoff : 0 < pageoff) (hlt : pageoff < pgSize) (hn : nBytes ≤ pgSize)
    (hcross : pgSize < pageoff + nBytes) (h : ∀ mem buf, LoopOk mdl.toMdl nBytes firstpage pageoff mem buf) :
    mdl.pages[firstpage + 1]? = (mdl.pages[firstpage]?).map (· + pgSize) := by
  have hpage : firstpage + 1 < mdl.pages.length := by
    rw [pgSize] at hlen hcross
    omega
  have hnext : mdl.pages[firstpage + 1]? = some mdl.pages[firstpage + 1] := List.getElem?_eq_getElem hpage
  generalize mdl.pages[firstpage + 1] = next at hnext
  obtain ⟨-, page, hpage, -⟩ := @loopOk_within (fun _ => 0) _ (fun _ => 0) _ _ _ hlen hoff hlt hn
  rw [hnext, hpage, Option.map_some]
  -- the byte after the end of the first page is one, all others are zero
  obtain ⟨s, hs, -, hbytes, -⟩ := h (fun a => if a = page + pgSize then 1 else 0) fun _ => 0
  obtain ⟨s', page', hpage', hs', hbuf, -⟩ := loopOk_within hlen hoff hlt hn
  obtain rfl : s' = s := Option.some.inj (hs'.symm.trans hs)
  obtain rfl : page' = page := Option.some.inj (hpage'.symm.trans hpage)
  have hbyte := hbytes (pgSize - pageoff) (by omega)
  have hidx : firstpage * pgSize + pageoff + (pgSize - pageoff) = (firstpage + 1) * pgSize + 0 := by
    rw [Nat.succ_mul]
    omega
  have hsrc : page' + pageoff + (pgSize - pageoff) = page' + pgSize := by omega
  have hcopied : s'.buf (pgSize - pageoff) = 1 := by
    rw [hbuf, memcpy, if_pos (by omega), Nat.sub_zero, hsrc, if_pos rfl]
  rw [hidx, getElem?_contents hnext pgSize_pos, hcopied, Nat.add_zero] at hbyte
  by_contra hne
  have hne : next ≠ page' + pgSize := fun heq => hne (congrArg some heq)
  rw [if_neg hne] at hbyte
  exact absurd (Option.some.inj hbyte) (by decide)

/-- A copy of more than a page from the middle of a page is wrong. -/
theorem not_loopOk_gap (hoff : 0 < pageoff) (hlt : pageoff < pgSize) (hn : pgSize < nBytes) :
    ¬ LoopOk mdl.toMdl nBytes firstpage pageoff (fun _ => 0) fun _ => 1 := by
  rintro ⟨s, hs, -, hbytes, -⟩
  have hgap : s.buf (pgSize - pageoff) = 1 := copyLoop_gap hn hoff hlt hs
  have hpage : firstpage + 1 < mdl.pages.length := by
    rw [pgSize] at hlen hn
    omega
  have hbyte := hbytes (pgSize - pageoff) (by omega)
  have hidx : firstpage * pgSize + pageoff + (pgSize - pageoff) = (firstpage + 1) * pgSize + 0 := by
    rw [Nat.succ_mul]
    omega
  rw [hidx, getElem?_contents (List.getElem?_eq_getElem hpage) pgSize_pos, hgap] at hbyte
  exact absurd (Option.some.inj hbyte) (by decide)

end Cases

/-- The copies that are right: from the beginning of a page on, and not empty; within a page, and not from
its beginning; of at most a page, with the next page of the MDL directly after the first. -/
def Regular (mdl : Mdl ℕ) (nBytes o : ℕ) : Prop :=
  if o % pgSize = 0 then 0 < nBytes
  else o % pgSize + nBytes ≤ pgSize ∨ nBytes ≤ pgSize ∧
    mdl.pages[o / pgSize + 1]? = (mdl.pages[o / pgSize]?).map (· + pgSize)

/-- `vm_mdl_copy` is right if the loop is, for all contents of the pages. -/
theorem copiesExactly_iff (hpos : 0 ≤ mdl.offset + off)
    (hcap : mdl.offset + off + nBytes ≤ vmMdlCapacity mdl.toMdl) :
    CopiesExactly mdl.toMdl nBytes off ↔ ∀ mem buf, LoopOk mdl.toMdl nBytes ((mdl.offset + off).toNat / pgSize)
      ((mdl.offset + off).toNat % pgSize) mem buf := by
  have heq : ∀ mem buf, vmMdlCopy mem mdl.toMdl buf nBytes off = _ := fun mem buf => vmMdlCopy_eq hpos hcap
  unfold CopiesExactly LoopOk
  simp only [heq, Nat.div_add_mod']

/-- A copy within the pages, by the first page and the offset in it. -/
theorem split_le (hpos : 0 ≤ mdl.offset + off) (hcap : mdl.offset + off + nBytes ≤ vmMdlCapacity mdl.toMdl) :
    (mdl.offset + off).toNat / pgSize * pgSize + (mdl.offset + off).toNat % pgSize + nBytes
      ≤ mdl.pages.length * pgSize := by
  rw [Nat.div_add_mod']
  rw [mdl.capacity_eq] at hcap
  omega

/-- A regular copy is right. -/
theorem copiesExactly_of_regular (hpos : 0 ≤ mdl.offset + off)
    (hcap : mdl.offset + off + nBytes ≤ vmMdlCapacity mdl.toMdl)
    (h : Regular mdl.toMdl nBytes (mdl.offset + off).toNat) : CopiesExactly mdl.toMdl nBytes off := by
  have hle := split_le hpos hcap
  have hmod := Nat.mod_lt (mdl.offset + off).toNat pgSize_pos
  rw [copiesExactly_iff hpos hcap]
  intro mem buf
  unfold Regular at h
  split at h
  · rename_i hzero
    exact loopOk_aligned hle hzero h
  · rename_i hoff
    have hoff := Nat.pos_of_ne_zero hoff
    rcases h with hin | ⟨hn, hnext⟩
    · exact loopOk_of_consecutive hle hoff hmod (by omega) (.inl hin)
    · exact loopOk_of_consecutive hle hoff hmod hn (.inr hnext)

/-- **Copying out of an MDL.** `vm_mdl_copy` copies the bytes that it is asked for, for all contents of the
pages, exactly if the copy is regular. -/
theorem mdl_copy_iff (hpos : 0 ≤ mdl.offset + off)
    (hcap : mdl.offset + off + nBytes ≤ vmMdlCapacity mdl.toMdl) :
    CopiesExactly mdl.toMdl nBytes off ↔ Regular mdl.toMdl nBytes (mdl.offset + off).toNat := by
  refine ⟨fun h => ?_, copiesExactly_of_regular hpos hcap⟩
  have hle := split_le hpos hcap
  have hmod := Nat.mod_lt (mdl.offset + off).toNat pgSize_pos
  rw [copiesExactly_iff hpos hcap] at h
  unfold Regular
  split
  · rename_i hzero
    refine Nat.pos_of_ne_zero fun hn => ?_
    exact not_loopOk_empty hle hzero hn (h (fun _ => 0) fun _ => 0)
  · rename_i hoff
    have hoff := Nat.pos_of_ne_zero hoff
    refine (Nat.lt_or_ge pgSize _).symm.imp_right fun hcross => ?_
    have hn : nBytes ≤ pgSize := Nat.le_of_not_lt fun hn =>
      not_loopOk_gap hle hoff hmod hn (h (fun _ => 0) fun _ => 1)
    exact ⟨hn, consecutive_of_loopOk hle hoff hmod hn hcross h⟩

/-- Two pages that are not next to each other. -/
def twoPages : PhysMdl where
  offset := 0
  nBytes := 8192
  nPages := 2
  pages := [0x5000, 0x2000]
  length_eq := rfl
  nPages_lt := by decide

/-- A copy of both pages, from the beginning. -/
theorem mdl_copy_iff_whole : CopiesExactly twoPages.toMdl 8192 0 :=
  (mdl_copy_iff (by decide) (by decide)).mpr (by unfold Regular; decide)

/-- **A copy across the end of a page.** Of 128 bytes at offset 4000 the last 32 come from the page that
follows in physical memory. -/
theorem mdl_copy_crosses : ¬ ∀ (mdl : PhysMdl) (nBytes : ℕ) (off : ℤ), 0 ≤ mdl.offset + off →
    mdl.offset + off + nBytes ≤ vmMdlCapacity mdl.toMdl → CopiesExactly mdl.toMdl nBytes off := by
  intro h
  have hpos : 0 ≤ twoPages.offset + 4000 := by decide
  have hcap : twoPages.offset + 4000 + (128 : ℕ) ≤ vmMdlCapacity twoPages.toMdl := by decide
  have hok : ∀ mem buf, LoopOk twoPages.toMdl 128 0 4000 mem buf := by
    intro mem buf
    obtain ⟨s, hs, hs'⟩ := h twoPages 128 4000 hpos hcap mem buf
    rw [vmMdlCopy_eq hpos hcap] at hs
    exact ⟨s, hs, hs'⟩
  have hnext := consecutive_of_loopOk (by decide) (by decide) (by decide) (by decide) (by decide) hok
  exact absurd hnext (by decide)

end Scalux.VmMdl
