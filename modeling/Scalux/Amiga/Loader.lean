import Mathlib.Data.List.MinMax
import Mathlib.Data.List.Pairwise
import Mathlib.Tactic.NormNum
import Scalux.Lib.Partial
import Scalux.Lib.Rows
import Scalux.Lib.Uint64

/-! # The loader of the Amiga

`main` of `amiga/stand/loadscalux.c`: the kernel's ELF file is read into a block of memory, segment by segment,
and its relative relocations are carried out.

* The file is a list of bytes, most significant byte first; a segment's bytes are read to where it belongs,
  and what it has in memory beyond them is to be zero.  The loader assigns zeroes to as many bytes *before* the
  segment.
* `AllocMem` returns a block that is somewhere in the memory; to assign outside of it has no meaning.
* `err` exits, and a failed assertion aborts; neither reaches the end of the loop.
* The array and the number of relocations come from the dynamic section; the results are about any.

* **`loadSegments_out`**: what the segment loop leaves alone.
* **`loader_iff`**: the files that are loaded as they should be. -/

namespace Scalux.Amiga

/-- The memory of the machine. -/
abbrev Mem := ℕ → UInt8

/-- `PGSIZE`. -/
def pgSize : ℕ := 0x1000

/-- `PT_LOAD`. -/
def ptLoad : ℕ := 1

/-- `EM_68K`. -/
def em68k : ℕ := 4

/-- `R_68K_RELATIVE`. -/
def r68kRelative : ℕ := 22

/-- `Elf32_Phdr`, as far as the loader looks at it. -/
structure Phdr where
  type : ℕ
  offset : ℕ
  vaddr : ℕ
  filesz : ℕ
  memsz : ℕ
  deriving DecidableEq

/-- `Elf32_Rela`. -/
structure Rela where
  offset : ℕ
  info : ℕ
  addend : ℕ
  deriving DecidableEq

/-- Why a loop does not reach its end. -/
inductive Stop
  /-- `err`. -/
  | exit
  /-- A failed assertion. -/
  | abort
  /-- An access outside of the block. -/
  | outside
  deriving DecidableEq

/-! ## The headers -/

/-- The number that some bytes are. -/
def number (l : List UInt8) : ℕ := l.foldl (fun n byte => n * 256 + byte.toNat) 0

/-- A field of `n` bytes at an offset. -/
def field (file : List UInt8) (offset n : ℕ) : ℕ := number ((file.drop offset).take n)

/-- The program header at an offset. -/
def readPhdr (file : List UInt8) (o : ℕ) : Phdr where
  type := field file o 4
  offset := field file (o + 4) 4
  vaddr := field file (o + 8) 4
  filesz := field file (o + 16) 4
  memsz := field file (o + 20) 4

/-- `e_phnum`. -/
def phnum (file : List UInt8) : ℕ := field file 44 2

/-- The ELF header is read and checked, and the program headers behind it are read.  `elfmag` is what
`e_ident` is compared with, `sizeof ELFMAG` bytes of `ELFMAG`. -/
def readHeaders (elfmag file : List UInt8) : Except Stop (List Phdr) :=
  if file.length < 52 then .error .exit
  else if file.take elfmag.length ≠ elfmag ∨ field file 18 2 ≠ em68k then .error .abort
  else if file.length < 52 + 32 * phnum file then .error .exit
  else .ok ((List.range (phnum file)).map fun i => readPhdr file (52 + 32 * i))

/-- `size`, as it is passed to `AllocMem`. -/
def imageSize (phdrs : List Phdr) : ℕ :=
  (phdrs.foldl (fun size phdr => max size ((phdr.vaddr + phdr.memsz) % 2 ^ 32)) 0 + pgSize) % 2 ^ 32

/-- A block that `AllocMem` returns. -/
structure Block (size : ℕ) where
  start : ℕ
  start_pos : 0 < start
  le : start + size ≤ 2 ^ 32

variable {size : ℕ}

/-- `base`. -/
def Block.base (b : Block size) : ℕ := (b.start + (pgSize - 1)) % 2 ^ 32 / pgSize * pgSize

/-- Some bytes at an address are in the block. -/
def Block.Covers (b : Block size) (a n : ℕ) : Prop := b.start ≤ a ∧ a + n ≤ b.start + size

instance (b : Block size) (a n : ℕ) : Decidable (b.Covers a n) := inferInstanceAs (Decidable (_ ∧ _))

/-- Assigning some bytes at an address. -/
def put (b : Block size) (mem : Mem) (a : ℕ) (l : List UInt8) : Except Stop Mem :=
  if l = [] ∨ b.Covers a l.length then .ok (assignRow mem a l) else .error .outside

/-! ## The segment loop -/

section Segments

variable (file : List UInt8) (b : Block size)

/-- The bytes of a segment that `fread` finds in the file. -/
def fileBytes (phdr : Phdr) : List UInt8 := (file.drop phdr.offset).take phdr.filesz

/-- `excess`. -/
def Phdr.excess (phdr : Phdr) : ℕ := sub32 phdr.memsz phdr.filesz

/-- An iteration of the segment loop for a `PT_LOAD` header.  The offset that `fseek` is given is a `long`. -/
def loadSegment (mem : Mem) (phdr : Phdr) : Except Stop Mem :=
  if 2 ^ 31 ≤ phdr.offset then .error .exit
  else
    (put b mem (b.base + phdr.vaddr) (fileBytes file phdr)).bind fun mem =>
      if (fileBytes file phdr).length ≠ phdr.filesz then .error .exit
      else if 0 < phdr.excess then
        put b mem (b.base + phdr.vaddr - phdr.excess) (List.replicate phdr.excess 0)
      else .ok mem

/-- The segment loop. -/
def loadSegments : List Phdr → Mem → Except Stop Mem
  | [], mem => .ok mem
  | phdr :: phdrs, mem =>
      if phdr.type = ptLoad then (loadSegment file b mem phdr).bind (loadSegments phdrs)
      else loadSegments phdrs mem

/-- The bytes of a segment can be read. -/
def Readable (phdr : Phdr) : Prop := phdr.offset < 2 ^ 31 ∧ (fileBytes file phdr).length = phdr.filesz

/-- Every segment can be read. -/
def AllReadable (phdrs : List Phdr) : Prop := ∀ phdr ∈ phdrs, phdr.type = ptLoad → Readable file phdr

/-- A segment is in memory. -/
structure InMemory (mem : Mem) (phdr : Phdr) : Prop where
  bytes : ∀ i < phdr.filesz, file[phdr.offset + i]? = some (mem (b.base + phdr.vaddr + i))
  zero : ∀ i, phdr.filesz ≤ i → i < phdr.memsz → mem (b.base + phdr.vaddr + i) = 0

/-- What the segment loop is for, whatever is in memory before, if no `err` exits. -/
def Loads (phdrs : List Phdr) : Prop :=
  AllReadable file phdrs → ∀ mem, ∃ mem', loadSegments file b phdrs mem = .ok mem' ∧
    ∀ phdr ∈ phdrs, phdr.type = ptLoad → InMemory file b mem' phdr

/-- What is read of a segment goes to the block. -/
def Fits (phdr : Phdr) : Prop := phdr.filesz = 0 ∨ b.Covers (b.base + phdr.vaddr) phdr.filesz

end Segments

/-- The addresses of a segment, from the image's base on. -/
def Phdr.Has (phdr : Phdr) (x : ℕ) : Prop := phdr.vaddr ≤ x ∧ x < phdr.vaddr + phdr.memsz

/-- The segments have no address in common. -/
def SegmentsApart (phdrs : List Phdr) : Prop :=
  phdrs.Pairwise fun p q => p.type = ptLoad → q.type = ptLoad → ∀ x, ¬ (p.Has x ∧ q.Has x)

/-! ## The relocation loop -/

/-- The word at an address. -/
def load32 (mem : Mem) (a : ℕ) : ℕ := number [mem a, mem (a + 1), mem (a + 2), mem (a + 3)]

/-- The bytes of a word. -/
def word32 (w : ℕ) : List UInt8 :=
  [UInt8.ofNat (w / 2 ^ 24), UInt8.ofNat (w / 2 ^ 16), UInt8.ofNat (w / 2 ^ 8), UInt8.ofNat w]

/-- The relocation at an address. -/
def relaAt (mem : Mem) (a : ℕ) : Rela := ⟨load32 mem a, load32 mem (a + 4), load32 mem (a + 8)⟩

/-- `n` iterations of the relocation loop, from `i` on, with the relocations that they read. -/
def relocate (b : Block size) (rela : ℕ) : ℕ → ℕ → Mem → Except Stop (Mem × List Rela)
  | 0, _, mem => .ok (mem, [])
  | n + 1, i, mem =>
      if b.Covers (rela + 12 * i) 12 then
        let e := relaAt mem (rela + 12 * i)
        -- a relocation of another type ends the boot
        if e.info % 256 = r68kRelative then
          (put b mem (b.base + e.offset) (word32 (b.base + e.addend))).bind fun mem =>
            (relocate b rela n (i + 1) mem).map fun x => (x.1, e :: x.2)
        else .error .abort
      else .error .outside

/-- The word that a relocation names has an address. -/
def Names (b : Block size) (e : Rela) (a : ℕ) : Prop := b.base + e.offset ≤ a ∧ a < b.base + e.offset + 4

/-- What the relocation loop does with the relocations that it reads. -/
structure Relocated (b : Block size) (rela n i : ℕ) (mem mem' : Mem) (es : List Rela) : Prop where
  length_eq : es.length = n
  relative : ∀ e ∈ es, e.info % 256 = r68kRelative
  /-- Nothing but the words that are named changes. -/
  kept : ∀ a, (∀ e ∈ es, ¬ Names b e a) → mem' a = mem a
  /-- A word that is named is the base and the addend, unless it is named again. -/
  relocated : ∀ l e l', es = l ++ e :: l' → (∀ e' ∈ l', ∀ a, ¬ (Names b e a ∧ Names b e' a)) →
    load32 mem' (b.base + e.offset) = (b.base + e.addend) % 2 ^ 32
  /-- The relocations are those in memory, unless they name one another. -/
  entries : (∀ e ∈ es, ∀ a, Names b e a → ¬ (rela + 12 * i ≤ a ∧ a < rela + 12 * (i + n))) →
    ∀ k (h : k < es.length), es[k] = relaAt mem (rela + 12 * (i + k))

/-- What the relocation loop is for. -/
def Relocates (b : Block size) : Prop :=
  ∀ rela relacount mem mem' es, relocate b rela relacount 0 mem = .ok (mem', es) →
    Relocated b rela relacount 0 mem mem' es

variable {file elfmag l : List UInt8} {b : Block size} {mem mem' : Mem} {phdr q : Phdr} {phdrs : List Phdr}
  {a i n rela : ℕ} {e : Rela} {es : List Rela}

/-! ## Numbers -/

theorem foldl_number_lt (l : List UInt8) (n : ℕ) :
    l.foldl (fun n byte => n * 256 + byte.toNat) n < (n + 1) * 256 ^ l.length := by
  induction l generalizing n with
  | nil => rw [List.foldl_nil, List.length_nil, pow_zero, Nat.mul_one]; exact Nat.lt_succ_self n
  | cons x l ih =>
      have hx := x.toNat_lt
      have hle : n * 256 + x.toNat + 1 ≤ (n + 1) * 256 := by omega
      calc (x :: l).foldl (fun n byte => n * 256 + byte.toNat) n
          < (n * 256 + x.toNat + 1) * 256 ^ l.length := ih _
        _ ≤ (n + 1) * 256 * 256 ^ l.length := Nat.mul_le_mul_right _ hle
        _ = (n + 1) * 256 ^ (x :: l).length := by
            rw [List.length_cons, pow_succ, Nat.mul_assoc, Nat.mul_comm 256]

/-- A field of four bytes. -/
theorem field_lt (file : List UInt8) (o : ℕ) : field file o 4 < 2 ^ 32 := by
  have hlt := foldl_number_lt ((file.drop o).take 4) 0
  rw [Nat.zero_add, Nat.one_mul] at hlt
  exact hlt.trans_le (Nat.pow_le_pow_right (n := 256) (by decide) (List.length_take_le 4 _))

/-- A word that has been assigned. -/
theorem load32_word32 {w : ℕ} (h : RowAt mem a (word32 w)) : load32 mem a = w % 2 ^ 32 := by
  have h0 : mem a = UInt8.ofNat (w / 2 ^ 24) := h 0 (by simp [word32])
  have h1 : mem (a + 1) = UInt8.ofNat (w / 2 ^ 16) := h 1 (by simp [word32])
  have h2 : mem (a + 2) = UInt8.ofNat (w / 2 ^ 8) := h 2 (by simp [word32])
  have h3 : mem (a + 3) = UInt8.ofNat w := h 3 (by simp [word32])
  simp only [load32, number, h0, h1, h2, h3, List.foldl_cons, List.foldl_nil, UInt8.toNat_ofNat']
  omega

/-- What is at an address depends on its four bytes. -/
theorem load32_congr (h : ∀ c, a ≤ c → c < a + 4 → mem' c = mem c) : load32 mem' a = load32 mem a := by
  simp only [load32, h a (by omega) (by omega), h (a + 1) (by omega) (by omega),
    h (a + 2) (by omega) (by omega), h (a + 3) (by omega) (by omega)]

/-! ## The segments -/

theorem put_eq_ok : put b mem a l = .ok mem' ↔ (l = [] ∨ b.Covers a l.length) ∧ mem' = assignRow mem a l := by
  unfold put
  by_cases h : l = [] ∨ b.Covers a l.length
  · rw [if_pos h, Except.ok.injEq, eq_comm]
    exact (and_iff_right h).symm
  · rw [if_neg h]
    exact iff_of_false (fun h => nomatch h) fun hc => h hc.1

/-- The memory after a segment. -/
def afterSegment (file : List UInt8) (b : Block size) (mem : Mem) (phdr : Phdr) : Mem :=
  assignRow (assignRow mem (b.base + phdr.vaddr) (fileBytes file phdr)) (b.base + phdr.vaddr - phdr.excess)
    (List.replicate phdr.excess 0)

/-- An iteration of the segment loop that reaches its end. -/
theorem loadSegment_eq_ok :
    loadSegment file b mem phdr = .ok mem' ↔ Readable file phdr ∧ Fits b phdr ∧
      (phdr.excess = 0 ∨ b.Covers (b.base + phdr.vaddr - phdr.excess) phdr.excess) ∧
      mem' = afterSegment file b mem phdr := by
  unfold loadSegment Readable
  by_cases hoff : 2 ^ 31 ≤ phdr.offset
  · rw [if_pos hoff]
    exact iff_of_false (fun h => nomatch h) fun h => absurd h.1.1 (by omega)
  · rw [if_neg hoff]
    -- the file offset is a `long`, and the whole segment has to be in the file
    by_cases hlen : (fileBytes file phdr).length = phdr.filesz
    · have hfits : (fileBytes file phdr = [] ∨
          b.Covers (b.base + phdr.vaddr) (fileBytes file phdr).length) ↔ Fits b phdr := by
        rw [← List.length_eq_zero_iff, hlen]
        rfl
      by_cases hok : Fits b phdr
      · have hput : put b mem (b.base + phdr.vaddr) (fileBytes file phdr) =
            .ok (assignRow mem (b.base + phdr.vaddr) (fileBytes file phdr)) :=
          put_eq_ok.mpr ⟨hfits.mpr hok, rfl⟩
        rw [hput]
        show (if (fileBytes file phdr).length ≠ phdr.filesz then _ else _) = _ ↔ _
        rw [if_neg (not_not.mpr hlen)]
        split
        · rename_i hpos
          rw [put_eq_ok, List.length_replicate, List.replicate_eq_nil_iff]
          exact ⟨fun h => ⟨⟨by omega, hlen⟩, hok, h⟩, fun h => h.2.2⟩
        · rename_i hpos
          have hzero : phdr.excess = 0 := Nat.eq_zero_of_not_pos hpos
          rw [Except.ok.injEq, afterSegment, hzero, List.replicate_zero, assignRow_nil]
          exact ⟨fun h => ⟨⟨by omega, hlen⟩, hok, .inl rfl, h.symm⟩, fun h => h.2.2.2.symm⟩
      · -- the bytes that are read do not fit
        refine iff_of_false (fun h => ?_) fun h => hok h.2.1
        obtain ⟨mem₁, hput, -⟩ := bind_eq_ok.mp h
        exact hok (hfits.mp (put_eq_ok.mp hput).1)
    · -- the file ends before
      refine iff_of_false (fun h => ?_) fun h => hlen h.1.2
      obtain ⟨mem₁, -, h⟩ := bind_eq_ok.mp h
      rw [if_pos hlen] at h
      exact nomatch h

/-- The addresses that are assigned for a segment. -/
def Assigns (b : Block size) (phdr : Phdr) (a : ℕ) : Prop :=
  (b.base + phdr.vaddr ≤ a ∧ a < b.base + phdr.vaddr + phdr.filesz) ∨
    (b.base + phdr.vaddr ≤ a + phdr.excess ∧ a < b.base + phdr.vaddr)

/-- A segment changes nothing else. -/
theorem afterSegment_out (h : loadSegment file b mem phdr = .ok mem') (ha : ¬ Assigns b phdr a) :
    mem' a = mem a := by
  obtain ⟨hread, -, hzero, rfl⟩ := loadSegment_eq_ok.mp h
  rw [Assigns, not_or] at ha
  have hlen := hread.2
  have hstart := b.start_pos
  rw [afterSegment, assignRow_of_out, assignRow_of_out]
  · rw [hlen]
    omega
  · rw [List.length_replicate]
    rcases hzero with hzero | ⟨hlo, -⟩ <;> omega

/-- The segment loop changes nothing but what is assigned for a segment. -/
theorem loadSegments_out (h : loadSegments file b phdrs mem = .ok mem')
    (ha : ∀ phdr ∈ phdrs, phdr.type = ptLoad → ¬ Assigns b phdr a) : mem' a = mem a := by
  induction phdrs generalizing mem with
  | nil =>
      obtain rfl : mem = mem' := Except.ok.inj h
      rfl
  | cons phdr phdrs ih =>
      have hrest := fun q hq => ha q (List.mem_cons_of_mem phdr hq)
      rw [loadSegments] at h
      split at h
      · rename_i htype
        obtain ⟨mem₁, hseg, h⟩ := bind_eq_ok.mp h
        rw [ih h hrest, afterSegment_out hseg (ha phdr List.mem_cons_self htype)]
      · exact ih h hrest

/-- What the segment loop has reached the end with could be read, and fits. -/
theorem loadSegments_fits (h : loadSegments file b phdrs mem = .ok mem') :
    ∀ phdr ∈ phdrs, phdr.type = ptLoad → Readable file phdr ∧ Fits b phdr := by
  induction phdrs generalizing mem with
  | nil => exact fun phdr hphdr => absurd hphdr List.not_mem_nil
  | cons phdr phdrs ih =>
      rw [loadSegments] at h
      split at h
      · obtain ⟨mem₁, hseg, h⟩ := bind_eq_ok.mp h
        intro q hq htype
        rcases List.mem_cons.mp hq with rfl | hq
        · obtain ⟨hread, hfits, -⟩ := loadSegment_eq_ok.mp hseg
          exact ⟨hread, hfits⟩
        · exact ih h q hq htype
      · rename_i hother
        intro q hq htype
        rcases List.mem_cons.mp hq with rfl | hq
        · exact absurd htype hother
        · exact ih h q hq htype

/-- What is beyond the file's bytes, when a segment is no smaller in memory. -/
theorem excess_eq (hle : phdr.filesz ≤ phdr.memsz) (hlt : phdr.memsz < 2 ^ 32) :
    phdr.excess = phdr.memsz - phdr.filesz := sub32_eq hle hlt

/-- The bytes of a segment, as they are in the file. -/
theorem getElem?_fileBytes (hi : i < phdr.filesz) :
    file[phdr.offset + i]? = (fileBytes file phdr)[i]? := by
  rw [fileBytes, List.getElem?_take_of_lt hi, List.getElem?_drop]

/-- A segment with nothing beyond the file's bytes, right after it is loaded. -/
theorem afterSegment_bytes (hread : Readable file phdr) (hexcess : phdr.excess = 0) (hi : i < phdr.filesz) :
    file[phdr.offset + i]? = some (afterSegment file b mem phdr (b.base + phdr.vaddr + i)) := by
  have hlt : i < (fileBytes file phdr).length := by rw [hread.2]; exact hi
  rw [getElem?_fileBytes hi, afterSegment, hexcess, List.replicate_zero, assignRow_nil,
    assignRow_add hlt, List.getElem?_eq_getElem hlt]

/-- **Files whose segments end with their bytes.** -/
theorem loads_of_eq (hapart : SegmentsApart phdrs) (hlt : ∀ phdr ∈ phdrs, phdr.memsz < 2 ^ 32)
    (h : ∀ phdr ∈ phdrs, phdr.type = ptLoad → phdr.memsz = phdr.filesz ∧ Fits b phdr) :
    Loads file b phdrs := by
  intro hread mem
  induction phdrs generalizing mem with
  | nil => exact ⟨mem, rfl, fun phdr hphdr => absurd hphdr List.not_mem_nil⟩
  | cons phdr phdrs ih =>
      obtain ⟨hhead, htail⟩ := List.pairwise_cons.mp hapart
      have htl : ∀ {q}, q ∈ phdrs → q ∈ phdr :: phdrs := List.mem_cons_of_mem phdr
      have hexcess : ∀ q ∈ phdr :: phdrs, q.type = ptLoad → q.excess = 0 := fun q hq htype => by
        have heq := (h q hq htype).1
        rw [excess_eq (by omega) (hlt q hq)]
        omega
      have ih := fun mem => ih htail (fun q hq => hlt q (htl hq)) (fun q hq => h q (htl hq))
        (fun q hq => hread q (htl hq)) mem
      by_cases htype : phdr.type = ptLoad
      · have hmem := hexcess phdr List.mem_cons_self htype
        obtain ⟨hsize, hfits⟩ := h phdr List.mem_cons_self htype
        have hreadable := hread phdr List.mem_cons_self htype
        have hseg : loadSegment file b mem phdr = .ok (afterSegment file b mem phdr) :=
          loadSegment_eq_ok.mpr ⟨hreadable, hfits, .inl hmem, rfl⟩
        obtain ⟨mem', hrest, hin⟩ := ih (afterSegment file b mem phdr)
        refine ⟨mem', ?_, fun q hq hqtype => ?_⟩
        · rw [loadSegments, if_pos htype, hseg]
          exact hrest
        · rcases List.mem_cons.mp hq with rfl | hq
          · refine ⟨fun i hi => ?_, fun i hlo hhi => by omega⟩
            -- no segment behind it has the address
            have hout : ∀ p ∈ phdrs, p.type = ptLoad → ¬ Assigns b p (b.base + q.vaddr + i) := by
              intro p hp hptype hassigns
              have hnot := hhead p hp htype hptype (q.vaddr + i)
              have hpe := hexcess p (htl hp) hptype
              have hpsize := (h p (htl hp) hptype).1
              refine hnot ⟨⟨by omega, by omega⟩, ?_⟩
              rcases hassigns with hassigns | hassigns
              · exact ⟨by omega, by omega⟩
              · omega
            rw [loadSegments_out hrest hout]
            exact afterSegment_bytes hreadable hmem hi
          · exact hin q hq hqtype
      · obtain ⟨mem', hrest, hin⟩ := ih mem
        refine ⟨mem', ?_, fun q hq hqtype => ?_⟩
        · rw [loadSegments, if_neg htype]
          exact hrest
        · rcases List.mem_cons.mp hq with rfl | hq
          · exact absurd hqtype htype
          · exact hin q hq hqtype

/-- Of the segments with something beyond the file's bytes, one begins last. -/
theorem exists_last_excess (h : ∃ phdr ∈ phdrs, phdr.type = ptLoad ∧ 0 < phdr.excess) :
    ∃ phdr ∈ phdrs, phdr.type = ptLoad ∧ 0 < phdr.excess ∧
      ∀ q ∈ phdrs, q.type = ptLoad → 0 < q.excess → q.vaddr ≤ phdr.vaddr := by
  let tails := phdrs.filter fun phdr => phdr.type = ptLoad ∧ 0 < phdr.excess
  have hmem : ∀ {q}, q ∈ tails ↔ q ∈ phdrs ∧ q.type = ptLoad ∧ 0 < q.excess := by
    intro q
    rw [List.mem_filter, decide_eq_true_eq]
  obtain ⟨p, hp, hp'⟩ := h
  cases hmax : tails.argmax Phdr.vaddr with
  | none => exact absurd (hmem.mpr ⟨hp, hp'⟩) (by rw [List.argmax_eq_none.mp hmax]; exact List.not_mem_nil)
  | some m =>
      obtain ⟨hm, htype, hexcess⟩ := hmem.mp (List.argmax_mem hmax)
      exact ⟨m, hm, htype, hexcess, fun q hq hqtype hqexcess =>
        List.le_of_mem_argmax (hmem.mpr ⟨hq, hqtype, hqexcess⟩) hmax⟩

/-- **The others.** The first byte beyond the file's bytes, of the segment among those that begins last, is not
assigned at all. -/
theorem excess_eq_zero (hapart : SegmentsApart phdrs) (hlt : ∀ phdr ∈ phdrs, phdr.memsz < 2 ^ 32)
    (hle : ∀ phdr ∈ phdrs, phdr.type = ptLoad → phdr.filesz ≤ phdr.memsz)
    (hread : AllReadable file phdrs) (h : Loads file b phdrs) :
    ∀ phdr ∈ phdrs, phdr.type = ptLoad → phdr.excess = 0 := by
  by_contra hexcess
  push Not at hexcess
  obtain ⟨p, hp, htype, hne⟩ := hexcess
  obtain ⟨m, hm, hmtype, hmexcess, hlast⟩ := exists_last_excess ⟨p, hp, htype, Nat.pos_of_ne_zero hne⟩
  have hmsize := excess_eq (hle m hm hmtype) (hlt m hm)
  obtain ⟨mem', hok, hin⟩ := h hread fun _ => 1
  have hzero := (hin m hm hmtype).zero m.filesz (Nat.le_refl _) (by omega)
  have hkept : mem' (b.base + m.vaddr + m.filesz) = 1 := by
    refine loadSegments_out hok fun q hq hqtype hassigns => ?_
    have hqsize := excess_eq (hle q hq hqtype) (hlt q hq)
    rcases hassigns with hassigns | hassigns
    · -- the file's bytes of another segment would be in this one
      by_cases hqm : q = m
      · subst hqm
        omega
      · have : Std.Symm fun p q : Phdr => p.type = ptLoad → q.type = ptLoad → ∀ x, ¬ (p.Has x ∧ q.Has x) :=
          ⟨fun p q hpq hqt hpt x hx => hpq hpt hqt x hx.symm⟩
        refine List.Pairwise.forall hapart hq hm hqm hqtype hmtype (m.vaddr + m.filesz) ?_
        exact ⟨⟨by omega, by have := hle q hq hqtype; omega⟩, ⟨by omega, by omega⟩⟩
    · -- zeroes end where their own segment begins
      have hvaddr := hlast q hq hqtype (by omega)
      omega
  rw [hkept] at hzero
  exact absurd hzero (by decide)

/-! ## The relocations -/

/-- An iteration of the relocation loop that reaches its end. -/
theorem relocate_succ {mem₂ : Mem} (h : relocate b rela (n + 1) i mem = .ok (mem₂, es)) :
    ∃ es', es = relaAt mem (rela + 12 * i) :: es' ∧
      (relaAt mem (rela + 12 * i)).info % 256 = r68kRelative ∧
      relocate b rela n (i + 1) (assignRow mem (b.base + (relaAt mem (rela + 12 * i)).offset)
        (word32 (b.base + (relaAt mem (rela + 12 * i)).addend))) = .ok (mem₂, es') := by
  rw [relocate] at h
  split at h
  · dsimp only at h
    split at h
    · rename_i htype
      obtain ⟨mem₁, hput, h⟩ := bind_eq_ok.mp h
      obtain ⟨-, rfl⟩ := put_eq_ok.mp hput
      obtain ⟨⟨mem₃, es'⟩, hrest, h⟩ := map_eq_ok.mp h
      obtain ⟨rfl, rfl⟩ := Prod.mk.inj h
      exact ⟨es', rfl, htype, hrest⟩
    · exact nomatch h
  · exact nomatch h

theorem length_word32 (w : ℕ) : (word32 w).length = 4 := rfl

/-- A relocation changes the word that it names. -/
theorem assignRow_word32_out {w : ℕ} (ha : ¬ Names b e a) :
    assignRow mem (b.base + e.offset) (word32 w) a = mem a := by
  unfold Names at ha
  exact assignRow_of_out (by rw [length_word32]; omega)

/-- **The relocation loop**: only the words that are named change, to the base and the addend. -/
theorem relocated_of_relocate (h : relocate b rela n i mem = .ok (mem', es)) :
    Relocated b rela n i mem mem' es := by
  induction n generalizing i mem es with
  | zero =>
      obtain ⟨rfl, rfl⟩ := Prod.mk.inj (Except.ok.inj h)
      refine ⟨rfl, fun e he => absurd he List.not_mem_nil, fun a _ => rfl, fun l e l' hl => ?_,
        fun _ k hk => absurd hk (Nat.not_lt_zero k)⟩
      exact absurd hl.symm (by simp)
  | succ n ih =>
      obtain ⟨es', rfl, htype, hrest⟩ := relocate_succ h
      have ih := ih hrest
      generalize he : relaAt mem (rela + 12 * i) = e at htype hrest ih ⊢
      refine ⟨by rw [List.length_cons, ih.length_eq], fun e' he' => ?_, fun a ha => ?_, ?_, ?_⟩
      · rcases List.mem_cons.mp he' with rfl | he'
        · exact htype
        · exact ih.relative e' he'
      · rw [ih.kept a fun e' he' => ha e' (List.mem_cons_of_mem e he')]
        exact assignRow_word32_out (ha e List.mem_cons_self)
      · rintro (_ | ⟨e₁, l⟩) e₂ l' hl hapart
        · -- the word of the first is not named again
          obtain ⟨rfl, rfl⟩ := List.cons.inj hl
          have hkept : ∀ c, b.base + e.offset ≤ c → c < b.base + e.offset + 4 →
              mem' c = assignRow mem (b.base + e.offset) (word32 (b.base + e.addend)) c :=
            fun c hlo hhi => ih.kept c fun e' he' hnames => hapart e' he' c ⟨⟨hlo, hhi⟩, hnames⟩
          rw [load32_congr hkept]
          exact load32_word32 (rowAt_assignRow _ _ _)
        · obtain ⟨-, rfl⟩ := List.cons.inj hl
          exact ih.relocated l e₂ l' rfl hapart
      · intro hout k hk
        cases k with
        | zero => exact he.symm
        | succ k =>
            have hk' : k < es'.length := by rw [List.length_cons] at hk; omega
            have hidx : i + 1 + k = i + (k + 1) := by omega
            have hentry := ih.entries (fun e' he' a ha => by
              have hnot := hout e' (List.mem_cons_of_mem e he') a ha
              omega) k hk'
            rw [List.getElem_cons_succ, hentry, hidx]
            -- the entry is not among the words that the first names
            have hlen := ih.length_eq
            have hkept : ∀ c, rela + 12 * (i + (k + 1)) ≤ c → c < rela + 12 * (i + (k + 1)) + 12 →
                assignRow mem (b.base + e.offset) (word32 (b.base + e.addend)) c = mem c := fun c hlo hhi =>
              assignRow_word32_out fun hnames => hout e List.mem_cons_self c hnames ⟨by omega, by omega⟩
            simp only [relaAt]
            rw [load32_congr fun c hlo hhi => hkept c (by omega) (by omega),
              load32_congr fun c hlo hhi => hkept c (by omega) (by omega),
              load32_congr fun c hlo hhi => hkept c (by omega) (by omega)]

/-! ## The block and the headers -/

/-- The sizes in the headers are words. -/
theorem memsz_lt_of_readHeaders (h : readHeaders elfmag file = .ok phdrs) :
    ∀ phdr ∈ phdrs, phdr.memsz < 2 ^ 32 := by
  unfold readHeaders at h
  split at h
  · exact nomatch h
  · split at h
    · exact nomatch h
    · split at h
      · exact nomatch h
      · obtain rfl := Except.ok.inj h
        intro phdr hphdr
        obtain ⟨i, -, rfl⟩ := List.mem_map.mp hphdr
        exact field_lt file _

/-- The size is that of the largest end of a segment, when none wraps around. -/
theorem le_imageSize (hlt : ∀ phdr ∈ phdrs, phdr.vaddr + phdr.memsz + pgSize < 2 ^ 32) :
    ∀ phdr ∈ phdrs, phdr.vaddr + phdr.memsz + pgSize ≤ imageSize phdrs := by
  -- the maximum over the headers so far bounds each of their ends
  have hfold : ∀ (l : List Phdr) (n : ℕ), n + pgSize < 2 ^ 32 →
      (∀ phdr ∈ l, phdr.vaddr + phdr.memsz + pgSize < 2 ^ 32) →
      n ≤ l.foldl (fun size phdr => max size ((phdr.vaddr + phdr.memsz) % 2 ^ 32)) n ∧
      l.foldl (fun size phdr => max size ((phdr.vaddr + phdr.memsz) % 2 ^ 32)) n + pgSize < 2 ^ 32 ∧
      ∀ phdr ∈ l, phdr.vaddr + phdr.memsz ≤
        l.foldl (fun size phdr => max size ((phdr.vaddr + phdr.memsz) % 2 ^ 32)) n := by
    intro l
    induction l with
    | nil => exact fun n hn _ => ⟨Nat.le_refl _, hn, fun phdr hphdr => absurd hphdr List.not_mem_nil⟩
    | cons p l ih =>
        intro n hn hl
        have hp := hl p List.mem_cons_self
        have hmod : (p.vaddr + p.memsz) % 2 ^ 32 = p.vaddr + p.memsz := Nat.mod_eq_of_lt (by omega)
        obtain ⟨hle, hmax, hends⟩ := ih (max n ((p.vaddr + p.memsz) % 2 ^ 32)) (by omega)
          fun q hq => hl q (List.mem_cons_of_mem p hq)
        refine ⟨(Nat.le_max_left _ _).trans hle, hmax, fun q hq => ?_⟩
        rcases List.mem_cons.mp hq with rfl | hq
        · exact hmod ▸ (Nat.le_max_right n _).trans hle
        · exact hends q hq
  obtain ⟨-, hmax, hends⟩ := hfold phdrs 0 (by decide) hlt
  intro phdr hphdr
  rw [imageSize, Nat.mod_eq_of_lt hmax]
  exact Nat.add_le_add_right (hends phdr hphdr) pgSize

/-- The block has room for the segments, when none wraps around. -/
theorem fits_of_lt (b : Block (imageSize phdrs))
    (hlt : ∀ phdr ∈ phdrs, phdr.vaddr + phdr.memsz + pgSize < 2 ^ 32)
    (hle : ∀ phdr ∈ phdrs, phdr.type = ptLoad → phdr.filesz ≤ phdr.memsz) :
    ∀ phdr ∈ phdrs, phdr.type = ptLoad → Fits b phdr := by
  intro phdr hphdr htype
  have hend := le_imageSize hlt phdr hphdr
  have hfile := hle phdr hphdr htype
  have hblock := b.le
  have hpage : pgSize = 4096 := rfl
  -- the base is the start of the block, rounded up
  have hbase : b.base = (b.start + 4095) / 4096 * 4096 := by
    unfold Block.base
    rw [hpage, Nat.mod_eq_of_lt (by omega)]
  refine .inr ⟨?_, ?_⟩ <;> omega

/-! ## Exactness -/

/-- **Exactness.** If no read fails, the segments are as they should be in memory, whatever was there, exactly
when none of them has anything beyond the file's bytes and the block has room for them. -/
theorem loader_iff (hheaders : readHeaders elfmag file = .ok phdrs) (hapart : SegmentsApart phdrs)
    (hle : ∀ phdr ∈ phdrs, phdr.type = ptLoad → phdr.filesz ≤ phdr.memsz) (b : Block (imageSize phdrs)) :
    (Loads file b phdrs ∧ Relocates b) ↔ (AllReadable file phdrs → ∀ phdr ∈ phdrs, phdr.type = ptLoad →
      phdr.memsz = phdr.filesz ∧ Fits b phdr) := by
  have hlt := memsz_lt_of_readHeaders hheaders
  constructor
  · rintro ⟨hloads, -⟩ hread phdr hphdr htype
    have hexcess := excess_eq_zero hapart hlt hle hread hloads phdr hphdr htype
    rw [excess_eq (hle phdr hphdr htype) (hlt phdr hphdr)] at hexcess
    have hfile := hle phdr hphdr htype
    obtain ⟨mem', hok, -⟩ := hloads hread fun _ => 0
    exact ⟨by omega, (loadSegments_fits hok phdr hphdr htype).2⟩
  · intro h
    refine ⟨fun hread => loads_of_eq hapart hlt (h hread) hread, ?_⟩
    exact fun rela relacount mem mem' es hrel => relocated_of_relocate hrel

/-- A header for the 68000 with one program header, of a segment of four bytes in the file at offset 84, with
`memsz` bytes in memory at address 256, and those four bytes. -/
def oneSegment (memsz : UInt8) : List UInt8 :=
  [0x7f, 0x45, 0x4c, 0x46, 0, 2, 1, 0, 0, 0, 0, 0, 0, 0, 0, 0,
    0, 3, 0, 4, 0, 0, 0, 1, 0, 0, 0, 0, 0, 0, 0, 52,
    0, 0, 0, 0, 0, 0, 0, 0, 0, 52, 0, 32, 0, 1, 0, 0, 0, 0, 0, 0,
    0, 0, 0, 1, 0, 0, 0, 84, 0, 0, 1, 0, 0, 0, 1, 0, 0, 0, 0, 4, 0, 0, 0, memsz, 0, 0, 0, 7, 0, 0, 0, 4,
    1, 2, 3, 4]

/-- Its program header. -/
def onePhdr (memsz : ℕ) : Phdr := ⟨1, 84, 256, 4, memsz⟩

/-- `ELFMAG` with its terminator. -/
def elfMag : List UInt8 := [0x7f, 0x45, 0x4c, 0x46, 0]

/-- A block for it. -/
def oneBlock (memsz : ℕ) (h : memsz ≤ 256) : Block (imageSize [onePhdr memsz]) where
  start := 0x200000
  start_pos := by decide
  le := by
    have hmod : (256 + memsz) % 2 ^ 32 = 256 + memsz := Nat.mod_eq_of_lt (by omega)
    simp only [imageSize, onePhdr, List.foldl_cons, List.foldl_nil, pgSize, hmod]
    omega

/-- A segment of four bytes. -/
theorem loader_iff_four :
    Loads (oneSegment 4) (oneBlock 4 (by decide)) [onePhdr 4] ∧ Relocates (oneBlock 4 (by decide)) :=
  have hheaders : readHeaders elfMag (oneSegment 4) = .ok [onePhdr 4] := by decide +kernel
  (loader_iff hheaders (List.pairwise_singleton _ _) (by decide) (oneBlock 4 (by decide))).mpr fun _ phdr hphdr _ => by
      obtain rfl := List.mem_singleton.mp hphdr
      exact ⟨rfl, .inr (by decide +kernel)⟩

/-- A segment of four bytes that has eight in memory, where there was no zero before: the bytes beyond the
file's are left as they were, and those before the segment are zeroes. -/
theorem loader_excess :
    readHeaders elfMag (oneSegment 8) = .ok [onePhdr 8] ∧ SegmentsApart [onePhdr 8] ∧
      AllReadable (oneSegment 8) [onePhdr 8] ∧
      (∃ mem', loadSegments (oneSegment 8) (oneBlock 8 (by decide)) [onePhdr 8] (fun _ => 0xff) = .ok mem' ∧
        (List.range' (0x200000 + 252) 12).map mem' = [0, 0, 0, 0, 1, 2, 3, 4, 0xff, 0xff, 0xff, 0xff]) ∧
      ¬ (Loads (oneSegment 8) (oneBlock 8 (by decide)) [onePhdr 8] ∧ Relocates (oneBlock 8 (by decide))) := by
  have hread : AllReadable (oneSegment 8) [onePhdr 8] := fun phdr hphdr _ => by
    obtain rfl := List.mem_singleton.mp hphdr
    exact ⟨by decide, by decide +kernel⟩
  refine ⟨by decide +kernel, List.pairwise_singleton _ _, hread,
    ⟨afterSegment (oneSegment 8) (oneBlock 8 (by decide)) (fun _ => 0xff) (onePhdr 8), by rfl,
      by decide +kernel⟩, fun h => ?_⟩
  have hexcess := excess_eq_zero (List.pairwise_singleton _ _) (by decide) (by decide) hread h.1 (onePhdr 8)
    List.mem_cons_self rfl
  exact absurd hexcess (by decide)

end Scalux.Amiga
