import Scalux.Devicekit.DiskBounds
import Scalux.Vm.MdlExpand
import Mathlib.Data.List.Nodup

/-! # GPT partitions

`initWithDisk` of `dev/GPTVolumeManager.m` reads the entry array of a GPT into an MDL and makes a
`DKLogicalDisk` for each entry that is used.

* A drive keeps bytes; a read stores them in the pages of the MDL, one after the other.  `none` stands for a
  failed assertion.
* The MDL grows by `vm_mdl_expand` (`Scalux.Vm.MdlExpand`) when the array is longer than it.
* The length of the array and the place of an entry in it are products of 32 bits.

`lbaEnd` is the last block of a partition, and the size that the logical disk gets does not count it.  A
read of the block before the first one ends at offset 0 of the disk, which its check does not mind.

* **`initWithDisk_eq`**: a disk for each entry that is used, if no entry is split between two pages.
* **`readsBlock_iff`**: the blocks of a disk that are as they should be.
* **`gpt_exposed_iff`**: both together. -/

namespace Scalux.Gpt

open Devicekit (Disk Transfer readBytes toOff toOff_eq_self IsOff)
open VmMdl (Mdl PhysMdl contents vmMdlCapacity vmMdlCopy Regular)
open MdlExpand (HeapMdl Memory Alloc Stop vmMdlExpand vmMdlExpand_fields)

/-- `struct gpt_header`, as far as `initWithDisk` reads it. -/
structure Header where
  lbaEntryArrayStart : ℕ
  nEntries : ℕ
  sizEntry : ℕ

/-- `struct gpt_entry`, as far as `initWithDisk` reads it. -/
structure Entry where
  type : List UInt8
  lbaStart : ℕ
  lbaEnd : ℕ
  name : List ℕ
  deriving DecidableEq, Repr

/-- `sizeof(struct gpt_entry)`. -/
def sizeofEntry : ℕ := 128

/-- An integer of `n` bytes. -/
def leWord (buf : ℕ → UInt8) (at₀ : ℕ) : ℕ → ℕ
  | 0 => 0
  | n + 1 => (buf at₀).toNat + 256 * leWord buf (at₀ + 1) n

/-- A `struct gpt_entry` in a buffer. -/
def entryOf (buf : ℕ → UInt8) : Entry where
  type := (List.range 16).map buf
  lbaStart := leWord buf 32 8
  lbaEnd := leWord buf 40 8
  name := (List.range 36).map fun j => leWord buf (56 + 2 * j) 2

/-- `uuid_is_null`. -/
def uuidIsNull (u : List UInt8) : Bool := u.all (· == 0)

/-- A new `DKLogicalDisk`, with the characters of its name. -/
structure LogicalDisk where
  disk : Disk
  name : List ℕ
  location : ℕ

/-- `partname`. -/
def partname (e : Entry) : List ℕ := e.name.map fun c => if 127 < c then '?'.toNat else c

/-- `initWithUnderlyingDisk`, as it is called for the entry `i`. -/
def logicalDisk (disk : Disk) (blockSize i : ℕ) (e : Entry) : LogicalDisk where
  disk := .logical (toOff (blockSize * e.lbaStart))
    (sub64 e.lbaEnd e.lbaStart * blockSize % 2 ^ 64) disk
  name := partname e
  location := i + 1

/-- `[disk blockSize]`. -/
def blockSize (disk : Disk) : ℕ := disk.bottom.blockSize

/-- `sizGptEntryArray`. -/
def sizGptEntryArray (hdr : Header) : ℕ := hdr.sizEntry * hdr.nEntries % 2 ^ 32

/-- The size of the array is one of 32 bits. -/
theorem sizGptEntryArray_lt (hdr : Header) : sizGptEntryArray hdr < 2 ^ 32 :=
  Nat.mod_lt _ (Nat.two_pow_pos 32)

/-- The MDL that the entry array is read into, and the memory after. -/
def arrayMdl (a : Alloc) (m : Memory) (mdl : HeapMdl) (hdr : Header) : Except Stop (HeapMdl × Memory) :=
  if vmMdlCapacity mdl.toMdl < sizGptEntryArray hdr then vmMdlExpand a mdl (sizGptEntryArray hdr) m
  else .ok (mdl, m)

/-- Memory after `n` bytes of the drive, from `start` on, have been stored in the pages of an MDL. -/
def fill (drive : ℤ → UInt8) (start : ℤ) (pages : List ℕ) (mem : ℕ → UInt8) : ℕ → ℕ → UInt8
  | 0 => mem
  | n + 1 => Function.update (fill drive start pages mem n) (pages[n / pgSize]?.getD 0 + n % pgSize)
      (drive (start + n))

section Loop

variable (mem ent : ℕ → UInt8) (mdl : Mdl ℕ) (sizEntry : ℕ) (disk : Disk)

/-- The loop of `initWithDisk`; `ent` is what is in the variable before it is assigned. -/
def entriesLoop : List ℕ → Option (List LogicalDisk)
  | [] => some []
  | i :: is => do
      let copy ← vmMdlCopy mem mdl ent sizeofEntry (sizEntry * i % 2 ^ 32 : ℕ)
      let e := entryOf copy.buf
      let disks ← entriesLoop is
      if uuidIsNull e.type then some disks else some (logicalDisk disk (blockSize disk) i e :: disks)

end Loop

/-- `initWithDisk`: the disks that it makes. -/
def initWithDisk (drive : ℤ → UInt8) (mem ent : ℕ → UInt8) (a : Alloc) (m : Memory) (disk : Disk) (mdl : HeapMdl)
    (hdr : Header) : Option (List LogicalDisk) :=
  match arrayMdl a m mdl hdr with
  | .error _ => none
  | .ok (mdl, _) =>
      match readBytes disk (sizGptEntryArray hdr) (toOff (blockSize disk * hdr.lbaEntryArrayStart)) with
      | .error _ => none
      | .ok t =>
          -- the array is read from the drive to the pages of the list
          let mem := fill drive (t.block * blockSize disk) mdl.phys.pages mem (sizGptEntryArray hdr)
          entriesLoop mem ent mdl.phys hdr.sizEntry disk (List.range hdr.nEntries)

/-- The entry `i` of the array that is on the drive from `start` on. -/
def entryAt (drive : ℤ → UInt8) (start : ℤ) (sizEntry i : ℕ) : Entry :=
  entryOf fun j => drive (start + (sizEntry * i + j : ℕ))

/-- A read of the block `k` of a disk is one of the block `lbaStart + k` of the underlying disk if the
partition has that block, and fails otherwise. -/
def ReadsBlock (disk : Disk) (e : Entry) (d : Disk) (k : ℤ) : Prop :=
  readBytes d (blockSize disk) (k * blockSize disk)
    = if 0 ≤ k ∧ k ≤ e.lbaEnd - e.lbaStart then
        readBytes disk (blockSize disk) ((e.lbaStart + k) * blockSize disk)
      else .error .einval

/-- A partition of a disk: it is after the header, its blocks have offsets, and they can be read. -/
structure OnDisk (disk : Disk) (e : Entry) : Prop where
  after_header : 1 < e.lbaStart
  ordered : e.lbaStart ≤ e.lbaEnd
  is_off : (e.lbaEnd + 1) * blockSize disk ≤ 2 ^ 63
  readable : ∀ b ≤ e.lbaEnd, ∃ t, readBytes disk (blockSize disk) (b * blockSize disk) = .ok t

/-- A GPT: the entry array can be read in one transfer, and the entries that are used are partitions. -/
structure Format (drive : ℤ → UInt8) (disk : Disk) (hdr : Header) (t : Transfer) : Prop where
  sizEntry_ge : sizeofEntry ≤ hdr.sizEntry
  array_read : readBytes disk (hdr.sizEntry * hdr.nEntries)
    (toOff (blockSize disk * hdr.lbaEntryArrayStart)) = .ok t
  on_disk : ∀ i < hdr.nEntries,
    uuidIsNull (entryAt drive (t.block * blockSize disk) hdr.sizEntry i).type = false →
    OnDisk disk (entryAt drive (t.block * blockSize disk) hdr.sizEntry i)

/-- The pages of an MDL are pages of memory, and different. -/
structure PagesOf (mdl : Mdl ℕ) : Prop where
  offset_eq : mdl.offset = 0
  length_eq : mdl.pages.length = mdl.nPages
  nPages_lt : mdl.nPages * pgSize < 2 ^ 64
  nodup : mdl.pages.Nodup
  aligned : ∀ p ∈ mdl.pages, p % pgSize = 0

/-- The length of the array fits into 32 bits, and no entry is split between two pages that are not next to
each other. -/
structure Whole (hdr : Header) (mdl : Mdl ℕ) : Prop where
  length_lt : hdr.sizEntry * hdr.nEntries < 2 ^ 32
  regular : ∀ i < hdr.nEntries, Regular mdl sizeofEntry (hdr.sizEntry * i)

/-! ## Reading the array -/

variable {drive : ℤ → UInt8} {start : ℤ} {pages : List ℕ} {mem ent : ℕ → UInt8} {a : Alloc}
  {m m' : Memory} {heap heap' : HeapMdl} {mdl : Mdl ℕ} {hdr : Header} {disk : Disk} {e : Entry} {t : Transfer}
  {i j n : ℕ}

/-- The MDL with what its pages have to be. -/
def PagesOf.physMdl (h : PagesOf mdl) : PhysMdl := ⟨mdl, h.length_eq, h.nPages_lt⟩

/-- The address that the byte `n` of a read is stored at. -/
def place (pages : List ℕ) (n : ℕ) : ℕ := pages[n / pgSize]?.getD 0 + n % pgSize

/-- A byte of the list lies in the page of its quotient, at its remainder. -/
theorem place_eq (hn : n < pages.length * pgSize) :
    ∃ h : n / pgSize < pages.length, place pages n = pages[n / pgSize] + n % pgSize := by
  have hlt : n / pgSize < pages.length := Nat.div_lt_of_lt_mul (Nat.mul_comm _ _ ▸ hn)
  refine ⟨hlt, ?_⟩
  rw [place, List.getElem?_eq_getElem hlt, Option.getD_some]

/-- Two bytes are not stored at one address. -/
theorem place_ne (h : PagesOf mdl) (hj : j < mdl.pages.length * pgSize)
    (hn : n < mdl.pages.length * pgSize) (hne : j ≠ n) : place mdl.pages j ≠ place mdl.pages n := by
  obtain ⟨hlt, hplace⟩ := place_eq hj
  obtain ⟨hlt', hplace'⟩ := place_eq hn
  rw [hplace, hplace']
  intro heq
  have hp := h.aligned _ (List.getElem_mem hlt)
  have hq := h.aligned _ (List.getElem_mem hlt')
  have hpage : mdl.pages[j / pgSize] = mdl.pages[n / pgSize] := by
    unfold pgSize at *
    omega
  have hdiv : j / pgSize = n / pgSize := (h.nodup.getElem_inj_iff).mp hpage
  unfold pgSize at *
  omega

/-- A byte of the list is filled from the drive. -/
theorem fill_place (h : PagesOf mdl) (hn : n ≤ mdl.pages.length * pgSize) (hj : j < n) :
    fill drive start mdl.pages mem n (place mdl.pages j) = drive (start + j) := by
  induction n with
  | zero => exact absurd hj (Nat.not_lt_zero j)
  | succ n ih =>
      show Function.update (fill drive start mdl.pages mem n) (place mdl.pages n) _ _ = _
      by_cases hlast : j = n
      · subst hlast
        exact Function.update_self ..
      · rw [Function.update_of_ne (place_ne h (by omega) (by omega) hlast)]
        exact ih (by omega) (by omega)

/-- The pages hold the bytes that were read. -/
theorem contents_fill (h : PagesOf mdl) (hn : n ≤ mdl.pages.length * pgSize) (hj : j < n) :
    (contents (fill drive start mdl.pages mem n) mdl.pages)[j]? = some (drive (start + j)) := by
  obtain ⟨hlt, hplace⟩ := place_eq (Nat.lt_of_lt_of_le hj hn)
  have hbyte : (contents (fill drive start mdl.pages mem n) mdl.pages)[j / pgSize * pgSize + j % pgSize]?
      = some (fill drive start mdl.pages mem n (mdl.pages[j / pgSize] + j % pgSize)) :=
    VmMdl.getElem?_contents (List.getElem?_eq_getElem hlt) (Nat.mod_lt j VmMdl.pgSize_pos)
  rw [Nat.div_add_mod', ← hplace, fill_place h hn hj] at hbyte
  exact hbyte

/-! ## The entries -/

/-- A word depends on its own bytes only. -/
theorem leWord_congr {buf buf' : ℕ → UInt8} {a : ℕ} (h : ∀ j, j < a + n → buf j = buf' j) :
    leWord buf a n = leWord buf' a n := by
  induction n generalizing a with
  | zero => rfl
  | succ n ih =>
      rw [leWord, leWord, h a (by omega), ih fun j hj => h j (by omega)]

/-- An entry is in its 128 bytes. -/
theorem entryOf_congr {buf buf' : ℕ → UInt8} (h : ∀ j < sizeofEntry, buf j = buf' j) :
    entryOf buf = entryOf buf' := by
  unfold sizeofEntry at h
  unfold entryOf
  rw [leWord_congr (a := 32) (n := 8) fun j hj => h j (by omega),
    leWord_congr (a := 40) (n := 8) fun j hj => h j (by omega)]
  congr 1
  · exact List.map_congr_left fun j hj => h j (by have := List.mem_range.mp hj; omega)
  · refine List.map_congr_left fun j hj => leWord_congr fun l hl => h l ?_
    have := List.mem_range.mp hj
    omega

/-- An entry that is not split is copied as it is on the drive. -/
theorem copy_entry (h : PagesOf mdl) (hfits : hdr.sizEntry * hdr.nEntries ≤ vmMdlCapacity mdl)
    (hsize : sizeofEntry ≤ hdr.sizEntry) (hw : Whole hdr mdl) (hi : i < hdr.nEntries) :
    ∃ s, vmMdlCopy (fill drive start mdl.pages mem (hdr.sizEntry * hdr.nEntries)) mdl ent sizeofEntry
        (hdr.sizEntry * i % 2 ^ 32 : ℕ) = some s ∧
      entryOf s.buf = entryAt drive start hdr.sizEntry i := by
  have hend : hdr.sizEntry * i + sizeofEntry ≤ hdr.sizEntry * hdr.nEntries := by
    have hmul := Nat.mul_le_mul_left hdr.sizEntry (Nat.succ_le_of_lt hi)
    rw [Nat.mul_succ] at hmul
    omega
  have hlt := hw.length_lt
  have hcap : vmMdlCapacity mdl = mdl.pages.length * pgSize := h.physMdl.capacity_eq
  rw [Nat.mod_eq_of_lt (by omega)]
  have hoff : mdl.offset + (hdr.sizEntry * i : ℕ) = (hdr.sizEntry * i : ℕ) := by
    rw [h.offset_eq, Int.zero_add]
  have hpos : 0 ≤ mdl.offset + (hdr.sizEntry * i : ℕ) := by omega
  have hle : mdl.offset + (hdr.sizEntry * i : ℕ) + sizeofEntry ≤ vmMdlCapacity mdl := by omega
  -- the entry lies within one page of the list, so the copy is exact
  have hregular : Regular mdl sizeofEntry (mdl.offset + (hdr.sizEntry * i : ℕ)).toNat := by
    rw [hoff, Int.toNat_natCast]
    exact hw.regular i hi
  have hcopy : VmMdl.CopiesExactly mdl sizeofEntry (hdr.sizEntry * i : ℕ) :=
    VmMdl.copiesExactly_of_regular (show 0 ≤ h.physMdl.offset + _ from hpos) hle hregular
  obtain ⟨s, hs, -, hbytes, -⟩ := hcopy (fill drive start mdl.pages mem (hdr.sizEntry * hdr.nEntries)) ent
  refine ⟨s, hs, entryOf_congr fun j hj => ?_⟩
  have hbyte := hbytes j hj
  rw [hoff, Int.toNat_natCast, contents_fill h (hcap ▸ hfits) (by omega)] at hbyte
  exact (Option.some.inj hbyte).symm

/-- The loop, with the entries that it copies. -/
theorem entriesLoop_eq {f : ℕ → Entry} {l : List ℕ}
    (h : ∀ i ∈ l, ∃ s, vmMdlCopy mem mdl ent sizeofEntry (n * i % 2 ^ 32 : ℕ) = some s ∧
      entryOf s.buf = f i) :
    entriesLoop mem ent mdl n disk l
      = some ((l.filter fun i => !uuidIsNull (f i).type).map fun i =>
          logicalDisk disk (blockSize disk) i (f i)) := by
  induction l with
  | nil => rfl
  | cons i l ih =>
      obtain ⟨s, hs, he⟩ := h i List.mem_cons_self
      rw [entriesLoop, hs, Option.bind_eq_bind, Option.bind_some, he,
        ih fun i hi => h i (List.mem_cons_of_mem _ hi)]
      dsimp only [Option.bind_eq_bind, Option.bind_some]
      cases hnull : uuidIsNull (f i).type
      · rw [List.filter_cons_of_pos (by rw [hnull]; rfl)]
        exact if_neg Bool.false_ne_true
      · rw [List.filter_cons_of_neg (by rw [hnull]; simp)]
        exact if_pos rfl

/-- The MDL holds the array. -/
theorem capacity_arrayMdl (h : arrayMdl a m heap hdr = .ok (heap', m')) :
    sizGptEntryArray hdr ≤ vmMdlCapacity heap'.phys := by
  have hlt := sizGptEntryArray_lt hdr
  unfold arrayMdl at h
  split at h
  · have hpages := (vmMdlExpand_fields h).2
    rw [MdlExpand.pgRoundUp_div] at hpages
    show _ ≤ heap'.nPages * 4096 % 2 ^ 64
    omega
  · obtain ⟨rfl, -⟩ := Prod.mk.inj (Except.ok.inj h)
    exact Nat.le_of_not_lt ‹_›

/-- The indices of the entries that are used. -/
def used (drive : ℤ → UInt8) (start : ℤ) (hdr : Header) : List ℕ :=
  (List.range hdr.nEntries).filter fun i => !uuidIsNull (entryAt drive start hdr.sizEntry i).type

/-- A used entry is one of the array whose type is not null. -/
theorem mem_used (hi : i ∈ used drive start hdr) :
    i < hdr.nEntries ∧ uuidIsNull (entryAt drive start hdr.sizEntry i).type = false := by
  obtain ⟨hlt, hnull⟩ := List.mem_filter.mp hi
  exact ⟨List.mem_range.mp hlt, (Bool.not_eq_true' _).mp hnull⟩

/-- **The disks**: one for each entry that is used. -/
theorem initWithDisk_eq (hf : Format drive disk hdr t) (harray : arrayMdl a m heap hdr = .ok (heap', m'))
    (hp : PagesOf heap'.phys) (hw : Whole hdr heap'.phys) :
    initWithDisk drive mem ent a m disk heap hdr
      = some ((used drive (t.block * blockSize disk) hdr).map fun i => logicalDisk disk (blockSize disk) i
          (entryAt drive (t.block * blockSize disk) hdr.sizEntry i)) := by
  have hsize : sizGptEntryArray hdr = hdr.sizEntry * hdr.nEntries := Nat.mod_eq_of_lt hw.length_lt
  have hfits := capacity_arrayMdl harray
  rw [hsize] at hfits
  unfold initWithDisk
  rw [harray]
  dsimp only
  rw [hsize, hf.array_read]
  exact entriesLoop_eq fun i hi =>
    copy_entry hp hfits hf.sizEntry_ge hw (List.mem_range.mp hi)

/-! ## The blocks of a partition -/

/-- The base and the size of the disk of a partition. -/
theorem logicalDisk_disk (h : OnDisk disk e) : (logicalDisk disk (blockSize disk) i e).disk
    = .logical (blockSize disk * e.lbaStart : ℕ) ((e.lbaEnd - e.lbaStart) * blockSize disk) disk := by
  have hpos : 0 < blockSize disk := disk.bottom.blockSize_pos
  have hle := h.ordered
  have hoff := h.is_off
  have hend : e.lbaEnd + 1 ≤ (e.lbaEnd + 1) * blockSize disk := Nat.le_mul_of_pos_right _ hpos
  have hstart : blockSize disk * e.lbaStart < (e.lbaEnd + 1) * blockSize disk := by
    rw [Nat.mul_comm]
    exact Nat.mul_lt_mul_of_pos_right (by omega) hpos
  have hsize : (e.lbaEnd - e.lbaStart) * blockSize disk ≤ (e.lbaEnd + 1) * blockSize disk :=
    Nat.mul_le_mul_right _ (by omega)
  have hdiff : sub64 e.lbaEnd e.lbaStart = e.lbaEnd - e.lbaStart := sub64_eq hle (by omega)
  unfold logicalDisk
  dsimp only
  rw [hdiff, Nat.mod_eq_of_lt (by omega), ← Nat.cast_mul, toOff_eq_self (by constructor <;> omega)]

/-- The check of the disk of a partition. -/
theorem check_iff (h : OnDisk disk e) {k : ℤ} (hk : IsOff (k * blockSize disk)) :
    (((e.lbaEnd - e.lbaStart) * blockSize disk : ℕ) : ℤ)
        < (k * blockSize disk + blockSize disk) % 2 ^ 64 ↔
      k < -1 ∨ (e.lbaEnd : ℤ) - e.lbaStart ≤ k := by
  have hpos : (0 : ℤ) < blockSize disk := Int.ofNat_lt.mpr disk.bottom.blockSize_pos
  have hle := h.ordered
  have hoff : ((e.lbaEnd : ℤ) + 1) * blockSize disk ≤ 2 ^ 63 := by exact_mod_cast h.is_off
  rw [Nat.cast_mul, Nat.cast_sub hle]
  obtain ⟨hlo, hhi⟩ := hk
  generalize (blockSize disk : ℤ) = B at *
  have hB : 1 * B ≤ 2 ^ 63 := Int.le_trans (Int.mul_le_mul_of_nonneg_right (by omega) hpos.le) hoff
  have hsize : ((e.lbaEnd : ℤ) - e.lbaStart) * B ≤ 2 ^ 63 :=
    Int.le_trans (Int.mul_le_mul_of_nonneg_right (by omega) hpos.le) hoff
  have hnonneg : 0 ≤ ((e.lbaEnd : ℤ) - e.lbaStart) * B := Int.mul_nonneg (by omega) hpos.le
  have hnext : k * B + B = (k + 1) * B := by ring
  rcases lt_trichotomy k (-1) with hneg | rfl | hge
  · -- the end of the request is negative, and so a large `size_t`
    have hend : (k + 1) * B < 0 := Int.mul_neg_of_neg_of_pos (by omega) hpos
    exact iff_of_true (by omega) (.inl hneg)
  · exact iff_of_false (by omega) (by omega)
  · have hend : 0 ≤ k * B := Int.mul_nonneg (by omega) hpos.le
    rw [Int.emod_eq_of_lt (by omega) (by omega), hnext, Int.mul_lt_mul_right hpos]
    omega

/-- **Blocks** of the disk of a partition: they are read as they should be, but for the one before the
first and the last. -/
theorem readsBlock_iff (h : OnDisk disk e) {k : ℤ} (hk : IsOff (k * blockSize disk)) :
    ReadsBlock disk e (logicalDisk disk (blockSize disk) i e).disk k ↔
      k ≠ -1 ∧ k ≠ e.lbaEnd - e.lbaStart := by
  have hle := h.ordered
  have hcheck := check_iff h hk
  unfold ReadsBlock
  rw [logicalDisk_disk h, readBytes]
  -- the logical disk refuses what is more than a block before it, and what is from its size on
  by_cases hrefused : k < -1 ∨ (e.lbaEnd : ℤ) - e.lbaStart ≤ k
  · rw [if_pos (hcheck.mpr hrefused)]
    by_cases hlast : k = e.lbaEnd - e.lbaStart
    · -- the last block, which the disk refuses
      have hblock : (e.lbaStart : ℤ) + k = e.lbaEnd := by omega
      obtain ⟨t, ht⟩ := h.readable e.lbaEnd (Nat.le_refl _)
      rw [if_pos (by omega), hblock, ht]
      exact iff_of_false (fun heq => by cases heq) (by omega)
    · rw [if_neg (by omega)]
      exact iff_of_true rfl (by omega)
  · rw [if_neg (mt hcheck.mp hrefused)]
    have hoff : k * blockSize disk + (blockSize disk * e.lbaStart : ℕ)
        = (e.lbaStart + k) * blockSize disk := by
      push_cast
      ring
    have hblock : ((e.lbaStart : ℤ) + k).toNat ≤ e.lbaEnd := by omega
    obtain ⟨b, hb⟩ : ∃ b : ℕ, (e.lbaStart : ℤ) + k = b := ⟨_, (Int.toNat_of_nonneg (by
      have := h.after_header
      omega)).symm⟩
    have hoff_lt : b * blockSize disk < (e.lbaEnd + 1) * blockSize disk :=
      Nat.mul_lt_mul_of_pos_right (by omega) disk.bottom.blockSize_pos
    have hmax := h.is_off
    rw [hoff, hb, ← Nat.cast_mul, toOff_eq_self (by constructor <;> omega), Nat.cast_mul]
    by_cases hbefore : k = -1
    · -- the block before the first, which the disk reads
      obtain ⟨t, ht⟩ := h.readable b (by omega)
      rw [if_neg (by omega), ht]
      exact iff_of_false (fun heq => by cases heq) (by omega)
    · rw [if_pos (by omega)]
      exact iff_of_true rfl (by omega)

/-- **GPT partitions.** For every GPT whose entries are not split, and in every state of the memory in which the
MDL can be made long enough, there is one logical disk for each entry that is used, in order and with the index
plus 1 as its location; a block of such a disk is read as it should be if and only if it is neither the one
before the first nor the last. -/
theorem gpt_exposed_iff (mem ent : ℕ → UInt8) (hf : Format drive disk hdr t)
    (harray : arrayMdl a m heap hdr = .ok (heap', m')) (hp : PagesOf heap'.phys) (hw : Whole hdr heap'.phys) :
    ∃ disks, initWithDisk drive mem ent a m disk heap hdr = some disks ∧
      disks.map LogicalDisk.location = (used drive (t.block * blockSize disk) hdr).map (· + 1) ∧
      ∀ d ∈ disks, ∀ i, d.location = i + 1 →
        let e := entryAt drive (t.block * blockSize disk) hdr.sizEntry i
        ∀ k, IsOff (k * blockSize disk) →
          (ReadsBlock disk e d.disk k ↔ k ≠ -1 ∧ k ≠ e.lbaEnd - e.lbaStart) := by
  refine ⟨_, initWithDisk_eq hf harray hp hw, ?_, fun d hd i hloc => ?_⟩
  · rw [List.map_map]
    rfl
  · obtain ⟨i', hi', rfl⟩ := List.mem_map.mp hd
    obtain rfl : i' = i := Nat.succ.inj hloc
    obtain ⟨hlt, hnull⟩ := mem_used hi'
    intro e k hk
    exact readsBlock_iff (hf.on_disk i' hlt hnull) hk

/-- Entries whose size is a multiple of 128 are not split. -/
theorem regular_of_dvd (mdl : Mdl ℕ) (hdvd : sizeofEntry ∣ n) (i : ℕ) : Regular mdl sizeofEntry (n * i) := by
  obtain ⟨m, rfl⟩ := hdvd
  unfold Regular
  split
  · decide
  · left
    rw [Nat.mul_assoc]
    unfold sizeofEntry pgSize
    omega

/-- A drive with an entry array of four entries at block 2, the first of which is used. -/
def fourEntries : ℤ → UInt8 := fun b =>
  if b = 1024 then 1 else if b = 1056 then 40 else if b = 1064 then 47 else 0

/-- The disk for the whole of it. -/
def wholeDisk : Disk := .logical 0 (64 * 512) (.drive Devicekit.nvmeDisk)

/-- The header, with the size of the entries. -/
def fourHeader (sizEntry : ℕ) : Header := ⟨2, 4, sizEntry⟩

/-- The array is a block long, or 16 blocks. -/
theorem fourEntries_format (h : n = 128 ∨ n = 2048) :
    Format fourEntries wholeDisk (fourHeader n) ⟨.kDKRead, n / 128, 2⟩ := by
  have hother : ∀ i < 4, i ≠ 0 → uuidIsNull (entryAt fourEntries 1024 n i).type = true := by
    rcases h with rfl | rfl
    · decide
    · decide
  have hread : readBytes wholeDisk (n * 4) (toOff (512 * 2)) = .ok ⟨.kDKRead, n / 128, 2⟩ := by
    rcases h with rfl | rfl
    · rfl
    · rfl
  have hsize : sizeofEntry ≤ n := by
    unfold sizeofEntry
    omega
  refine ⟨hsize, hread, fun i hi hused => ?_⟩
  -- the first entry is the only one in use
  obtain rfl : i = 0 := by
    by_contra hne
    exact Bool.false_ne_true (hused.symm.trans (hother i hi hne))
  have hfirst : entryAt fourEntries 1024 n 0 = entryAt fourEntries 1024 128 0 := by
    unfold entryAt
    rw [Nat.mul_zero, Nat.mul_zero]
  show OnDisk wholeDisk (entryAt fourEntries 1024 n 0)
  rw [hfirst]
  have hend : (entryAt fourEntries 1024 128 0).lbaEnd = 47 := by decide
  refine ⟨by decide, by decide, by decide, fun b hb => ?_⟩
  have hread : ∀ b < 48, (readBytes wholeDisk 512 (b * 512 : ℕ)).isOk = true := by decide
  have hb : b < 48 := Nat.lt_succ_of_le (Nat.le_trans hb (Nat.le_of_eq hend))
  have hok := hread b hb
  rw [Nat.cast_mul] at hok
  cases hr : readBytes wholeDisk (blockSize wholeDisk) (b * blockSize wholeDisk) with
  | ok t => exact ⟨t, rfl⟩
  | error c =>
      rw [show readBytes wholeDisk 512 (b * (512 : ℕ)) = .error c from hr] at hok
      cases hok

/-- An MDL of one page. -/
def onePage : HeapMdl := ⟨⟨0, 512, 1, [⟨0x5000, 0⟩]⟩, 0⟩

/-- The MDL with another page, which is not next to the first. -/
def twoPages : HeapMdl := ⟨⟨0, 8192, 2, [⟨0x5000, 0⟩, ⟨0x2000, 0⟩]⟩, 1⟩

/-- What is in the new block, and the memory that has one free page. -/
def oneFree : Alloc × Memory := ⟨⟨true, fun _ => ⟨0, 0⟩⟩, MdlExpand.ample onePage [⟨0x2000, 0⟩]⟩

/-- An array of 16 blocks needs the free page. -/
theorem arrayMdl_twoPages :
    ∃ m', arrayMdl oneFree.1 oneFree.2 onePage (fourHeader 2048) = .ok (twoPages, m') := by
  have hneed : pgRoundUp 8192 / pgSize = 2 := by decide
  have hlength : onePage.pages.length = onePage.nPages := rfl
  have hreturns : oneFree.1.returns = true := rfl
  have hfree : 2 - onePage.nPages ≤ oneFree.2.free.length := by decide
  obtain ⟨s', heq, -, -⟩ :=
    MdlExpand.vmMdlExpand_ok hneed hlength (by decide) (by decide) hreturns hfree
  exact ⟨_, (if_pos (by decide)).trans heq⟩

/-- The disk of the first entry, from block 40 to block 47: block 3 is read as it should be. -/
theorem gpt_exposed_iff_first : ∃ disks d,
    initWithDisk fourEntries (fun _ => 0) (fun _ => 0) oneFree.1 oneFree.2 wholeDisk onePage (fourHeader 2048)
        = some disks ∧
      disks.map LogicalDisk.location = [1] ∧ d ∈ disks ∧
      ReadsBlock wholeDisk (entryAt fourEntries 1024 2048 0) d.disk 3 := by
  obtain ⟨m', harray⟩ := arrayMdl_twoPages
  have hp : PagesOf twoPages.phys := ⟨rfl, rfl, by decide, by decide, by decide⟩
  have hw : Whole (fourHeader 2048) twoPages.phys :=
    ⟨by decide, fun i _ => regular_of_dvd _ (by decide) i⟩
  obtain ⟨disks, hdisks, hlocs, hblocks⟩ := gpt_exposed_iff (fun _ => 0) (fun _ => 0)
    (fourEntries_format (.inr rfl)) harray hp hw
  have hlocs : disks.map LogicalDisk.location = [1] := hlocs.trans (by decide)
  obtain ⟨d, hd, hloc⟩ : ∃ d ∈ disks, d.location = 1 := by
    rw [← List.mem_map, hlocs]
    exact List.mem_singleton_self 1
  have hoff : IsOff (3 * blockSize wholeDisk) := ⟨by decide, by decide⟩
  exact ⟨disks, d, hdisks, hlocs, hd, (hblocks d hd 0 hloc 3 hoff).mpr (by decide)⟩

/-- Its last block, block 7, is not read. -/
theorem gpt_exposed_last : ¬ ∀ (drive : ℤ → UInt8) (mem ent : ℕ → UInt8) (a : Alloc) (m m' : Memory) (disk : Disk)
    (heap heap' : HeapMdl) (hdr : Header) (t : Transfer), Format drive disk hdr t →
    arrayMdl a m heap hdr = .ok (heap', m') → PagesOf heap'.phys → Whole hdr heap'.phys →
    ∃ disks, initWithDisk drive mem ent a m disk heap hdr = some disks ∧
      disks.map LogicalDisk.location = (used drive (t.block * blockSize disk) hdr).map (· + 1) ∧
      ∀ d ∈ disks, ∀ i, d.location = i + 1 → ∀ k, IsOff (k * blockSize disk) →
        ReadsBlock disk (entryAt drive (t.block * blockSize disk) hdr.sizEntry i) d.disk k := by
  intro h
  have hf := fourEntries_format (.inl rfl)
  -- The array of four entries of 128 bytes is not longer than the page.
  have harray : arrayMdl oneFree.1 oneFree.2 onePage (fourHeader 128) = .ok (onePage, oneFree.2) :=
    if_neg (by decide)
  have hp : PagesOf onePage.phys := ⟨rfl, rfl, by decide, by decide, by decide⟩
  have hw : Whole (fourHeader 128) onePage.phys :=
    ⟨by decide, fun i _ => regular_of_dvd _ (Nat.dvd_refl _) i⟩
  obtain ⟨disks, hdisks, -, hblocks⟩ := h fourEntries (fun _ => 0) (fun _ => 0) oneFree.1 oneFree.2 oneFree.2
    wholeDisk onePage onePage (fourHeader 128) _ hf harray hp hw
  rw [initWithDisk_eq hf harray hp hw] at hdisks
  cases hdisks
  have hmem : 0 ∈ used fourEntries 1024 (fourHeader 128) := by decide
  have hoff : IsOff (7 * blockSize wholeDisk) := ⟨by decide, by decide⟩
  have hread := hblocks _ (List.mem_map_of_mem hmem) 0 rfl 7 hoff
  have hused := mem_used hmem
  exact ((readsBlock_iff (hf.on_disk 0 hused.1 hused.2) hoff).mp hread).2 (by decide)

end Scalux.Gpt
