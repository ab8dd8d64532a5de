import Mathlib.Algebra.BigOperators.Group.List.Basic
import Mathlib.Data.Int.Basic
import Mathlib.Tactic.Ring

/-! # Logical disks

`devicekit/DKDisk.m` and `devicekit/DKLogicalDisk.m`.  A `DKLogicalDisk` "passes all operations up to an
underlying disk object, with an offset"; below a chain of them is a `DKDrive`, which checks the request
and asks its delegate for blocks.

* An `off_t` is an integer from `-2 ^ 63` on and below `2 ^ 63`, and sums of them wrap (`toOff`); the
  comparisons with a `size_t` are unsigned.
* `readBlocks` and `writeBlocks` of the delegate are those of a medium that keeps its blocks.

* **`readBytes_ok`**: a read reaches the drive at the offset plus the bases of the chain.
* **`writeBytes_ok`**: a write reaches it at the offset.
* **`same_bytes_iff`**: they address the same bytes exactly if the bases sum to zero. -/

namespace Scalux.Devicekit

/-- The error codes. -/
inductive Errno
  | einval
  | eopnotsupp
  deriving DecidableEq, Repr

/-- `dk_strategy_t`. -/
inductive Strategy
  | kDKRead
  | kDKWrite
  deriving DecidableEq, Repr

/-- A sum of offsets as an `off_t`. -/
def toOff (x : ℤ) : ℤ := Int.bmod x (2 ^ 64)

/-- An `off_t`. -/
def IsOff (x : ℤ) : Prop := -2 ^ 63 ≤ x ∧ x < 2 ^ 63

/-- A `DKDrive`. -/
structure Drive where
  blockSize : ℕ
  maxBlockTransfer : ℕ
  /-- The size of a block is a power of two. -/
  blockSize_pos : 0 < blockSize

/-- What a drive asks its delegate for. -/
structure Transfer where
  strategy : Strategy
  nBlocks : ℕ
  block : ℤ
  deriving DecidableEq, Repr

/-- `commonIO` of a `DKDrive`, up to the call of the delegate. -/
def commonIO (d : Drive) (strategy : Strategy) (nBytes : ℕ) (offset : ℤ) : Except Errno Transfer :=
  if d.maxBlockTransfer * d.blockSize % 2 ^ 64 < nBytes then .error .eopnotsupp
  else if offset.tmod d.blockSize ≠ 0 ∨ nBytes % d.blockSize ≠ 0 then .error .eopnotsupp
  else .ok ⟨strategy, nBytes / d.blockSize, offset.tdiv d.blockSize⟩

/-- A disk: a drive, or a logical disk on an underlying one. -/
inductive Disk
  | drive (d : Drive)
  | logical (base : ℤ) (size : ℕ) (underlying : Disk)

/-- `readBytes:at:intoBuffer:completion:`. -/
def readBytes : Disk → ℕ → ℤ → Except Errno Transfer
  | .drive d, nBytes, offset => commonIO d .kDKRead nBytes offset
  | .logical base size underlying, nBytes, offset =>
      if (size : ℤ) < (offset + nBytes) % 2 ^ 64 then .error .einval
      else readBytes underlying nBytes (toOff (offset + base))

/-- `writeBytes:at:fromBuffer:completion:`. -/
def writeBytes : Disk → ℕ → ℤ → Except Errno Transfer
  | .drive d, nBytes, offset => commonIO d .kDKWrite nBytes offset
  | .logical _ size underlying, nBytes, offset =>
      if (size : ℤ) < (offset + nBytes) % 2 ^ 64 then .error .einval
      else writeBytes underlying nBytes offset

/-- The drive below a chain of logical disks. -/
def Disk.bottom : Disk → Drive
  | .drive d => d
  | .logical _ _ underlying => underlying.bottom

/-- The bases of a chain, outermost first. -/
def Disk.bases : Disk → List ℤ
  | .drive _ => []
  | .logical base _ underlying => base :: underlying.bases

/-! ## The medium -/

section Medium

variable {B : Type*}

/-- `readBlocks:at:intoBuffer:completion:` of a medium. -/
def readBlocks (medium : ℤ → B) (t : Transfer) : List B :=
  (List.range t.nBlocks).map fun i : ℕ => medium (t.block + i)

/-- `writeBlocks:at:fromBuffer:completion:` of a medium. -/
def writeBlocks (medium : ℤ → B) (t : Transfer) (buf : ℕ → B) : ℤ → B := fun b =>
  if t.block ≤ b ∧ b < t.block + t.nBlocks then buf (b - t.block).toNat else medium b

/-- What has been written to blocks is read from them. -/
theorem readBlocks_writeBlocks (medium : ℤ → B) (buf : ℕ → B) {t t' : Transfer}
    (hn : t'.nBlocks = t.nBlocks) (hblock : t'.block = t.block) :
    readBlocks (writeBlocks medium t buf) t' = (List.range t.nBlocks).map buf := by
  unfold readBlocks writeBlocks
  rw [hn, hblock]
  refine List.map_congr_left fun i hi => ?_
  have hlt := List.mem_range.mp hi
  rw [if_pos (by omega)]
  congr 1
  omega

end Medium

/-! ## Where a request reaches the drive -/

variable {disk : Disk} {nBytes : ℕ} {offset : ℤ} {t t' : Transfer}

/-- An `off_t` is itself. -/
theorem toOff_eq_self (h : IsOff offset) : toOff offset = offset := by
  unfold toOff
  unfold IsOff at h
  refine Int.bmod_eq_of_le ?_ ?_ <;> omega

/-- A sum of offsets is an `off_t`. -/
theorem isOff_toOff (x : ℤ) : IsOff (toOff x) := by
  have hle := Int.le_bmod (x := x) (m := 2 ^ 64) (by decide)
  have hlt := Int.bmod_lt (x := x) (m := 2 ^ 64) (by decide)
  unfold IsOff toOff
  omega

/-- The bases are added one after the other. -/
theorem toOff_add_toOff (x y : ℤ) : toOff (toOff x + y) = toOff (x + y) := Int.bmod_add_bmod

/-- **Reads.** A read that is accepted at every level reaches the drive at the offset plus the bases. -/
theorem readBytes_ok (hoff : IsOff offset) (h : readBytes disk nBytes offset = .ok t) :
    commonIO disk.bottom .kDKRead nBytes (toOff (offset + disk.bases.sum)) = .ok t := by
  induction disk generalizing offset with
  | drive d =>
      rw [Disk.bases, List.sum_nil, add_zero, toOff_eq_self hoff]
      exact h
  | logical base size underlying ih =>
      rw [readBytes] at h
      split at h
      · cases h
      · have hread := ih (isOff_toOff _) h
        rw [toOff_add_toOff, add_assoc] at hread
        rw [Disk.bases, List.sum_cons]
        exact hread

/-- **Writes.** A write that is accepted at every level reaches the drive at the offset. -/
theorem writeBytes_ok (h : writeBytes disk nBytes offset = .ok t) :
    commonIO disk.bottom .kDKWrite nBytes offset = .ok t := by
  induction disk with
  | drive d => exact h
  | logical base size underlying ih =>
      rw [writeBytes] at h
      split at h
      · cases h
      · exact ih h

/-- The blocks that a drive asks its delegate for. -/
theorem commonIO_ok {d : Drive} {strategy : Strategy} (h : commonIO d strategy nBytes offset = .ok t) :
    t = ⟨strategy, nBytes / d.blockSize, offset.tdiv d.blockSize⟩ ∧ t.block * d.blockSize = offset := by
  unfold commonIO at h
  split at h
  · cases h
  · split at h
    · cases h
    · rename_i haligned
      obtain ⟨hoffset, -⟩ := not_or.mp haligned
      cases h
      exact ⟨rfl, Int.tdiv_mul_cancel_of_tmod_eq_zero (not_not.mp hoffset)⟩

/-- What a chain of logical disks is for: both kinds of requests reach the drive at the offset plus the
bases, and what is written through the disk is read back through it, and through the drive at the shifted
offset. -/
structure SameBytes (disk : Disk) (nBytes : ℕ) (offset : ℤ) (r w : Transfer) : Prop where
  read_at : r.block * disk.bottom.blockSize = toOff (offset + disk.bases.sum)
  write_at : w.block * disk.bottom.blockSize = toOff (offset + disk.bases.sum)
  read_back : ∀ {B : Type} (medium : ℤ → B) (buf : ℕ → B),
    readBlocks (writeBlocks medium w buf) r = (List.range w.nBlocks).map buf
  read_drive : ∀ {B : Type} (medium : ℤ → B) (buf : ℕ → B) (r' : Transfer),
    readBytes (.drive disk.bottom) nBytes (toOff (offset + disk.bases.sum)) = .ok r' →
      readBlocks (writeBlocks medium w buf) r' = (List.range w.nBlocks).map buf

/-- **Stacked logical disks.** A read and a write that are accepted at every level address the same bytes
of the drive, those at the offset plus the bases, exactly if the bases sum to zero. -/
theorem same_bytes_iff {r w : Transfer} (hoff : IsOff offset) (hr : readBytes disk nBytes offset = .ok r)
    (hw : writeBytes disk nBytes offset = .ok w) :
    SameBytes disk nBytes offset r w ↔ toOff disk.bases.sum = 0 := by
  have hread := readBytes_ok hoff hr
  obtain ⟨hreq, hrat⟩ := commonIO_ok hread
  obtain ⟨hweq, hwat⟩ := commonIO_ok (writeBytes_ok hw)
  constructor
  · intro h
    have heq : toOff (offset + disk.bases.sum) = offset := h.write_at.symm.trans hwat
    -- read and write reach the same block only if the bases that the read adds vanish modulo `2^64`
    have hsub := Int.bmod_sub_bmod (x := offset + disk.bases.sum) (n := 2 ^ 64) (y := offset)
    rw [show (offset + disk.bases.sum).bmod (2 ^ 64) = offset from heq, sub_self,
      add_sub_cancel_left] at hsub
    exact hsub.symm.trans Int.zero_bmod
  · intro hzero
    have hshift : toOff (offset + disk.bases.sum) = offset := by
      calc toOff (offset + disk.bases.sum)
          = toOff (offset + toOff disk.bases.sum) := Int.add_bmod_bmod.symm
        _ = toOff offset := by rw [hzero, add_zero]
        _ = offset := toOff_eq_self hoff
    have hblocks : r.nBlocks = w.nBlocks := by rw [hreq, hweq]
    have hblock : r.block = w.block := by rw [hreq, hweq, hshift]
    constructor
    case read_at => exact hrat
    case write_at => exact hwat.trans hshift.symm
    case read_back => exact fun medium buf => readBlocks_writeBlocks medium buf hblocks hblock
    case read_drive =>
      intro B medium buf r' hr'
      obtain ⟨hreq', -⟩ := commonIO_ok hr'
      refine readBlocks_writeBlocks medium buf ?_ ?_
      · rw [hreq', hweq]
      · rw [hreq', hweq, hshift]

/-- A drive of 512-byte blocks. -/
def nvmeDisk : Drive := ⟨512, 256, by decide⟩

/-- A logical disk that begins one block before the one it is on, which begins at the second block of the
drive. -/
def stackedDisk : Disk := .logical (-512) 0x10000 (.logical 512 0x10000000 (.drive nvmeDisk))

/-- A read and a write of its second block. -/
theorem same_bytes_iff_stacked :
    readBytes stackedDisk 512 512 = .ok ⟨.kDKRead, 1, 1⟩ ∧
      writeBytes stackedDisk 512 512 = .ok ⟨.kDKWrite, 1, 1⟩ ∧
      SameBytes stackedDisk 512 512 ⟨.kDKRead, 1, 1⟩ ⟨.kDKWrite, 1, 1⟩ :=
  ⟨by decide, by decide,
    (same_bytes_iff (by unfold IsOff; omega) (by decide) (by decide)).mpr (by decide)⟩

/-- **A partition overwrites the partition table.** On a partition that begins at 1 MiB a read of the
first block reaches block 2048 of the drive, and a write reaches block 0. -/
theorem partition_write_misses :
    ¬ ∀ disk nBytes offset r w, IsOff offset → readBytes disk nBytes offset = .ok r →
      writeBytes disk nBytes offset = .ok w → SameBytes disk nBytes offset r w := by
  intro h
  have hsame := h (.logical 0x100000 0x10000000 (.logical 0 0x100000000 (.drive nvmeDisk))) 512 0
    ⟨.kDKRead, 1, 2048⟩ ⟨.kDKWrite, 1, 0⟩ (by unfold IsOff; omega) (by decide) (by decide)
  exact absurd hsame.write_at (by decide)

end Scalux.Devicekit
