import Scalux.Kern.Config
import Scalux.Devicekit.Disk

/-! # The limits of a read

`commonIO` of a `DKDrive` admits requests of up to `m_maxBlockTransfer` blocks, and the `NVMeDisk` takes
this number from its controller (`dev/NVMeDisk.m`).  `readBlocks` of `dev/NVMeController.m` asserts that
there are fewer, and puts the number into a field of 16 bits that counts from 0.

* The PRPs of the command are those of `Scalux.Dev.NvmePrp`, and the queue is that of `Scalux.Dev.Nvme`.

* **`commonIO_read`**: what the drive admits.
* **`nlb_eq_iff`**: the numbers of blocks that the field holds.
* **`read_admitted_iff`**: the requests that are admitted and valid for the driver: those of some blocks,
  of fewer than the maximum, and of no more than 65536. -/

namespace Scalux.Nvme

open Devicekit (Drive Transfer commonIO toOff toOff_eq_self)

/-- An `NVMeController`, as far as reads depend on it. -/
structure Controller where
  maxBlockTransfer : ℕ
  /-- A `blkcnt_t`. -/
  maxBlockTransfer_lt : maxBlockTransfer < 2 ^ 63

/-- `identifyController`: the largest transfer is `2 ^ mdts` pages, and the product is an `int`. -/
def identifyController (mdts : ℕ) (hmdts : mdts < 19) : Controller where
  maxBlockTransfer := 2 ^ mdts * pgSize / 512
  maxBlockTransfer_lt := by
    have hpow : 2 ^ mdts ≤ 2 ^ 18 := Nat.pow_le_pow_right (by decide) (by omega)
    unfold pgSize
    omega

/-- `initWithAttachmentInfo` of an `NVMeDisk`: a block has `1 << lbads` bytes. -/
def initWithAttachmentInfo (c : Controller) (lbads : ℕ) : Drive :=
  ⟨2 ^ lbads, c.maxBlockTransfer, Nat.two_pow_pos lbads⟩

/-- `NVM_CMD_READ`. -/
def nvmCmdRead : ℕ := 0x02

/-- `struct nvme_sqe_io`, with the number of bytes that is kept in the request. -/
structure SqeIo where
  opcode : ℕ
  nsid : ℕ
  slba : ℕ
  nlb : ℕ
  nbytes : ℕ
  deriving DecidableEq, Repr

/-- `readBlocks` of an `NVMeController`, up to the PRPs. -/
def Controller.readBlocks (c : Controller) (nsid : ℕ) (nBlocks offset : ℤ) : Option SqeIo :=
  if nBlocks < c.maxBlockTransfer then
    some ⟨nvmCmdRead, nsid, (offset % 2 ^ 64).toNat, ((nBlocks - 1) % 2 ^ 16).toNat,
      (nBlocks * 512 % 2 ^ 64).toNat⟩
  else none

/-- `readBlocks` of an `NVMeDisk`: the number of blocks is a `blksize_t`. -/
def diskReadBlocks (c : Controller) (nsid : ℕ) (t : Transfer) : Option SqeIo :=
  c.readBlocks nsid (toOff t.nBlocks) t.block

variable {c : Controller} {lbads nsid nBytes : ℕ} {offset : ℤ} {t : Transfer}

/-- What the drive admits, and what it then asks for. -/
theorem commonIO_read (h : commonIO (initWithAttachmentInfo c lbads) .kDKRead nBytes offset = .ok t) :
    nBytes < 2 ^ 64 ∧ nBytes ≤ c.maxBlockTransfer * 2 ^ lbads ∧ nBytes = t.nBlocks * 2 ^ lbads := by
  unfold commonIO initWithAttachmentInfo at h
  dsimp only at h
  split at h
  · cases h
  · rename_i hmax
    have hmax := Nat.not_lt.mp hmax
    split at h
    · cases h
    · rename_i haligned
      push Not at haligned
      cases h
      have hlt : c.maxBlockTransfer * 2 ^ lbads % 2 ^ 64 < 2 ^ 64 := Nat.mod_lt _ (Nat.two_pow_pos 64)
      refine ⟨Nat.lt_of_le_of_lt hmax hlt, Nat.le_trans hmax (Nat.mod_le _ _), ?_⟩
      exact (Nat.div_mul_cancel (Nat.dvd_of_mod_eq_zero haligned.2)).symm

/-- The number of blocks is a `blksize_t`. -/
theorem nBlocks_lt (h : commonIO (initWithAttachmentInfo c lbads) .kDKRead nBytes offset = .ok t) :
    t.nBlocks < 2 ^ 63 := by
  obtain ⟨-, hmax, rfl⟩ := commonIO_read h
  have hle : t.nBlocks ≤ c.maxBlockTransfer := Nat.le_of_mul_le_mul_right hmax (Nat.two_pow_pos lbads)
  exact Nat.lt_of_le_of_lt hle c.maxBlockTransfer_lt

/-- The field holds the numbers from 1 to 65536. -/
theorem nlb_eq_iff (n : ℕ) : (((n : ℤ) - 1) % 2 ^ 16).toNat + 1 = n ↔ n ≠ 0 ∧ n ≤ 2 ^ 16 := by
  omega

/-- **Reads** that the drive passes on.  The assertion of the driver holds and the command is for the
blocks that were asked for if and only if there is a block to be read, there are fewer than the maximum,
and there are no more than 65536. -/
theorem read_admitted_iff
    (h : commonIO (initWithAttachmentInfo c lbads) .kDKRead nBytes offset = .ok t) :
    (∃ io, diskReadBlocks c nsid t = some io ∧ io.nlb + 1 = nBytes / 2 ^ lbads) ↔
      nBytes ≠ 0 ∧ nBytes < c.maxBlockTransfer * 2 ^ lbads ∧ nBytes ≤ 2 ^ 16 * 2 ^ lbads := by
  have hpos := Nat.two_pow_pos lbads
  have hoff : toOff t.nBlocks = t.nBlocks := by
    apply toOff_eq_self
    have hlt := nBlocks_lt h
    constructor <;> omega
  obtain ⟨-, -, rfl⟩ := commonIO_read h
  unfold diskReadBlocks Controller.readBlocks
  rw [hoff, Nat.mul_div_cancel _ hpos, Nat.mul_lt_mul_right hpos, Nat.mul_le_mul_right_iff hpos,
    Nat.mul_ne_zero_iff]
  -- the assertion is strict: the largest transfer itself does not pass
  by_cases hlt : t.nBlocks < c.maxBlockTransfer
  · rw [if_pos (Int.ofNat_lt.mpr hlt)]
    constructor
    · rintro ⟨io, hio, hnlb⟩
      cases hio
      obtain ⟨hne, hle⟩ := (nlb_eq_iff _).mp hnlb
      exact ⟨⟨hne, hpos.ne'⟩, hlt, hle⟩
    · rintro ⟨⟨hne, -⟩, -, hle⟩
      exact ⟨_, rfl, (nlb_eq_iff _).mpr ⟨hne, hle⟩⟩
  · rw [if_neg (mt Int.ofNat_lt.mp hlt)]
    constructor
    · rintro ⟨io, hio, -⟩
      cases hio
    · rintro ⟨-, hlt', -⟩
      exact absurd hlt' hlt

/-- A read of a page of a disk with blocks of 512 bytes. -/
theorem read_admitted_iff_page :
    commonIO (initWithAttachmentInfo (identifyController 5 (by decide)) 9) .kDKRead 4096 512
        = .ok ⟨.kDKRead, 8, 1⟩ ∧
      ∃ io, diskReadBlocks (identifyController 5 (by decide)) 1 ⟨.kDKRead, 8, 1⟩ = some io ∧
        io.nlb + 1 = 4096 / 2 ^ 9 := by
  have hread : commonIO (initWithAttachmentInfo (identifyController 5 (by decide)) 9) .kDKRead 4096 512
      = .ok ⟨.kDKRead, 8, 1⟩ := by decide
  exact ⟨hread, (read_admitted_iff hread).mpr (by decide)⟩

/-- A read of as many blocks as the controller transfers is admitted, and fails the assertion. -/
theorem read_admitted_largest :
    ¬ ∀ (c : Controller) (lbads nsid nBytes : ℕ) (offset : ℤ) (t : Transfer),
      commonIO (initWithAttachmentInfo c lbads) .kDKRead nBytes offset = .ok t →
      ∃ io, diskReadBlocks c nsid t = some io ∧ io.nlb + 1 = nBytes / 2 ^ lbads := by
  intro h
  have hfails : diskReadBlocks (identifyController 5 (by decide)) 1 ⟨.kDKRead, 256, 0⟩ = none := by decide
  obtain ⟨io, hio, -⟩ := h (identifyController 5 (by decide)) 9 1 131072 0 ⟨.kDKRead, 256, 0⟩ (by decide)
  rw [hfails] at hio
  cases hio

end Scalux.Nvme
