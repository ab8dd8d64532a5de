import Scalux.Devicekit.Disk

/-! # The bounds of logical disks

Each `DKLogicalDisk` of a chain compares the end of a request with its size, `offset + nBytes > m_size`,
and forwards the request or returns `-EINVAL`.  The sum is a `size_t`: a negative offset is a large number
there, and the sum wraps.

* **`request_eq`**: a request that every logical disk accepts is the drive's, any other fails with
  `-EINVAL`.
* **`logical_disk_bounds_iff`**: the requests that are forwarded exactly if they lie in the partition, at
  each level, and that reach the drive inside of each partition. -/

namespace Scalux.Devicekit

variable {strategy : Strategy} {disk : Disk} {nBytes : ℕ} {offset : ℤ} {place : ℤ}

/-- The test of a `DKLogicalDisk`. -/
def accepts (size nBytes : ℕ) (offset : ℤ) : Bool := (offset + nBytes) % 2 ^ 64 ≤ size

/-- The offset that a `DKLogicalDisk` forwards a request at. -/
def forwardAt (strategy : Strategy) (base offset : ℤ) : ℤ :=
  match strategy with
  | .kDKRead => toOff (offset + base)
  | .kDKWrite => offset

/-- A read or a write. -/
def request (strategy : Strategy) (disk : Disk) (nBytes : ℕ) (offset : ℤ) : Except Errno Transfer :=
  match strategy with
  | .kDKRead => readBytes disk nBytes offset
  | .kDKWrite => writeBytes disk nBytes offset

/-- Where a request that every logical disk accepts reaches the drive. -/
def reaches (strategy : Strategy) : Disk → ℕ → ℤ → Option ℤ
  | .drive _, _, offset => some offset
  | .logical base size underlying, nBytes, offset =>
      if accepts size nBytes offset then reaches strategy underlying nBytes (forwardAt strategy base offset)
      else none

/-- The partitions of a chain, outermost first: where each begins on the drive, and its size. -/
def Disk.extents : Disk → List (ℤ × ℕ)
  | .drive _ => []
  | .logical base size underlying => (base + underlying.bases.sum, size) :: underlying.extents

/-- `m_base` is an `off_t` and `m_size` a `size_t`. -/
def Disk.WellTyped : Disk → Prop
  | .drive _ => True
  | .logical base size underlying => IsOff base ∧ size < 2 ^ 64 ∧ underlying.WellTyped

/-- A `DKLogicalDisk` forwards a request that it accepts. -/
theorem request_logical (base : ℤ) (size : ℕ) (underlying : Disk) :
    request strategy (.logical base size underlying) nBytes offset
      = if accepts size nBytes offset then request strategy underlying nBytes (forwardAt strategy base offset)
        else .error .einval := by
  unfold accepts
  cases strategy <;> simp only [request, readBytes, writeBytes, forwardAt, decide_eq_true_eq] <;>
    by_cases hlt : (size : ℤ) < (offset + nBytes) % 2 ^ 64
  · rw [if_pos hlt, if_neg (Int.not_le.mpr hlt)]
  · rw [if_neg hlt, if_pos (Int.not_lt.mp hlt)]
  · rw [if_pos hlt, if_neg (Int.not_le.mpr hlt)]
  · rw [if_neg hlt, if_pos (Int.not_lt.mp hlt)]

/-- **Requests.** What a chain of logical disks returns. -/
theorem request_eq (strategy : Strategy) (disk : Disk) (nBytes : ℕ) (offset : ℤ) :
    request strategy disk nBytes offset = match reaches strategy disk nBytes offset with
      | some place => commonIO disk.bottom strategy nBytes place
      | none => .error .einval := by
  induction disk generalizing offset with
  | drive d => cases strategy <;> rfl
  | logical base size underlying ih =>
      rw [request_logical, reaches]
      split
      · exact ih _
      · rfl

/-! ## The properties -/

/-- Every logical disk that gets the request forwards it if it lies in `[0, m_size)`, and otherwise returns
`-EINVAL` without forwarding it. -/
def Checked (strategy : Strategy) : Disk → ℕ → ℤ → Prop
  | .drive _, _, _ => True
  | .logical base size underlying, nBytes, offset =>
      (accepts size nBytes offset = true ↔ 0 ≤ offset ∧ offset + nBytes ≤ size) ∧
        (accepts size nBytes offset = false →
          request strategy (.logical base size underlying) nBytes offset = .error .einval) ∧
        (accepts size nBytes offset = true →
          Checked strategy underlying nBytes (forwardAt strategy base offset))

/-- What the tests are for: they are right at each level, and a request that gets through all of them is the
drive's, and addresses bytes inside of each partition. -/
structure Bounded (strategy : Strategy) (disk : Disk) (nBytes : ℕ) (offset : ℤ) : Prop where
  checked : Checked strategy disk nBytes offset
  forwarded : ∀ place, reaches strategy disk nBytes offset = some place →
    request strategy disk nBytes offset = commonIO disk.bottom strategy nBytes place
  inside : ∀ place, reaches strategy disk nBytes offset = some place →
    ∀ x ∈ disk.extents, x.1 ≤ place ∧ place + nBytes ≤ x.1 + x.2

/-- A logical disk that accepts the request gets it at an offset that is not negative, and the sum does
not wrap. -/
def NoWrap (strategy : Strategy) : Disk → ℕ → ℤ → Prop
  | .drive _, _, _ => True
  | .logical base size underlying, nBytes, offset => accepts size nBytes offset = true →
      0 ≤ offset ∧ offset + nBytes < 2 ^ 64 ∧
        NoWrap strategy underlying nBytes (forwardAt strategy base offset)

/-- If every level accepts the request: for a read, the offset plus the bases is an `off_t`; for a write,
which is not moved, each partition begins at the offset or before it, but not so far before it that the
request does not fit. -/
def Placed (strategy : Strategy) (disk : Disk) (nBytes : ℕ) (offset : ℤ) : Prop :=
  reaches strategy disk nBytes offset ≠ none → match strategy with
    | .kDKRead => IsOff (offset + disk.bases.sum)
    | .kDKWrite => ∀ x ∈ disk.extents, x.1 ≤ offset ∧ offset + nBytes - x.2 ≤ x.1

/-! ## The tests -/

/-- The tests are right where the sums do not wrap. -/
theorem checked_iff (h : disk.WellTyped) :
    Checked strategy disk nBytes offset ↔ NoWrap strategy disk nBytes offset := by
  induction disk generalizing offset with
  | drive d => exact Iff.rfl
  | logical base size underlying ih =>
      obtain ⟨-, hsize, hunder⟩ := h
      rw [Checked, NoWrap, ih hunder]
      have haccepts : accepts size nBytes offset = true ↔ (offset + nBytes) % 2 ^ 64 ≤ (size : ℤ) :=
        decide_eq_true_iff
      -- accepted requests are inside exactly when the sum does not wrap past a negative offset
      constructor
      · rintro ⟨hiff, -, hnext⟩ hacc
        obtain ⟨hpos, hle⟩ := hiff.mp hacc
        exact ⟨hpos, by omega, hnext hacc⟩
      · intro h
        refine ⟨⟨fun hacc => ?_, fun ⟨hpos, hle⟩ => ?_⟩, fun hrej => ?_, fun hacc => (h hacc).2.2⟩
        · obtain ⟨hpos, hlt, -⟩ := h hacc
          rw [haccepts, Int.emod_eq_of_lt (by omega) hlt] at hacc
          exact ⟨hpos, hacc⟩
        · rw [haccepts, Int.emod_eq_of_lt (by omega) (by omega)]
          exact hle
        · rw [request_logical, hrej]
          rfl

/-- A write is not moved. -/
theorem reaches_write (h : reaches .kDKWrite disk nBytes offset = some place) : place = offset := by
  induction disk with
  | drive d => exact (Option.some.inj h).symm
  | logical base size underlying ih =>
      rw [reaches] at h
      split at h
      · exact ih h
      · cases h

/-- The sum of a base and an offset that is not negative is too large or an `off_t`. -/
theorem toOff_add {base : ℤ} (hb : IsOff base) (ho : IsOff offset) (hpos : 0 ≤ offset) :
    IsOff (offset + base) ∨ toOff (offset + base) < base ∧ toOff (offset + base) < 0 := by
  rcases lt_or_ge (offset + base) (2 ^ 63) with hlt | hge
  · left
    unfold IsOff at hb ⊢
    omega
  · right
    have heq : toOff (offset + base) = offset + base - 2 ^ 64 := by
      unfold IsOff at hb ho
      rw [toOff, Int.bmod_def]
      split <;> omega
    unfold IsOff at hb ho
    omega

/-! ## The place of a read on the drive -/

/-- Where a read reaches the drive. -/
theorem reaches_read (ho : IsOff offset) (h : reaches .kDKRead disk nBytes offset = some place) :
    place = toOff (offset + disk.bases.sum) := by
  induction disk generalizing offset with
  | drive d =>
      rw [Disk.bases, List.sum_nil, add_zero, toOff_eq_self ho]
      exact (Option.some.inj h).symm
  | logical base size underlying ih =>
      rw [reaches] at h
      split at h
      · have hnext : place = toOff (toOff (offset + base) + underlying.bases.sum) := ih (isOff_toOff _) h
        rw [hnext, toOff_add_toOff, Disk.bases, List.sum_cons, add_assoc]
      · cases h

/-- A read that a logical disk below accepts has not been moved too far; if the drive is next, that is a
condition on where the partition ends. -/
theorem forward_read {base : ℤ} {underlying : Disk} (hb : IsOff base) (ho : IsOff offset)
    (hpos : 0 ≤ offset) (hnext : NoWrap .kDKRead underlying nBytes (toOff (offset + base)))
    (hreach : reaches .kDKRead underlying nBytes (toOff (offset + base)) = some place)
    (hlast : ∀ d, underlying = .drive d → IsOff (offset + base)) :
    toOff (offset + base) = offset + base := by
  rcases toOff_add hb ho hpos with hoff | ⟨-, hneg⟩
  · exact toOff_eq_self hoff
  · cases underlying with
    | drive d => exact toOff_eq_self (hlast d rfl)
    | logical base' size' underlying' =>
        rw [reaches] at hreach
        split at hreach
        · rename_i hacc
          have hpos' := (hnext hacc).1
          omega
        · cases hreach

/-- A read that gets through is inside of each partition if the offset plus the bases is an `off_t`. -/
theorem inside_read (h : disk.WellTyped) (ho : IsOff offset) (hw : NoWrap .kDKRead disk nBytes offset)
    (hreach : reaches .kDKRead disk nBytes offset = some place) (hoff : IsOff (offset + disk.bases.sum)) :
    ∀ x ∈ disk.extents, x.1 ≤ place ∧ place + nBytes ≤ x.1 + x.2 := by
  induction disk generalizing offset with
  | drive d =>
      intro x hx
      cases hx
  | logical base size underlying ih =>
      obtain ⟨hb, hsize, hunder⟩ := h
      have hat := reaches_read ho hreach
      rw [toOff_eq_self hoff, Disk.bases, List.sum_cons] at hat
      rw [Disk.bases, List.sum_cons] at hoff
      rw [reaches] at hreach
      split at hreach
      · rename_i hacc
        obtain ⟨hpos, hlt, hnext⟩ := hw hacc
        have hle : (offset + nBytes) % 2 ^ 64 ≤ (size : ℤ) := decide_eq_true_iff.mp hacc
        rw [Int.emod_eq_of_lt (by omega) hlt] at hle
        -- the underlying disk is asked at the offset plus the base
        have hmove := forward_read hb ho hpos hnext hreach fun d hd => by
          rw [hd, Disk.bases, List.sum_nil, add_zero] at hoff
          exact hoff
        intro x hx
        rcases List.mem_cons.mp hx with rfl | hx
        · dsimp only
          omega
        · refine ih hunder (isOff_toOff _) hnext hreach ?_ x hx
          rw [hmove, add_assoc]
          exact hoff
      · cases hreach

/-- Conversely, a read that is inside of each partition has not been moved too far. -/
theorem isOff_of_inside (h : disk.WellTyped) (ho : IsOff offset)
    (hw : NoWrap .kDKRead disk nBytes offset)
    (hreach : reaches .kDKRead disk nBytes offset = some place)
    (hin : ∀ x ∈ disk.extents, x.1 ≤ place ∧ place + nBytes ≤ x.1 + x.2) :
    IsOff (offset + disk.bases.sum) := by
  induction disk generalizing offset with
  | drive d =>
      rw [Disk.bases, List.sum_nil, add_zero]
      exact ho
  | logical base size underlying ih =>
      obtain ⟨hb, hsize, hunder⟩ := h
      rw [reaches] at hreach
      split at hreach
      · rename_i hacc
        obtain ⟨hpos, -, hnext⟩ := hw hacc
        have hmove := forward_read hb ho hpos hnext hreach fun d hd => by
          subst hd
          have hat : toOff (offset + base) = place := Option.some.inj hreach
          have hge : base + 0 ≤ place := (hin _ List.mem_cons_self).1
          exact (toOff_add hb ho hpos).resolve_right fun hlow => by omega
        -- the place is inside the disk below, so adding the base has not wrapped
        have hsum : IsOff (toOff (offset + base) + underlying.bases.sum) :=
          ih hunder (isOff_toOff _) hnext hreach fun x hx => hin x (List.mem_cons_of_mem _ hx)
        rw [hmove, add_assoc] at hsum
        rw [Disk.bases, List.sum_cons]
        exact hsum
      · cases hreach

/-- **The bounds of logical disks.** The tests of a chain of logical disks are right for a request, and
keep it inside of each partition, exactly if no sum wraps and the request is where the partitions are. -/
theorem logical_disk_bounds_iff (h : disk.WellTyped) (ho : IsOff offset) :
    Bounded strategy disk nBytes offset ↔
      NoWrap strategy disk nBytes offset ∧ Placed strategy disk nBytes offset := by
  constructor
  · rintro ⟨hchecked, -, hinside⟩
    have hw := (checked_iff h).mp hchecked
    refine ⟨hw, fun hne => ?_⟩
    obtain ⟨place, hreach⟩ := Option.ne_none_iff_exists'.mp hne
    -- a read adds the bases on its way down, a write is handed on as it is
    cases strategy with
    | kDKRead => exact isOff_of_inside h ho hw hreach (hinside place hreach)
    | kDKWrite =>
        obtain rfl := reaches_write hreach
        intro x hx
        have hin := hinside place hreach x hx
        exact ⟨hin.1, by omega⟩
  · rintro ⟨hw, hplaced⟩
    refine ⟨(checked_iff h).mpr hw, fun place hreach => by rw [request_eq, hreach], fun place hreach => ?_⟩
    have hplaced := hplaced (by rw [hreach]; exact Option.some_ne_none _)
    cases strategy with
    | kDKRead => exact inside_read h ho hw hreach hplaced
    | kDKWrite =>
        obtain rfl := reaches_write hreach
        intro x hx
        have hin := hplaced x hx
        exact ⟨hin.1, by omega⟩

/-- A partition that begins at 1 MiB. -/
def partition : Disk := .logical 0x100000 0x10000000 (.logical 0 0x100000000 (.drive nvmeDisk))

theorem partition_wellTyped : partition.WellTyped := by
  unfold partition Disk.WellTyped IsOff
  simp [Disk.WellTyped, IsOff]

/-- A read of the second block of the partition. -/
theorem logical_disk_bounds_read : reaches .kDKRead partition 512 512 = some 0x100200 ∧
    Bounded .kDKRead partition 512 512 := by
  have hw : NoWrap .kDKRead partition 512 512 := by
    refine fun _ => ⟨by decide, by decide, fun _ => ⟨by decide, by decide, trivial⟩⟩
  refine ⟨by decide, (logical_disk_bounds_iff partition_wellTyped ?_).mpr ⟨hw, fun _ => ?_⟩⟩
  · unfold IsOff
    decide
  · show IsOff (512 + partition.bases.sum)
    unfold IsOff
    decide

/-- **A read before the start of a partition.** The block before a partition is read through it. -/
theorem logical_disk_reads_before :
    ¬ ∀ strategy disk nBytes offset, disk.WellTyped → IsOff offset →
      Bounded strategy disk nBytes offset := by
  intro h
  have hin := (h .kDKRead partition 512 (-512) partition_wellTyped (by unfold IsOff; decide)).inside
    0xffe00 (by decide) (0x100000, 0x10000000) (by decide)
  exact absurd hin.1 (by decide)

end Scalux.Devicekit
