import Scalux.Posix.Ramdisk

/-! # The offsets of the ramdisk scanner

The loop of `unpack_ramdisk` steps from header to header by the size that the header gives, eleven
characters that are not checked.  `oct2i` may return a negative number for them, and `ROUNDUP` turns one
from -512 down into a step around the address space.

* **`lt_next_iff`**: the sizes for which the offset grows.
* **`scanner_terminates_iff`**: the loop makes progress and ends if and only if the headers it reaches have
  such sizes.
* **`scanner_stands_still`**: a header that is scanned for ever. -/

namespace Scalux.Posix.Ramdisk

variable {img : ℕ → UInt8} {size n i j fuel : ℕ} {fsize : ℤ}

/-! ## One header -/

/-- The offset after the header at `i`. -/
def next (img : ℕ → UInt8) (i : ℕ) : ℕ := (i + (512 + blocksSize (oct2i (field img (i + 124) 11)))) % 2 ^ 64

/-- One iteration: the offset after it, unless the loop stops. -/
def scan (img : ℕ → UInt8) (size i : ℕ) : Option ℕ :=
  if i < size ∧ img i ≠ 0 then some (next img i) else none

/-- The offset after `n` iterations. -/
def offsetAfter (img : ℕ → UInt8) (size : ℕ) : ℕ → Option ℕ
  | 0 => some 0
  | n + 1 => (offsetAfter img size n).bind (scan img size)

/-- The step from a header at `i` for a file of size `fsize` stays below the end of the address space. -/
def StepOk (fsize : ℤ) (i : ℕ) : Prop :=
  if -512 < fsize then i + 512 + (fsize + 511).toNat / 512 * 512 < 2 ^ 64
  else i + 512 < (-fsize).toNat / 512 * 512

/-- `oct2i` returns an `int`. -/
theorem oct2i_range (l : List UInt8) : -2 ^ 31 ≤ oct2i l ∧ oct2i l < 2 ^ 31 := by
  cases l using List.reverseRecOn with
  | nil => decide
  | append_singleton l c =>
      rw [oct2i, List.foldl_concat]
      exact ⟨Int.le_bmod (by decide), Int.bmod_lt (by decide)⟩

/-- **The offset grows** if and only if it does not wrap. -/
theorem lt_next_iff (hi : i < 2 ^ 64) (hlo : -2 ^ 31 ≤ fsize) (hhi : fsize < 2 ^ 31) :
    i < (i + (512 + blocksSize fsize)) % 2 ^ 64 ↔ StepOk fsize i := by
  rw [blocksSize_eq]
  unfold StepOk
  split
  · omega
  · omega

/-! ## The loop -/

/-- The loop makes progress and ends, and more fuel than bytes changes nothing. -/
structure ScannerOk (img : ℕ → UInt8) (size : ℕ) : Prop where
  progress : ∀ n i j, offsetAfter img size n = some i → scan img size i = some j → i < j
  ends : ∃ n, offsetAfter img size n = none
  fuel : ∀ rootVnode fuel s, size < fuel →
    unpackLoop rootVnode img size fuel 0 s = unpackLoop rootVnode img size (size + 1) 0 s

/-- The scan goes on at a header inside the image whose name is not empty. -/
theorem scan_eq_some : scan img size i = some j ↔ (i < size ∧ img i ≠ 0) ∧ next img i = j :=
  Option.ite_none_right_eq_some.trans (and_congr_right fun _ => Option.some_inj)

/-- An offset is one of 64 bits. -/
theorem offsetAfter_lt (h : offsetAfter img size n = some i) : i < 2 ^ 64 := by
  cases n with
  | zero =>
      obtain rfl := Option.some.inj h
      decide
  | succ n =>
      obtain ⟨k, -, hk⟩ := Option.bind_eq_some_iff.mp h
      obtain ⟨-, rfl⟩ := scan_eq_some.mp hk
      exact Nat.mod_lt _ (by decide)

/-- One header more. -/
theorem offsetAfter_succ (h : offsetAfter img size n = some i) (hi : i < size) (hne : img i ≠ 0) :
    offsetAfter img size (n + 1) = some (next img i) := by
  rw [offsetAfter, h, Option.bind_some, scan, if_pos ⟨hi, hne⟩]

/-- After `n` iterations with progress the offset is at least `n`. -/
theorem le_offsetAfter
    (hprog : ∀ n i j, offsetAfter img size n = some i → scan img size i = some j → i < j)
    (h : offsetAfter img size n = some i) : n ≤ i := by
  induction n generalizing i with
  | zero => exact Nat.zero_le i
  | succ n ih =>
      obtain ⟨k, hk, hscan⟩ := Option.bind_eq_some_iff.mp h
      have hle := ih hk
      have hlt := hprog n k i hk hscan
      omega

/-- A loop with progress ends after at most as many iterations as there are bytes. -/
theorem offsetAfter_size
    (hprog : ∀ n i j, offsetAfter img size n = some i → scan img size i = some j → i < j) :
    offsetAfter img size (size + 1) = none := by
  rw [Option.eq_none_iff_forall_ne_some]
  intro j hj
  obtain ⟨i, hi, hscan⟩ := Option.bind_eq_some_iff.mp hj
  have hle := le_offsetAfter hprog hi
  exact absurd (scan_eq_some.mp hscan).1.1 (not_lt.mpr hle)

/-- The fuel of a loop with progress does not matter, as long as there is more of it than bytes left. -/
theorem unpackLoop_fuel {rootVnode : ℕ} {fuel' : ℕ} {s : Fs}
    (hprog : ∀ n i j, offsetAfter img size n = some i → scan img size i = some j → i < j)
    (h : offsetAfter img size n = some i) (hf : size - i < fuel) (hf' : size - i < fuel') :
    unpackLoop rootVnode img size fuel i s = unpackLoop rootVnode img size fuel' i s := by
  induction fuel generalizing fuel' n i s with
  | zero => exact absurd hf (Nat.not_lt_zero _)
  | succ fuel ih =>
      obtain ⟨fuel', rfl⟩ := Nat.exists_eq_succ_of_ne_zero (Nat.ne_zero_of_lt hf')
      rw [unpackLoop, unpackLoop]
      split
      · rename_i hi
        dsimp only
        by_cases hzero : img i = 0
        · rw [if_pos hzero, if_pos hzero]
        · have hnext := offsetAfter_succ h hi hzero
          have hlt : i < next img i := hprog n i _ h (scan_eq_some.mpr ⟨⟨hi, hzero⟩, rfl⟩)
          -- the next header lies further on, so the fuel left still bounds the headers
          have hrest : ∀ s, unpackLoop rootVnode img size fuel (next img i) s
              = unpackLoop rootVnode img size fuel' (next img i) s :=
            fun s => ih hnext (by omega) (by omega)
          rw [if_neg hzero, if_neg hzero]
          split
          · exact hrest s
          · exact congrArg _ (funext hrest)
      · rfl

/-- **The scanner terminates**, for every content and size of the module, if and only if the size in each
header that the loop reaches takes the offset forward: it is above -512 and the next offset is below
`2 ^ 64`, or it is so far below that the step around the address space ends behind the header. -/
theorem scanner_terminates_iff (img : ℕ → UInt8) (size : ℕ) :
    ScannerOk img size ↔ ∀ n i, offsetAfter img size n = some i → i < size → img i ≠ 0 →
      StepOk (oct2i (field img (i + 124) 11)) i := by
  have hstep : ∀ {n i}, offsetAfter img size n = some i →
      (i < next img i ↔ StepOk (oct2i (field img (i + 124) 11)) i) := by
    intro n i h
    obtain ⟨hlo, hhi⟩ := oct2i_range (field img (i + 124) 11)
    exact lt_next_iff (offsetAfter_lt h) hlo hhi
  constructor
  · intro hok n i h hi hne
    exact (hstep h).mp (hok.progress n i _ h (scan_eq_some.mpr ⟨⟨hi, hne⟩, rfl⟩))
  · intro hall
    have hprog : ∀ n i j, offsetAfter img size n = some i → scan img size i = some j → i < j := by
      intro n i j h hscan
      obtain ⟨⟨hi, hne⟩, rfl⟩ := scan_eq_some.mp hscan
      exact (hstep h).mpr (hall n i h hi hne)
    have hfirst : offsetAfter img size 0 = some 0 := rfl
    exact ⟨hprog, ⟨size + 1, offsetAfter_size hprog⟩,
      fun rootVnode fuel s hf => unpackLoop_fuel hprog hfirst (by omega) (by omega)⟩

/-- A header of the name `ab` with the size `37777777000`, which is `2 ^ 32 - 512` in octal digits. -/
def standingHeader (k : ℕ) : UInt8 :=
  if k < 2 then 97 else if k = 124 then 51 else if 125 ≤ k ∧ k < 132 then 55
  else if 132 ≤ k ∧ k < 135 then 48 else 0

/-- **A header that is scanned for ever.** Its size is read as -512, and the offset stays at 0. -/
theorem scanner_stands_still : ¬ ∀ (img : ℕ → UInt8) (size : ℕ), ScannerOk img size := by
  intro h
  have hscan : scan standingHeader 512 0 = some (next standingHeader 0) :=
    scan_eq_some.mpr ⟨⟨by decide, by decide⟩, rfl⟩
  have hsize : oct2i (field standingHeader (0 + 124) 11) = -512 := by decide
  have hlt := (h standingHeader 512).progress 0 0 _ rfl hscan
  rw [next, hsize, lt_next_iff (by decide) (by decide) (by decide)] at hlt
  revert hlt
  unfold StepOk
  decide

end Scalux.Posix.Ramdisk
