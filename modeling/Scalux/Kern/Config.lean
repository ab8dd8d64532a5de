import Mathlib.Data.Nat.Basic
import Mathlib.Tactic.NormNum
import Scalux.Lib.Uint64

/-! # Constants of the machine, wait results and the number of threads

The address-space layout of `machine/vm.h`, and the bound it puts on the number of threads: a
thread made by `thread_new` owns a kernel stack of four pages of the kernel heap, and the only
threads without one are the per-CPU idle threads, of which `machdep.c` has room for 64 (`tss[64]`).
`ThreadTable` is a number of threads the kernel can have; it is what keeps the 32-bit counters of
the synchronisation primitives from wrapping. -/

namespace Scalux

/-- `PGSIZE`: bytes in a page. -/
def pgSize : ℕ := 4096

/-- `PGROUNDUP`. -/
def pgRoundUp (a : ℕ) : ℕ := roundUp a pgSize

/-- `PGROUNDUP`, without the mask: `(a + 4095) / 4096 * 4096`, as long as the sum does not wrap. -/
theorem pgRoundUp_eq (a : ℕ) : pgRoundUp a = (a + 4095) % 2 ^ 64 / 4096 * 4096 :=
  roundUp_eq (k := 12) a (by decide)

/-- `USER_BASE`: lowest address of a user map. -/
def userBase : ℕ := 0x1000

/-- `USER_SIZE`: bytes of address space in a user map. -/
def userSize : ℕ := 0x100000000

/-- `KHEAP_BASE`: lowest address of the kernel heap. -/
def kheapBase : ℕ := 0xffff800100000000

/-- `KHEAP_SIZE`: bytes of address space in the kernel heap. -/
def kheapSize : ℕ := 0x100000000

/-- Pages of kernel stack `thread_new` gives a thread. -/
def kstackPages : ℕ := 4

/-- Entries of the `tss` array, and so the most CPUs there can be. -/
def maxCpus : ℕ := 64

/-- `waitq_result_t`. -/
inductive WaitqResult
  | kWQSuccess
  | kWQTimeout
  deriving DecidableEq, Repr

/-- A number of threads the kernel can have at once: the kernel stacks of all but the idle threads
fit into the kernel heap. -/
structure ThreadTable where
  /-- Number of threads. -/
  n : ℕ
  /-- All threads but the idle ones have a kernel stack in the kernel heap. -/
  stacks_fit : (n - maxCpus) * (kstackPages * pgSize) ≤ kheapSize

/-- The threads of a table. -/
abbrev ThreadTable.Tid (tt : ThreadTable) : Type := Fin tt.n

/-- There are far fewer threads than a 32-bit counter can count. -/
theorem ThreadTable.n_lt (tt : ThreadTable) : tt.n < 2 ^ 19 := by
  have h := tt.stacks_fit
  simp only [maxCpus, kstackPages, pgSize, kheapSize] at h
  omega

/-- Two threads. -/
abbrev ThreadTable.two : ThreadTable where
  n := 2
  stacks_fit := by decide

end Scalux
