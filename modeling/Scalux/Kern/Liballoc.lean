import Mathlib.Algebra.Order.Ring.Int
import Mathlib.Algebra.Order.Ring.Nat
import Mathlib.Data.Int.Notation
import Mathlib.Data.Nat.Notation
import Mathlib.Logic.Function.Basic
import Scalux.Lib.Uint64

/-! # The `malloc` of the kernel

`kern/liballoc.c`: memory comes from the system in regions of pages, the majors, and is given to callers in
minors.  A minor has its header before it, and lies in the order of addresses in the list of its major; `malloc`
looks for a major with enough memory and for a gap in it, from the major that it has found best before, and
`free` gives a major back with its last minor.

* The headers are kept in maps by their addresses, apart from the other bytes.  A header is forgotten when its
  memory is given to a caller or back to the system.
* A pointer is a number of 64 bits, and `unsigned int` has 32 bits.
* A memory access that is not to a header returns `none`, and so does a loop that goes round more often than
  `fuel` says.
* `liballoc_alloc` is given, as a function of the number of pages; it returns 0 where it fails.
* The lock is held by each of the functions, and what they print is left out. -/

namespace Scalux.Liballoc

/-- `ALIGNMENT`. -/
def alignment : ℕ := 16

/-- `ALIGN_INFO`. -/
def alignInfo : ℕ := 16

/-- `LIBALLOC_MAGIC`. -/
def magic : ℕ := 0xc001c0de

/-- `LIBALLOC_DEAD`. -/
def dead : ℕ := 0xdeaddead

/-- `sizeof(struct liballoc_major)` and `sizeof(struct liballoc_minor)`. -/
def header : ℕ := 40

/-- `l_pageSize`. -/
def pageSize : ℕ := 4096

/-- `l_pageCount`. -/
def pageCount : ℕ := 16

/-- `struct liballoc_major`. -/
structure Major where
  prev : ℕ
  next : ℕ
  pages : ℕ
  size : ℕ
  usage : ℕ
  first : ℕ
  deriving DecidableEq

/-- `struct liballoc_minor`. -/
structure Minor where
  prev : ℕ
  next : ℕ
  block : ℕ
  magic : ℕ
  size : ℕ
  reqSize : ℕ
  deriving DecidableEq

/-- The memory, and the variables of `liballoc.c`. -/
structure State where
  majors : ℕ → Option Major
  minors : ℕ → Option Minor
  bytes : ℕ → UInt8
  memRoot : ℕ
  bestBet : ℕ
  allocated : ℕ
  inuse : ℕ
  warningCount : ℕ
  errorCount : ℕ
  possibleOverruns : ℕ

/-- The state before the first call. -/
def State.initial (bytes : ℕ → UInt8) : State := ⟨fun _ => none, fun _ => none, bytes, 0, 0, 0, 0, 0, 0, 0⟩

/-- `size + sizeof(struct liballoc_minor)`. -/
def need (size : ℕ) : ℕ := (size + header) % 2 ^ 64

namespace State

variable (s : State)

/-- An assignment to the fields of a major. -/
def setMajor (a : ℕ) (f : Major → Major) : Option State :=
  (s.majors a).map fun m => { s with majors := Function.update s.majors a (some (f m)) }

/-- An assignment to the fields of a minor. -/
def setMinor (a : ℕ) (f : Minor → Minor) : Option State :=
  (s.minors a).map fun m => { s with minors := Function.update s.minors a (some (f m)) }

/-! ## Allocation -/

/-- The number of pages of `allocate_new_page`. -/
def newPages (size : ℕ) : ℕ :=
  let st := (size % 2 ^ 32 + header + header) % 2 ^ 32
  max (if st % pageSize = 0 then st / pageSize else st / pageSize + 1) pageCount

/-- `allocate_new_page`. -/
def allocateNewPage (alloc : ℕ → ℕ) (size : ℕ) : ℕ × State :=
  let pages := newPages size
  let maj := alloc pages
  if maj = 0 then (0, { s with warningCount := s.warningCount + 1 })
  else
    let m : Major := ⟨0, 0, pages, pages * pageSize % 2 ^ 32, header, 0⟩
    (maj, { s with
      majors := Function.update s.majors maj (some m)
      allocated := (s.allocated + m.size) % 2 ^ 64 })

/-- The pointer that the macro `ALIGN` makes of the end of a header. -/
def align (p : ℕ) : ℕ :=
  let p := p + alignInfo
  let diff := p % alignment
  if diff = 0 then p else p + (alignment - diff)

/-- The header of a minor at an address, and the memory after it.  What was there before is forgotten. -/
def putMinor (a : ℕ) (m : Minor) (size : ℕ) : State :=
  { s with
    minors := fun b => if b = a then some m else if b < a + header + size ∧ a < b + header then none else s.minors b
    bytes := Function.update s.bytes (align (a + header) - alignInfo) (UInt8.ofNat (align (a + header) - (a + header)))
    inuse := (s.inuse + size) % 2 ^ 64 }

/-- A minor between two others of a major: its header and its pointer, and the usage of the major. -/
def insertMinor (maj a prev next size reqSize : ℕ) : Option (ℕ × State) :=
  ((s.putMinor a ⟨prev, next, maj, magic, size % 2 ^ 32, reqSize % 2 ^ 32⟩ size).setMajor maj fun m =>
    { m with usage := (m.usage + size + header) % 2 ^ 32 }).map fun s => (align (a + header), s)

/-- Case 2: the major is a new one. -/
def insertOnly (maj size reqSize : ℕ) : Option (ℕ × State) :=
  (s.setMajor maj fun m => { m with first := maj + header }).bind fun s =>
    s.insertMinor maj (maj + header) 0 0 size reqSize

/-- Case 3: there is enough memory before the first minor. -/
def insertFirst (maj first size reqSize : ℕ) : Option (ℕ × State) :=
  (s.setMinor first fun m => { m with prev := maj + header }).bind fun s =>
    (s.setMajor maj fun m => { m with first := maj + header }).bind fun s =>
      s.insertMinor maj (maj + header) 0 first size reqSize

/-- Case 4.1: there is enough memory after the last minor. -/
def insertLast (maj min a size reqSize : ℕ) : Option (ℕ × State) :=
  (s.setMinor min fun m => { m with next := a }).bind fun s => s.insertMinor maj a min 0 size reqSize

/-- Case 4.2: there is enough memory between two minors. -/
def insertBetween (maj min next a size reqSize : ℕ) : Option (ℕ × State) :=
  (s.setMinor next fun m => { m with prev := a }).bind fun s =>
    (s.setMinor min fun m => { m with next := a }).bind fun s => s.insertMinor maj a min next size reqSize

/-- Case 4, from a minor on; there is no result if there is no gap that is big enough. -/
def searchMinors (maj majSize size reqSize : ℕ) : ℕ → ℕ → Option (Option (ℕ × State))
  | 0, _ => none
  | fuel + 1, min =>
      if min = 0 then some none
      else (s.minors min).bind fun m =>
        let a := min + header + m.size
        -- up to the next minor, or to the end of the major
        let diff := sub64 (sub64 (sub64 (if m.next = 0 then maj + majSize else m.next) min) header) m.size
        if need size ≤ diff then
          (if m.next = 0 then s.insertLast maj min a size reqSize
            else s.insertBetween maj min m.next a size reqSize).map some
        else searchMinors maj majSize size reqSize fuel m.next

/-- A major that has room, in one of the cases 2 to 4. -/
def searchMajor (fuel maj : ℕ) (m : Major) (size reqSize : ℕ) : Option (Option (ℕ × State)) :=
  if m.first = 0 then (s.insertOnly maj size reqSize).map some
  else if need size ≤ sub64 (sub64 m.first maj) header then (s.insertFirst maj m.first size reqSize).map some
  else s.searchMinors maj m.size size reqSize fuel m.first

/-- A new major after the last one, and its address. -/
def appendMajor (alloc : ℕ → ℕ) (maj size : ℕ) : Option (ℕ × State) :=
  let (new, s) := s.allocateNewPage alloc size
  if new = 0 then some (0, s)
  else (s.setMajor maj fun m => { m with next := new }).bind fun s =>
    (s.setMajor new fun m => { m with prev := maj }).map fun s => (new, s)

/-- The loop over the majors, with `startedBet` and `bestSize`. -/
def searchMajors (alloc : ℕ → ℕ) (size reqSize : ℕ) : ℕ → ℕ → Bool → ℕ → State → Option (ℕ × State)
  | 0, _, _, _, _ => none
  | fuel + 1, maj, startedBet, bestSize, s =>
      if maj = 0 then some (0, s)
      else (s.majors maj).bind fun m =>
        let diff := sub32 m.size m.usage
        let s := if bestSize < diff then { s with bestBet := maj } else s
        let bestSize := max bestSize diff
        -- case 1: not enough free bytes, contiguous or not
        (if diff < need size then some none else s.searchMajor fuel maj m size reqSize).bind fun
          | some r => some r
          | none =>
              -- the next major; behind the last one the search starts again if it began at the best bet
              if m.next ≠ 0 then searchMajors alloc size reqSize fuel m.next startedBet bestSize s
              else if startedBet then searchMajors alloc size reqSize fuel s.memRoot false bestSize s
              else (s.appendMajor alloc maj size).bind fun (new, s) =>
                if new = 0 then some (0, s)
                -- from case 1 the code falls through to case 2, behind cases 3 and 4 it goes round the loop
                else if diff < need size then s.insertOnly new size reqSize
                else searchMajors alloc size reqSize fuel new false bestSize s

/-- `malloc`, where the size with the room for the alignment is not 0. -/
def mallocSized (alloc : ℕ → ℕ) (fuel size reqSize : ℕ) : Option (ℕ × State) :=
  let (root, s) := if s.memRoot = 0 then s.allocateNewPage alloc size else (s.memRoot, s)
  let s := { s with memRoot := root }
  if root = 0 then some (0, s)
  else if s.bestBet = 0 then s.searchMajors alloc size reqSize fuel root false 0
  else (s.majors s.bestBet).bind fun m =>
    let bestSize := sub32 m.size m.usage
    -- the best bet is tried first if it has more than enough
    if need size < bestSize then s.searchMajors alloc size reqSize fuel s.bestBet true bestSize
    else s.searchMajors alloc size reqSize fuel root false bestSize

/-- `malloc`. -/
def malloc (alloc : ℕ → ℕ) (fuel reqSize : ℕ) : Option (ℕ × State) :=
  let size := (reqSize + alignment + alignInfo) % 2 ^ 64
  if size = 0 then
    { s with warningCount := s.warningCount + 1 }.mallocSized alloc fuel (1 + alignment + alignInfo) 1
  else s.mallocSized alloc fuel size reqSize

/-! ## Freeing -/

/-- The end of the header that the macro `UNALIGN` makes of a pointer. -/
def unalign (p : ℕ) : ℕ :=
  let diff := (s.bytes (sub64 p alignInfo)).toNat
  if diff < alignment + alignInfo then sub64 p diff else p

/-- What `free` and `realloc` count when there is no live header before a pointer. -/
def badMagic (m : Minor) : State :=
  let overrun := m.magic % 2 ^ 24 = magic % 2 ^ 24 ∨ m.magic % 2 ^ 16 = magic % 2 ^ 16 ∨
    m.magic % 2 ^ 8 = magic % 2 ^ 8
  { s with
    errorCount := s.errorCount + 1
    possibleOverruns := if overrun then s.possibleOverruns + 1 else s.possibleOverruns }

/-- A minor is taken out of the list of its major. -/
def unlinkMinor (m : Minor) : Option State :=
  ((if m.next = 0 then some s else s.setMinor m.next fun n => { n with prev := m.prev }).bind fun s =>
    if m.prev = 0 then some s else s.setMinor m.prev fun n => { n with next := m.next }).bind fun s =>
      if m.prev = 0 then s.setMajor m.block fun b => { b with first := m.next } else some s

/-- A major without minors is taken out of the list, and its pages are given back. -/
def releaseMajor (maj : ℕ) (b : Major) : Option State :=
  let s := { s with
    memRoot := if s.memRoot = maj then b.next else s.memRoot
    bestBet := if s.bestBet = maj then 0 else s.bestBet }
  ((if b.prev = 0 then some s else s.setMajor b.prev fun m => { m with next := b.next }).bind fun s =>
    if b.next = 0 then some s else s.setMajor b.next fun m => { m with prev := b.prev }).map fun s =>
      { s with
        majors := Function.update s.majors maj none
        minors := fun a => if maj ≤ a ∧ a < maj + b.pages * pageSize then none else s.minors a
        allocated := sub64 s.allocated b.size }

/-- An `int`, from its 32 bits. -/
def toInt (n : ℕ) : ℤ := if n < 2 ^ 31 then (n : ℤ) else (n : ℤ) - 2 ^ 32

/-- `free`, from where the header is known to be live. -/
def freeMinor (a : ℕ) (m : Minor) : Option State :=
  let s := { s with inuse := sub64 s.inuse m.size }
  (s.setMajor m.block fun b => { b with usage := sub32 b.usage (m.size + header) }).bind fun s =>
    (s.setMinor a fun m => { m with magic := dead }).bind fun s =>
      (s.unlinkMinor m).bind fun s =>
        (s.majors m.block).bind fun b =>
          -- the last minor of its major: the pages are given back
          if b.first = 0 then s.releaseMajor m.block b
          else if s.bestBet = 0 then some s
          else (s.majors s.bestBet).map fun best =>
            let bestSize := toInt (sub32 best.size best.usage)
            let majSize := toInt (sub32 b.size b.usage)
            if bestSize < majSize then { s with bestBet := m.block } else s

/-- `free`. -/
def free (ptr : ℕ) : Option State :=
  if ptr = 0 then some { s with warningCount := s.warningCount + 1 }
  else
    let a := sub64 (s.unalign ptr) header
    (s.minors a).bind fun m => if m.magic = magic then s.freeMinor a m else some (s.badMagic m)

/-! ## Blocks with contents -/

/-- `liballoc_memset`, of no more than `2 ^ 32` bytes. -/
def memset (p : ℕ) (v : UInt8) (n : ℕ) : State :=
  { s with bytes := (List.range n).foldl (fun b i => Function.update b (p + i) v) s.bytes }

/-- A word of `n` bytes that is read, and then written. -/
def copyWord (n dst src : ℕ) (b : ℕ → UInt8) : ℕ → UInt8 := fun a =>
  if dst ≤ a ∧ a < dst + n then b (src + (a - dst)) else b a

/-- `liballoc_memcpy`: words of four bytes, and then bytes. -/
def memcpy (dst src n : ℕ) : State :=
  let words := (List.range (n / 4)).foldl (fun b i => copyWord 4 (dst + 4 * i) (src + 4 * i) b) s.bytes
  { s with
    bytes := (List.range (n % 4)).foldl (fun b i => copyWord 1 (dst + n / 4 * 4 + i) (src + n / 4 * 4 + i) b) words }

/-- `calloc`, where the product is not negative as an `int`. -/
def calloc (alloc : ℕ → ℕ) (fuel nobj size : ℕ) : Option (ℕ × State) :=
  let realSize := nobj * size % 2 ^ 32
  if realSize < 2 ^ 31 then
    (s.malloc alloc fuel realSize).bind fun (p, s) =>
      if p = 0 ∧ realSize ≠ 0 then none else some (p, s.memset p 0 realSize)
  else none

/-- `realloc`. -/
def realloc (alloc : ℕ → ℕ) (fuel p size : ℕ) : Option (ℕ × State) :=
  if size = 0 then (s.free p).map fun s => (0, s)
  else if p = 0 then s.malloc alloc fuel size
  else
    let a := sub64 (s.unalign p) header
    (s.minors a).bind fun m =>
      if m.magic ≠ magic then some (0, s.badMagic m)
      -- a smaller block stays where it is
      else if size ≤ m.reqSize then
        (s.setMinor a fun m => { m with reqSize := size % 2 ^ 32 }).map fun s => (p, s)
      else
        (s.malloc alloc fuel size).bind fun (new, s) =>
          -- `memcpy` to address 0
          if new = 0 ∧ m.reqSize ≠ 0 then none
          else ((s.memcpy new p m.reqSize).free p).map fun s => (new, s)

end State

end Scalux.Liballoc
