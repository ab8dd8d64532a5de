import Mathlib.Data.Nat.Notation
import Mathlib.Logic.Function.Basic

/-! # What an allocator of blocks is for

A store has the blocks that have been allocated, by their addresses and with their contents.  The calls are those
of C: a new block is apart from the others, `calloc` fills it with zeros, and `realloc` keeps what there was.

* **`Store.Takes`**: a new block.
* **`Store.Step`**: what a call may do to the store, and what it returns. -/

namespace Scalux

/-- The blocks that have been allocated, and what they contain. -/
abbrev Store (β : Type*) := ℕ → Option (List β)

namespace Store

variable {β : Type*}

/-- The calls of those who use an allocator, and a write into a block of theirs. -/
inductive Call (β : Type*)
  | malloc (n : ℕ)
  | calloc (n m : ℕ)
  | realloc (p n : ℕ)
  | free (p : ℕ)
  | write (p i : ℕ) (v : β)

/-- **A new block**, at a multiple of `a`: it is apart from the others, and these stay as they are. -/
structure Takes (a : ℕ) (st : Store β) (p : ℕ) (v : List β) (st' : Store β) : Prop where
  ne_zero : p ≠ 0
  aligned : a ∣ p
  fresh : st p = none
  apart : ∀ q w, st q = some w → p + v.length ≤ q ∨ q + w.length ≤ p
  eq : st' = Function.update st p (some v)

/-- **A call**, from a store and what has been returned last.  Where `realloc` finds no memory for an empty block,
the block is gone. -/
inductive Step (a : ℕ) (zero : β) : ℕ × Store β → Call β → ℕ × Store β → Prop
  | malloc {r p : ℕ} {st st' : Store β} {v : List β} (h : Takes a st p v st') :
      Step a zero (r, st) (.malloc v.length) (p, st')
  | mallocFails {r n : ℕ} {st : Store β} : Step a zero (r, st) (.malloc n) (0, st)
  | calloc {r p n m : ℕ} {st st' : Store β} (h : Takes a st p (List.replicate (n * m) zero) st') :
      Step a zero (r, st) (.calloc n m) (p, st')
  | callocFails {r n m : ℕ} {st : Store β} : Step a zero (r, st) (.calloc n m) (0, st)
  | reallocNew {r n p : ℕ} {st st' : Store β} (h : Step a zero (r, st) (.malloc n) (p, st')) :
      Step a zero (r, st) (.realloc 0 n) (p, st')
  | reallocSame {r p n : ℕ} {st : Store β} {v : List β} (h : st p = some v) (hpos : 0 < n) (hle : n ≤ v.length) :
      Step a zero (r, st) (.realloc p n) (p, Function.update st p (some (v.take n)))
  | reallocMove {r p q : ℕ} {st st' : Store β} {v w : List β} (h : st p = some v) (hlt : v.length < w.length)
      (hw : w.take v.length = v) (ht : Takes a st q w st') :
      Step a zero (r, st) (.realloc p w.length) (q, Function.update st' p none)
  | reallocLost {r p n : ℕ} {st : Store β} (h : st p = some []) (hpos : 0 < n) :
      Step a zero (r, st) (.realloc p n) (0, Function.update st p none)
  | reallocFree {r p : ℕ} {st : Store β} {x : ℕ × Store β} (h : Step a zero (r, st) (.free p) x) :
      Step a zero (r, st) (.realloc p 0) x
  | free {r p : ℕ} {st : Store β} {v : List β} (h : st p = some v) :
      Step a zero (r, st) (.free p) (0, Function.update st p none)
  | freeNull {r : ℕ} {st : Store β} : Step a zero (r, st) (.free 0) (0, st)
  | write {r p i : ℕ} {st : Store β} {v : List β} {x : β} (h : st p = some v) (hi : i < v.length) :
      Step a zero (r, st) (.write p i x) (0, Function.update st p (some (v.set i x)))

variable {a p : ℕ} {st st' : Store β} {v w : List β}

/-- A new block, with other contents. -/
theorem Takes.fill (h : Takes a st p v st') (hlen : w.length = v.length) :
    Takes a st p w (Function.update st' p (some w)) := by
  refine { h with apart := fun q u hu => hlen ▸ h.apart q u hu, eq := ?_ }
  rw [h.eq, Function.update_idem]

end Store

end Scalux
