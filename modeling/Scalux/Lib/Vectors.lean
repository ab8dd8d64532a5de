import Mathlib.Data.List.Forall2
import Scalux.Lib.Bytes

/-! # Vectors and strings in a memory

A memory of words, read by a program that is given an address: vectors of words that end at a zero, vectors
of pairs that end at a zero, and strings of bytes that end at a zero.

* **`WordsAt`**, **`StringAt`**: what is in memory.
* **`readVector_eq`**, **`readPairs_eq`**, **`readStrings_eq`**: what a reader with enough fuel finds. -/

namespace Scalux

variable {mem mem' : ℕ → ℕ} {a p q w n fuel : ℕ} {l l' rest s : List ℕ}

/-! ## Words in a row -/

/-- The words `l` are in a row from `p` on. -/
def WordsAt (mem : ℕ → ℕ) : ℕ → List ℕ → Prop
  | _, [] => True
  | p, w :: l => mem p = w ∧ WordsAt mem (p + 8) l

/-- Two vectors next to each other. -/
theorem wordsAt_append :
    WordsAt mem p (l ++ l') ↔ WordsAt mem p l ∧ WordsAt mem (p + 8 * l.length) l' := by
  induction l generalizing p with
  | nil => exact (iff_of_eq (true_and _)).symm
  | cons w l ih =>
      have hend : p + 8 + 8 * l.length = p + 8 * (l.length + 1) := by omega
      rw [List.cons_append, WordsAt, WordsAt, ih, hend, and_assoc]
      rfl

/-- Words in a row depend on nothing else in memory. -/
theorem WordsAt.congr (h : WordsAt mem p l)
    (hmem : ∀ b, p ≤ b → b < p + 8 * l.length → mem' b = mem b) : WordsAt mem' p l := by
  induction l generalizing p with
  | nil => trivial
  | cons w l ih =>
      rw [List.length_cons] at hmem
      refine ⟨(hmem p le_rfl (by omega)).trans h.1, ih h.2 fun b hlo hhi => ?_⟩
      exact hmem b (by omega) (by omega)

/-- The words behind the one that ends a row. -/
theorem WordsAt.tail (h : WordsAt mem p (l ++ w :: rest)) : WordsAt mem (p + 8 * (l.length + 1)) rest := by
  have htail := (wordsAt_append.mp h).2.2
  have hend : p + 8 * l.length + 8 = p + 8 * (l.length + 1) := by omega
  rwa [hend] at htail

/-- The words before a zero, and the address behind it. -/
def readVector (mem : ℕ → ℕ) : ℕ → ℕ → Option (List ℕ × ℕ)
  | 0, _ => none
  | fuel + 1, p =>
      if mem p = 0 then some ([], p + 8)
      else (readVector mem fuel (p + 8)).map fun x => (mem p :: x.1, x.2)

/-- **A vector** is read up to its zero. -/
theorem readVector_eq (h : WordsAt mem p (l ++ 0 :: rest)) (hl : 0 ∉ l) (hf : l.length < fuel) :
    readVector mem fuel p = some (l, p + 8 * (l.length + 1)) := by
  obtain ⟨fuel, rfl⟩ := Nat.exists_eq_succ_of_ne_zero (Nat.ne_zero_of_lt hf)
  induction l generalizing p fuel with
  | nil =>
      rw [readVector, if_pos h.1]
      rfl
  | cons w l ih =>
      obtain ⟨hw, hl⟩ := not_or.mp (List.mem_cons.not.mp hl)
      rw [List.length_cons] at hf
      obtain ⟨fuel, rfl⟩ := Nat.exists_eq_succ_of_ne_zero (Nat.ne_zero_of_lt (Nat.lt_of_succ_lt_succ hf))
      have hrest := ih h.2 hl fuel (Nat.lt_of_succ_lt_succ hf)
      have hend : p + 8 + 8 * (l.length + 1) = p + 8 * (l.length + 1 + 1) := by omega
      rw [readVector, h.1, if_neg (Ne.symm hw), hrest, Option.map_some, List.length_cons, hend]

/-- The words of some pairs. -/
def pairWords (l : List (ℕ × ℕ)) : List ℕ := l.flatMap fun x => [x.1, x.2]

/-- The pairs before one that begins with a zero, and the address behind that. -/
def readPairs (mem : ℕ → ℕ) : ℕ → ℕ → Option (List (ℕ × ℕ) × ℕ)
  | 0, _ => none
  | fuel + 1, p =>
      if mem p = 0 then some ([], p + 16)
      else (readPairs mem fuel (p + 16)).map fun x => ((mem p, mem (p + 8)) :: x.1, x.2)

/-- **A vector of pairs** is read up to its zero. -/
theorem readPairs_eq {l : List (ℕ × ℕ)} (h : WordsAt mem p (pairWords l ++ 0 :: rest))
    (hl : ∀ x ∈ l, x.1 ≠ 0) (hf : l.length < fuel) :
    readPairs mem fuel p = some (l, p + 16 * (l.length + 1)) := by
  obtain ⟨fuel, rfl⟩ := Nat.exists_eq_succ_of_ne_zero (Nat.ne_zero_of_lt hf)
  induction l generalizing p fuel with
  | nil =>
      rw [readPairs, if_pos h.1]
      rfl
  | cons x l ih =>
      obtain ⟨htag, hvalue, h⟩ := h
      rw [List.length_cons] at hf
      obtain ⟨fuel, rfl⟩ := Nat.exists_eq_succ_of_ne_zero (Nat.ne_zero_of_lt (Nat.lt_of_succ_lt_succ hf))
      have hrest := ih h (fun y hy => hl y (List.mem_cons_of_mem x hy)) fuel
        (Nat.lt_of_succ_lt_succ hf)
      have hend : p + 16 + 16 * (l.length + 1) = p + 16 * (l.length + 1 + 1) := by omega
      rw [readPairs, htag, if_neg (hl x List.mem_cons_self), hvalue, hrest, Option.map_some,
        List.length_cons, hend]

/-! ## Strings -/

/-- The string `s` and its terminator are at `a`. -/
def StringAt (mem : ℕ → ℕ) (a : ℕ) (s : List ℕ) : Prop := loadBytes mem a (s.length + 1) = s ++ [0]

/-- The string at an address. -/
def readString (mem : ℕ → ℕ) : ℕ → ℕ → Option (List ℕ)
  | 0, _ => none
  | fuel + 1, a =>
      if byteAt mem a = 0 then some []
      else (readString mem fuel (a + 1)).map fun s => byteAt mem a :: s

/-- The first byte, then the rest. -/
theorem loadBytes_succ (mem : ℕ → ℕ) (a n : ℕ) :
    loadBytes mem a (n + 1) = byteAt mem a :: loadBytes mem (a + 1) n := by
  rw [loadBytes, List.range_succ_eq_map, List.map_cons, List.map_map, loadBytes]
  refine congrArg _ (List.map_congr_left fun i _ => congrArg (byteAt mem) ?_)
  omega

/-- **A string** is read up to its terminator. -/
theorem readString_eq (h : StringAt mem a s) (hs : 0 ∉ s) (hf : s.length < fuel) :
    readString mem fuel a = some s := by
  obtain ⟨fuel, rfl⟩ := Nat.exists_eq_succ_of_ne_zero (Nat.ne_zero_of_lt hf)
  unfold StringAt at h
  rw [loadBytes_succ] at h
  induction s generalizing a fuel with
  | nil =>
      rw [readString, if_pos (List.cons.inj h).1]
  | cons c s ih =>
      obtain ⟨hc, hs⟩ := not_or.mp (List.mem_cons.not.mp hs)
      rw [List.length_cons] at hf
      obtain ⟨fuel, rfl⟩ := Nat.exists_eq_succ_of_ne_zero (Nat.ne_zero_of_lt (Nat.lt_of_succ_lt_succ hf))
      obtain ⟨hbyte, hrest⟩ := List.cons.inj h
      rw [List.length_cons, loadBytes_succ] at hrest
      rw [readString, hbyte, if_neg (Ne.symm hc), ih hrest hs fuel (Nat.lt_of_succ_lt_succ hf),
        Option.map_some]

/-- A string depends on nothing else in memory. -/
theorem StringAt.congr (h : StringAt mem a s)
    (hmem : ∀ b, a ≤ b → b < a + (s.length + 1) → byteAt mem' b = byteAt mem b) :
    StringAt mem' a s := by
  refine (List.map_congr_left fun i hi => ?_).trans h
  have hlt := List.mem_range.mp hi
  exact hmem (a + i) (by omega) (by omega)

/-- A string that has been copied. -/
theorem stringAt_storeBytes (mem : ℕ → ℕ) (a : ℕ) (hs : ∀ c ∈ s, c < 256) :
    StringAt (storeBytes mem a (s ++ [0])) a s := by
  have hlt : ∀ c ∈ s ++ [0], c < 256 := by
    intro c hc
    rcases List.mem_append.mp hc with hc | hc
    · exact hs c hc
    · rw [List.mem_singleton.mp hc]
      decide
  have hlen : (s ++ [0]).length = s.length + 1 := List.length_append
  refine List.ext_getElem (by rw [length_loadBytes, hlen]) fun i hi hi' => ?_
  have hbyte : byteAt (storeBytes mem a (s ++ [0])) (a + i) = (s ++ [0])[i] := byteAt_storeBytes hlt hi'
  rw [← hbyte]
  simp [loadBytes]

/-- The strings at some addresses. -/
def readStrings (mem : ℕ → ℕ) (fuel : ℕ) : List ℕ → Option (List (List ℕ))
  | [] => some []
  | a :: ptrs => (readString mem fuel a).bind fun s => (readStrings mem fuel ptrs).map fun strs => s :: strs

/-- **Some strings** are read one by one. -/
theorem readStrings_eq {ptrs : List ℕ} {strs : List (List ℕ)} (h : List.Forall₂ (StringAt mem) ptrs strs)
    (hs : ∀ s ∈ strs, 0 ∉ s) (hf : ∀ s ∈ strs, s.length < fuel) :
    readStrings mem fuel ptrs = some strs := by
  induction h with
  | nil => rfl
  | cons hstr _ ih =>
      rw [List.forall_mem_cons] at hs hf
      rw [readStrings, readString_eq hstr hs.1 hf.1, Option.bind_some, ih hs.2 hf.2, Option.map_some]

/-- Assigning some words leaves the bytes of the others. -/
theorem byteAt_congr_of_out {e : ℕ} (hmem : ∀ b, b < p ∨ e ≤ b → mem' b = mem b) (hp : p % 8 = 0)
    (he : e % 8 = 0) (ha : a < p ∨ e ≤ a) : byteAt mem' a = byteAt mem a := by
  have hword : mem' (wordOf a) = mem (wordOf a) := by
    refine hmem (wordOf a) ?_
    unfold wordOf
    omega
  rw [byteAt, byteAt, hword]

end Scalux
