import Scalux.Kern.Config
import Mathlib.Data.List.Basic

/-! # PRP lists

The end of `readBlocks` in `dev/NVMeController.m`: the pages of a buffer that has more than two are listed
in pages of their own, which the controller follows from the second PRP of the command.

* A buffer and the pages for the lists (`prpListMDL`) are the physical addresses of their pages; memory is
  read and written through the direct map in words of eight bytes.
* The loop is bounded here by fuel; `none` stands for fuel that is used up and for an index beyond the
  pages of an MDL.

* **`prpLoop_short`**: a buffer of up to 512 pages is listed in the first list.
* **`prpLoop_stuck`**: with more pages the loop comes to the place for the pointer to the next list and does
  not leave it.
* **`prp_list_iff`**: so the list is right exactly for up to 512 pages. -/

namespace Scalux.Nvme

/-- `sizeof(void *)`. -/
def sizeofEntry : ℕ := 8

/-- `nPRPPerList`. -/
def nPRPPerList : ℕ := pgSize / sizeofEntry - 1

/-- `nPRPLists`.  `ROUNDUP` is a mask, and no rounding to a number that is not a power of two. -/
def nPRPLists (nPages : ℕ) : ℕ := roundUp (nPages - 1) nPRPPerList / nPRPPerList + 1

/-- The loop variables and memory, with the addresses that have been assigned. -/
structure PrpBuild where
  i : ℕ
  iPRPList : ℕ
  mem : ℕ → ℕ
  assigned : List ℕ

/-- `*entry = value`. -/
def PrpBuild.assign (s : PrpBuild) (entry value : ℕ) : PrpBuild :=
  { s with mem := Function.update s.mem entry value, assigned := entry :: s.assigned }

/-- The loop of `readBlocks`.  After a pointer to the next list `i` is decremented and incremented again. -/
def prpLoop (buf lists : List ℕ) : ℕ → PrpBuild → Option PrpBuild
  | 0, _ => none
  | fuel + 1, s =>
      if s.i < buf.length then do
        let list ← lists[s.iPRPList]?
        let entry := list + (s.i - 1) * sizeofEntry
        -- the last entry of a list points to the next one
        if 1 < s.i ∧ (s.i - 1) % nPRPPerList = 0 then
          let next ← lists[s.iPRPList + 1]?
          prpLoop buf lists fuel { s.assign entry next with iPRPList := s.iPRPList + 1 }
        else
          let page ← buf[s.i]?
          prpLoop buf lists fuel { s.assign entry page with i := s.i + 1 }
      else some s

/-- What a controller reads of a list of `n` entries: a list page holds all that remain, or its last entry
points to the next list page. -/
def prpChain (mem : ℕ → ℕ) (list n : ℕ) : List ℕ :=
  if n ≤ pgSize / sizeofEntry then (List.range n).map fun k : ℕ => mem (list + k * sizeofEntry)
  else ((List.range nPRPPerList).map fun k : ℕ => mem (list + k * sizeofEntry)) ++
    prpChain mem (mem (list + nPRPPerList * sizeofEntry)) (n - nPRPPerList)
termination_by n
decreasing_by
  have hpos : 0 < nPRPPerList := by decide
  have hper : pgSize / sizeofEntry = nPRPPerList + 1 := by decide
  omega

/-- What the loop is for: it ends, it assigns entries of the list pages only, and the chain from `prp[1]` on
yields the pages of the buffer after the first. -/
def PrpListed (buf lists : List ℕ) (mem : ℕ → ℕ) : Prop :=
  ∃ fuel s list, prpLoop buf lists fuel ⟨1, 0, mem, []⟩ = some s ∧ lists[0]? = some list ∧
    (∀ a ∈ s.assigned, ∃ l ∈ lists, ∃ k < pgSize / sizeofEntry, a = l + k * sizeofEntry) ∧
    prpChain s.mem list (buf.length - 1) = buf.drop 1

variable {buf lists : List ℕ} {mem : ℕ → ℕ} {list : ℕ}

/-- The loop up to the end of the first list. -/
theorem prpLoop_short (hlist : lists[0]? = some list) (hlen : buf.length ≤ pgSize / sizeofEntry) (d : ℕ)
    {s : PrpBuild} (hd : s.i + d = buf.length) (hi : 1 ≤ s.i) (hfirst : s.iPRPList = 0)
    (hmem : ∀ k, k + 1 < s.i → buf[k + 1]? = some (s.mem (list + k * sizeofEntry)))
    (hassigned : ∀ a ∈ s.assigned, ∃ k < pgSize / sizeofEntry, a = list + k * sizeofEntry) :
    ∃ s', prpLoop buf lists (d + 1) s = some s' ∧
      (∀ k, k + 1 < buf.length → buf[k + 1]? = some (s'.mem (list + k * sizeofEntry))) ∧
      ∀ a ∈ s'.assigned, ∃ k < pgSize / sizeofEntry, a = list + k * sizeofEntry := by
  have hper : pgSize / sizeofEntry = nPRPPerList + 1 := by decide
  have hsize : sizeofEntry = 8 := rfl
  induction d generalizing s with
  | zero =>
      refine ⟨s, if_neg (by omega), fun k hk => hmem k (by omega), hassigned⟩
  | succ d ih =>
      have hlt : s.i < buf.length := by omega
      have hpage : buf[s.i]? = some buf[s.i] := List.getElem?_eq_getElem hlt
      -- no place for a pointer comes before the last entry
      have hnot : ¬ (1 < s.i ∧ (s.i - 1) % nPRPPerList = 0) := by
        rintro ⟨hone, hmod⟩
        rw [Nat.mod_eq_of_lt (by omega)] at hmod
        omega
      have hstep : prpLoop buf lists (d + 1 + 1) s = prpLoop buf lists (d + 1)
          { s.assign (list + (s.i - 1) * sizeofEntry) buf[s.i] with i := s.i + 1 } := by
        rw [prpLoop, if_pos hlt, hfirst, hlist]
        simp only [Option.bind_eq_bind, Option.bind_some, if_neg hnot, hpage]
      rw [hstep]
      refine ih (s := { s.assign (list + (s.i - 1) * sizeofEntry) buf[s.i] with i := s.i + 1 })
        (by dsimp only; omega) (Nat.le_add_left 1 s.i) hfirst (fun k hk => ?_) fun a ha => ?_
      · show buf[k + 1]? = some (Function.update s.mem (list + (s.i - 1) * sizeofEntry) buf[s.i]
          (list + k * sizeofEntry))
        rcases Nat.lt_or_ge (k + 1) s.i with hlow | hhigh
        · rw [Function.update_of_ne (by rw [hsize]; omega)]
          exact hmem k hlow
        · have hk : s.i = k + 1 := by
            dsimp only at hk
            omega
          have hentry : list + (s.i - 1) * sizeofEntry = list + k * sizeofEntry := by
            rw [hk, Nat.add_sub_cancel]
          rw [hentry, Function.update_self, ← hpage, hk]
      · rcases List.mem_cons.mp ha with rfl | ha
        · exact ⟨s.i - 1, by omega, rfl⟩
        · exact hassigned a ha

/-- The loop does not get past the place for the pointer to the second list. -/
theorem prpLoop_stuck (hlen : pgSize / sizeofEntry < buf.length) (fuel : ℕ) {s : PrpBuild}
    (hi : 1 ≤ s.i) (hle : s.i ≤ pgSize / sizeofEntry) : prpLoop buf lists fuel s = none := by
  have hper : pgSize / sizeofEntry = nPRPPerList + 1 := by decide
  induction fuel generalizing s with
  | zero => rfl
  | succ fuel ih =>
      rw [prpLoop, if_pos (by omega)]
      cases lists[s.iPRPList]? with
      | none => rfl
      | some list =>
          dsimp only [Option.bind_eq_bind, Option.bind_some]
          split
          · -- the pointer, and the same `i` again
            cases lists[s.iPRPList + 1]? with
            | none => rfl
            | some next => exact ih hi hle
          · rename_i hnot
            have hne : s.i ≠ pgSize / sizeofEntry := by
              intro heq
              refine hnot ⟨by rw [heq]; decide, ?_⟩
              rw [heq, hper, Nat.add_sub_cancel, Nat.mod_self]
            cases buf[s.i]? with
            | none => rfl
            | some page => exact ih (Nat.le_add_left 1 s.i) (Nat.lt_of_le_of_ne hle hne)

/-- **PRP lists.** The loop of `readBlocks` lists the pages of a buffer exactly if there are at most 512 of
them. -/
theorem prp_list_iff (hbuf : 2 < buf.length) (hlists : lists.length = nPRPLists buf.length) :
    PrpListed buf lists mem ↔ buf.length ≤ pgSize / sizeofEntry := by
  constructor
  · rintro ⟨fuel, s, list, hloop, -⟩
    refine Nat.le_of_not_lt fun hlen => ?_
    -- past one page of entries the loop does not end
    have hone : 1 ≤ pgSize / sizeofEntry := by decide
    rw [prpLoop_stuck hlen fuel (Nat.le_refl 1) hone] at hloop
    cases hloop
  · intro hlen
    have hpos : 0 < lists.length := by
      rw [hlists]
      exact Nat.succ_pos _
    have hlist : lists[0]? = some lists[0] := List.getElem?_eq_getElem hpos
    obtain ⟨s, hloop, hmem, hassigned⟩ := prpLoop_short hlist hlen (buf.length - 1)
      (s := ⟨1, 0, mem, []⟩) (by dsimp only; omega) (Nat.le_refl 1) rfl
      (fun k hk => absurd hk (by dsimp only; omega)) (fun a ha => by cases ha)
    refine ⟨_, s, lists[0], hloop, hlist, fun a ha => ?_, ?_⟩
    · obtain ⟨k, hk, heq⟩ := hassigned a ha
      exact ⟨lists[0], List.getElem_mem hpos, k, hk, heq⟩
    · rw [prpChain.eq_def, if_pos (by omega)]
      refine List.ext_getElem? fun k => ?_
      rw [List.getElem?_map, List.getElem?_drop, Nat.add_comm 1 k]
      rcases Nat.lt_or_ge k (buf.length - 1) with hlt | hge
      · rw [List.getElem?_range hlt, Option.map_some, hmem k (by omega)]
      · rw [List.getElem?_eq_none (by rw [List.length_range]; exact hge),
          List.getElem?_eq_none (by omega), Option.map_none]

/-- A buffer of three pages. -/
theorem prp_list_iff_three : PrpListed [0x1000, 0x2000, 0x5000] [0x8000, 0x9000] fun _ => 0 :=
  (prp_list_iff (by decide) (by decide)).mpr (by decide)

/-- **A list that is too long.** The pages of a buffer of 513 pages are not listed. -/
theorem prp_list_long : ¬ ∀ buf lists mem, 2 < buf.length → lists.length = nPRPLists buf.length →
    PrpListed buf lists mem := by
  intro h
  obtain ⟨fuel, s, list, hloop, -⟩ := h ((List.range 513).map (· * pgSize)) [0x800000, 0x801000]
    (fun _ => 0) (by simp) (by rw [List.length_map, List.length_range]; decide)
  rw [prpLoop_stuck (by rw [List.length_map, List.length_range]; decide) fuel (Nat.le_refl 1) (by decide)]
    at hloop
  cases hloop

end Scalux.Nvme
