import Mathlib.Data.Int.Basic
import Mathlib.Data.List.Nodup
import Scalux.Kern.Config

/-! # Directory iteration

`tmp_readdir` (`tmpfs/tmpfs.c`), and a caller that passes it the sequence number that the last call
returned, until it is `INT32_MAX`.  The counter `i` is advanced twice for an entry that is written, so
that the next call begins too far on unless the call has written one entry.

* **`tmpReaddir_spec`**: what a call writes and returns.
* **`lists_all_iff`**: the calls list each entry once and in order exactly if the buffers are `Fair`. -/

namespace Scalux.Tmpfs

/-- A C string, without its terminator. -/
abbrev Name := List UInt8

/-- `struct tmpdirent`, with the address of its node. -/
structure Tmpdirent where
  name : Name
  node : ℕ
  deriving DecidableEq, Repr

/-- The entries of a directory: each has a node of its own, and each takes four pointers of the kernel
heap. -/
structure Dir where
  entries : List Tmpdirent
  nodup : entries.Nodup
  length_le : entries.length ≤ kheapSize / 32

/-- `struct dirent`. -/
structure Dirent where
  ino : ℕ
  off : ℕ
  reclen : ℕ
  name : Name
  deriving DecidableEq, Repr

/-- The entry that a record is of. -/
def Dirent.entry (r : Dirent) : Tmpdirent := ⟨r.name, r.ino⟩

/-- `INT32_MAX`. -/
def int32Max : ℕ := 2 ^ 31 - 1

section

variable (dname : ℕ)

/-- `DIRENT_RECLEN`; `dname` is the offset of `d_name` in `struct dirent`. -/
def direntReclen (namelen : ℕ) : ℕ := (dname + 1 + namelen + (8 - 1)) / 8 * 8

/-- The loop of `tmp_readdir`: the records, the bytes written and the last value of `i`. -/
def readdirLoop (nbyte seqno : ℕ) : List Tmpdirent → ℕ → ℕ → List Dirent × ℕ × ℕ
  | [], _, nwritten => ([], nwritten, int32Max)
  | tdent :: rest, i, nwritten =>
      if seqno ≤ i then
        let reclen := direntReclen dname tdent.name.length
        -- the record would take the last byte of the buffer, or pass it
        if nbyte ≤ nwritten + reclen then ([], nwritten, decr64 i)
        else
          -- `i` is advanced here and again by the loop
          let (records, r) := readdirLoop nbyte seqno rest (i + 1 + 1) (nwritten + reclen)
          (⟨tdent.node, i, reclen, tdent.name⟩ :: records, r)
      else readdirLoop nbyte seqno rest (i + 1) nwritten

/-- `tmp_readdir`: the records, `*bytesRead` and the result, an `int`. -/
def tmpReaddir (d : Dir) (nbyte : ℕ) (seqno : ℤ) : List Dirent × ℕ × ℤ :=
  let (records, bytesRead, i) := readdirLoop dname nbyte (seqno % 2 ^ 64).toNat d.entries 0 0
  (records, bytesRead, Int.bmod i (2 ^ 32))

/-- At most `n` calls of `tmp_readdir` up to the end, each with the size of its buffer and its records. -/
def listing (d : Dir) (sizes : ℕ → ℕ) : ℕ → ℤ → Option (List (ℕ × List Dirent))
  | 0, _ => none
  | n + 1, seqno =>
      let (records, _, r) := tmpReaddir dname d (sizes 0) seqno
      if r = int32Max then some [(sizes 0, records)]
      else (listing d (fun k => sizes (k + 1)) n r).map ((sizes 0, records) :: ·)

/-- `n` calls come to the end and list the entries `l`, and no record extends past its buffer. -/
def Lists (d : Dir) (sizes : ℕ → ℕ) (n : ℕ) (seqno : ℤ) (l : List Tmpdirent) : Prop :=
  ∃ calls, listing dname d sizes n seqno = some calls ∧
    (calls.flatMap Prod.snd).map Dirent.entry = l ∧
    ∀ c ∈ calls, (c.2.map Dirent.reclen).sum ≤ c.1

/-- The calls from 0 on come to the end, and list each entry once and in order. -/
def ListsAll (d : Dir) (sizes : ℕ → ℕ) : Prop := ∃ n, Lists dname d sizes n 0 d.entries

/-- The number of entries whose records fit into the rest of a buffer. -/
def fits (nbyte : ℕ) : ℕ → List Tmpdirent → ℕ
  | _, [] => 0
  | nwritten, e :: l =>
      let reclen := direntReclen dname e.name.length
      if nbyte ≤ nwritten + reclen then 0 else fits nbyte (nwritten + reclen) l + 1

/-- The buffers with which the calls list the entries from `e` on: all the entries fit into the first one;
or one entry does, and the rest are so for the entry after it.  If `r` entries fit, the next call begins
`r - 1` entries too far on, and `r - 1` buffers that are too small for the entry there have to follow:
such a call goes back by one. -/
inductive Fair (d : Dir) : ℕ → (ℕ → ℕ) → Prop
  | last {e : ℕ} {sizes : ℕ → ℕ} (hall : e + fits dname (sizes 0) 0 (d.entries.drop e) = d.entries.length) :
      Fair d e sizes
  | more {e r : ℕ} {sizes : ℕ → ℕ} (hr : fits dname (sizes 0) 0 (d.entries.drop e) = r) (hpos : 0 < r)
      (hlt : e + r < d.entries.length)
      (hback : ∀ j, 0 < j → j < r → e + 2 * r - j < d.entries.length ∧
        fits dname (sizes j) 0 (d.entries.drop (e + 2 * r - j)) = 0)
      (hrest : Fair d (e + r) fun k => sizes (k + r)) : Fair d e sizes

end

variable {dname nbyte seqno i w : ℕ} {l : List Tmpdirent} {d : Dir}

/-! ## One call -/

/-- The loop passes over the entries before the sequence number. -/
theorem readdirLoop_skip (hi : i ≤ seqno) : readdirLoop dname nbyte seqno l i w
    = if l.length ≤ seqno - i then ([], w, int32Max)
      else readdirLoop dname nbyte seqno (l.drop (seqno - i)) seqno w := by
  induction l generalizing i with
  | nil => simp [readdirLoop]
  | cons e l ih =>
      rcases Nat.eq_or_lt_of_le hi with rfl | hlt
      · simp
      · rw [readdirLoop, if_neg (Nat.not_le.mpr hlt), ih hlt]
        obtain ⟨k, hk⟩ : ∃ k, seqno - i = k + 1 := ⟨seqno - i - 1, by omega⟩
        have hk' : seqno - (i + 1) = k := by omega
        rw [hk, hk']
        simp

/-- From then on it writes the entries that fit. -/
theorem readdirLoop_write (dname nbyte : ℕ) (hi : seqno ≤ i) (hlen : i + 2 * l.length < 2 ^ 64) :
    (readdirLoop dname nbyte seqno l i w).1.map Dirent.entry = l.take (fits dname nbyte w l) ∧
      (w ≤ nbyte → w + ((readdirLoop dname nbyte seqno l i w).1.map Dirent.reclen).sum ≤ nbyte) ∧
      (readdirLoop dname nbyte seqno l i w).2.2 = if fits dname nbyte w l = l.length then int32Max
        else decr64 (i + 2 * fits dname nbyte w l) := by
  induction l generalizing i w with
  | nil => simp [readdirLoop, fits]
  | cons e l ih =>
      rw [readdirLoop, if_pos hi, fits]
      dsimp only
      -- the entry does not fit, which ends the loop, or it is written and the rest follows
      split
      · simp
      · rename_i hfit
        rw [List.length_cons] at hlen
        obtain ⟨hentries, hsum, hret⟩ := ih (i := i + 1 + 1)
          (w := w + direntReclen dname e.name.length) (by omega) (by omega)
        refine ⟨?_, fun _ => ?_, ?_⟩
        · rw [List.map_cons, hentries, List.take_succ_cons]
          rfl
        · have hsum := hsum (by omega)
          rw [List.map_cons, List.sum_cons]
          dsimp only
          omega
        · rw [hret, List.length_cons]
          simp only [Nat.add_right_cancel_iff]
          split
          · rfl
          · congr 1
            omega

/-- What fits is no more than there is. -/
theorem fits_le (dname nbyte w : ℕ) (l : List Tmpdirent) : fits dname nbyte w l ≤ l.length := by
  induction l generalizing w with
  | nil => simp [fits]
  | cons e l ih =>
      rw [fits]
      split
      · exact Nat.zero_le _
      · exact Nat.succ_le_succ (ih _)

/-- A call that begins after the last entry, or at a negative number, writes nothing. -/
theorem tmpReaddir_past {s : ℤ} (hs : (d.entries.length : ℤ) ≤ s % 2 ^ 64) :
    (tmpReaddir dname d nbyte s).1 = [] ∧ (tmpReaddir dname d nbyte s).2.2 = int32Max := by
  unfold tmpReaddir
  rw [readdirLoop_skip (Nat.zero_le _), if_pos (by omega)]
  exact ⟨rfl, by decide⟩

/-- **One call** of `tmp_readdir` at an entry. -/
theorem tmpReaddir_spec (dname nbyte : ℕ) {s : ℕ} (hs : s < d.entries.length) :
    (tmpReaddir dname d nbyte s).1.map Dirent.entry
        = (d.entries.drop s).take (fits dname nbyte 0 (d.entries.drop s)) ∧
      ((tmpReaddir dname d nbyte s).1.map Dirent.reclen).sum ≤ nbyte ∧
      (tmpReaddir dname d nbyte s).2.2
        = if s + fits dname nbyte 0 (d.entries.drop s) = d.entries.length then (int32Max : ℤ)
          else s + 2 * fits dname nbyte 0 (d.entries.drop s) - 1 := by
  have hlen := d.length_le
  have hmax : kheapSize / 32 = 2 ^ 27 := by decide
  have hle := fits_le dname nbyte 0 (d.entries.drop s)
  have hdrop : (d.entries.drop s).length = d.entries.length - s := List.length_drop
  have hseq : ((s : ℤ) % 2 ^ 64).toNat = s := by omega
  obtain ⟨hentries, hsum, hret⟩ := readdirLoop_write dname nbyte (w := 0) (l := d.entries.drop s)
    (Nat.le_refl s) (by omega)
  unfold tmpReaddir
  rw [hseq, readdirLoop_skip (Nat.zero_le s), if_neg (by omega), Nat.sub_zero]
  refine ⟨hentries, ?_, ?_⟩
  · have hsum := hsum (Nat.zero_le _)
    rwa [Nat.zero_add] at hsum
  · dsimp only
    rw [hret, hdrop]
    generalize fits dname nbyte 0 (d.entries.drop s) = r at hle ⊢
    -- at the end of the directory the source returns `INT32_MAX`
    by_cases hall : s + r = d.entries.length
    · rw [if_pos (by omega), if_pos hall]
      decide
    · rw [if_neg (by omega), if_neg hall]
      -- with nothing written at the beginning the offset falls to `-1`
      by_cases hzero : s + 2 * r = 0
      · obtain ⟨rfl, rfl⟩ : s = 0 ∧ r = 0 := by omega
        decide
      · have hval : decr64 (s + 2 * r) = s + 2 * r - 1 := decr64_eq (by omega) (by omega)
        rw [hval]
        refine (Int.bmod_eq_of_le ?_ ?_).trans ?_ <;> omega

/-! ## The calls -/

variable {sizes : ℕ → ℕ} {e n s : ℕ}

theorem not_lists_zero {s : ℤ} : ¬ Lists dname d sizes 0 s l := by
  rintro ⟨calls, hcalls, -⟩
  rw [listing] at hcalls
  cases hcalls

/-- A call after the last entry is the last one. -/
theorem lists_past {s : ℤ} (hs : (d.entries.length : ℤ) ≤ s % 2 ^ 64) :
    Lists dname d sizes (n + 1) s l ↔ l = [] := by
  obtain ⟨hrecords, hret⟩ : (tmpReaddir dname d (sizes 0) s).1 = [] ∧
      (tmpReaddir dname d (sizes 0) s).2.2 = int32Max := tmpReaddir_past hs
  unfold Lists
  rw [listing]
  dsimp only
  rw [hret, if_pos rfl, hrecords]
  constructor
  · rintro ⟨calls, hcalls, rfl, -⟩
    cases hcalls
    rfl
  · rintro rfl
    exact ⟨_, rfl, rfl, by simp⟩

/-- A call at an entry: it is the last one if it writes all the entries from there on. -/
theorem lists_succ (hs : s < d.entries.length) :
    Lists dname d sizes (n + 1) s l ↔
      if s + fits dname (sizes 0) 0 (d.entries.drop s) = d.entries.length then l = d.entries.drop s
      else ∃ l', l = (d.entries.drop s).take (fits dname (sizes 0) 0 (d.entries.drop s)) ++ l' ∧
        Lists dname d (fun k => sizes (k + 1)) n
          (s + 2 * fits dname (sizes 0) 0 (d.entries.drop s) - 1) l' := by
  obtain ⟨hentries, hsum, hret⟩ := tmpReaddir_spec dname (sizes 0) hs
  have hlen := d.length_le
  have hmax : kheapSize / 32 = 2 ^ 27 := by decide
  have hle := fits_le dname (sizes 0) 0 (d.entries.drop s)
  have hdrop : (d.entries.drop s).length = d.entries.length - s := List.length_drop
  unfold Lists
  rw [listing]
  dsimp only
  rw [hret, ← hentries]
  split
  -- the last call: the listing is what it returned
  · rename_i hall
    have htake : (d.entries.drop s).take (fits dname (sizes 0) 0 (d.entries.drop s))
        = d.entries.drop s := List.take_of_length_le (by omega)
    rw [htake] at hentries
    rw [if_pos rfl, ← hentries]
    constructor
    · rintro ⟨calls, hcalls, rfl, -⟩
      cases hcalls
      simp
    · rintro rfl
      exact ⟨_, rfl, by simp, by simpa using hsum⟩
  -- the offset goes on, and the caller calls again with it
  · have hne : ((s : ℤ) + 2 * fits dname (sizes 0) 0 (d.entries.drop s) - 1) ≠ int32Max := by
      have hint : (int32Max : ℤ) = 2 ^ 31 - 1 := by decide
      omega
    rw [if_neg hne]
    constructor
    · rintro ⟨calls, hcalls, rfl, hfit⟩
      obtain ⟨rest, hrest, rfl⟩ := Option.map_eq_some_iff.mp hcalls
      refine ⟨(rest.flatMap Prod.snd).map Dirent.entry, by simp, rest, hrest, rfl, ?_⟩
      exact fun c hc => hfit c (List.mem_cons_of_mem _ hc)
    · rintro ⟨l', rfl, rest, hrest, rfl, hfit⟩
      refine ⟨(sizes 0, (tmpReaddir dname d (sizes 0) s).1) :: rest, by rw [hrest]; rfl, by simp, ?_⟩
      intro c hc
      rcases List.mem_cons.mp hc with rfl | hc
      · exact hsum
      · exact hfit c hc

/-- The number of a call that has gone back too far is taken as past the end. -/
theorem not_lists_before (he : e < d.entries.length) :
    ¬ Lists dname d sizes n (-1) (d.entries.drop e) := by
  have hlen := d.length_le
  have hmax : kheapSize / 32 = 2 ^ 27 := by decide
  intro h
  cases n with
  | zero => exact not_lists_zero h
  | succ n =>
      rw [lists_past (by omega)] at h
      rw [List.drop_eq_nil_iff] at h
      omega

/-- Calls that list the entries from `e` on go back to `e` with buffers into which nothing fits. -/
theorem Lists.back (he : e < d.entries.length) (hs : s < 2 ^ 64)
    (h : Lists dname d sizes n s (d.entries.drop e)) :
    e ≤ s ∧ (∀ j < s - e, s - j < d.entries.length ∧
        fits dname (sizes j) 0 (d.entries.drop (s - j)) = 0) ∧
      Lists dname d (fun k => sizes (k + (s - e))) (n - (s - e)) e (d.entries.drop e) := by
  induction n generalizing sizes s with
  | zero => exact (not_lists_zero h).elim
  | succ n ih =>
      have hne : d.entries.drop e ≠ [] := by
        rw [Ne, List.drop_eq_nil_iff]
        omega
      rcases Nat.lt_or_ge s d.entries.length with hlt | hge
      swap
      · rw [lists_past (by omega)] at h
        exact (hne h).elim
      have hrun := (lists_succ hlt).mp h
      -- a call that writes something writes the entry at its number first
      have hhead : s ≠ e → fits dname (sizes 0) 0 (d.entries.drop s) = 0 := by
        intro hse
        by_contra hpos
        refine hse ?_
        obtain ⟨r, hr⟩ := Nat.exists_eq_succ_of_ne_zero hpos
        have hfirst : (d.entries.drop e).head? = (d.entries.drop s).head? := by
          split at hrun
          · rw [hrun]
          · obtain ⟨l', hl', -⟩ := hrun
            rw [hl', hr, List.drop_eq_getElem_cons hlt, Nat.succ_eq_add_one, List.take_succ_cons]
            rfl
        rw [List.head?_drop, List.head?_drop, List.getElem?_eq_getElem he,
          List.getElem?_eq_getElem hlt] at hfirst
        exact ((d.nodup.getElem_inj_iff).mp (Option.some.inj hfirst)).symm
      by_cases hse : s = e
      · subst hse
        simpa using h
      · have hzero := hhead hse
        rw [hzero, if_neg (by omega), List.take_zero] at hrun
        obtain ⟨l', hl', hrun⟩ := hrun
        rw [List.nil_append] at hl'
        subst hl'
        cases s with
        | zero => exact (not_lists_before he hrun).elim
        | succ s =>
            have hcast : ((s + 1 : ℕ) : ℤ) + 2 * (0 : ℕ) - 1 = (s : ℤ) := by omega
            rw [hcast] at hrun
            obtain ⟨hle, hback, hrest⟩ := ih (by omega) hrun
            have hsub : s + 1 - e = s - e + 1 := by omega
            refine ⟨by omega, fun j hj => ?_, ?_⟩
            · cases j with
              | zero => exact ⟨by omega, hzero⟩
              | succ j =>
                  rw [Nat.add_sub_add_right]
                  exact hback j (by omega)
            · rw [hsub, Nat.add_sub_add_right]
              exact hrest

/-- Calls that list the entries have fair buffers. -/
theorem Lists.fair (he : e < d.entries.length)
    (h : Lists dname d sizes n e (d.entries.drop e)) : Fair dname d e sizes := by
  have hlen := d.length_le
  have hmax : kheapSize / 32 = 2 ^ 27 := by decide
  -- by the number of calls; several of them may be needed to come back from an offset that was skipped
  induction n using Nat.strong_induction_on generalizing sizes e with
  | _ n ih =>
      cases n with
      | zero => exact (not_lists_zero h).elim
      | succ n =>
          have hle := fits_le dname (sizes 0) 0 (d.entries.drop e)
          rw [List.length_drop] at hle
          rw [lists_succ he] at h
          split at h
          · rename_i hall
            exact .last hall
          · rename_i hall
            obtain ⟨l', hl', hrun⟩ := h
            obtain ⟨r, hr⟩ : ∃ r, fits dname (sizes 0) 0 (d.entries.drop e) = r := ⟨_, rfl⟩
            rw [hr] at hle hall hl' hrun
            -- the listing is complete, so what the later calls give is the rest of the directory
            have hrest : l' = d.entries.drop (e + r) := by
              have hsplit := (List.take_append_drop r (d.entries.drop e)).trans hl'
              rw [List.drop_drop] at hsplit
              exact (List.append_cancel_left hsplit).symm
            subst hrest
            rcases Nat.eq_zero_or_pos (e + r) with hzero | hpos
            · obtain ⟨rfl, rfl⟩ : e = 0 ∧ r = 0 := by omega
              exact (not_lists_before (by omega) hrun).elim
            · have hcast : (e : ℤ) + 2 * (r : ℕ) - 1 = (e + 2 * r - 1 : ℕ) := by omega
              rw [hcast] at hrun
              obtain ⟨hpast, hback, hrest⟩ := hrun.back (by omega) (by omega)
              have hsub : e + 2 * r - 1 - (e + r) = r - 1 := by omega
              have hshift : (fun k => sizes (k + (r - 1) + 1)) = fun k => sizes (k + r) := by
                funext k
                congr 1
                omega
              rw [hsub] at hback hrest
              refine .more hr (by omega) (by omega) (fun j hj hjr => ?_) (ih (n - (r - 1)) ?_ ?_ ?_)
              · have hback := hback (j - 1) (by omega)
                have hj' : e + 2 * r - 1 - (j - 1) = e + 2 * r - j := by omega
                rwa [hj', Nat.sub_add_cancel hj] at hback
              · omega
              · omega
              · rwa [← hshift]

/-- Buffers into which nothing fits take the calls back. -/
theorem lists_of_back {m : ℕ} (hback : ∀ j < m, e + m - j < d.entries.length ∧
      fits dname (sizes j) 0 (d.entries.drop (e + m - j)) = 0)
    (h : Lists dname d (fun k => sizes (k + m)) n e l) :
    Lists dname d sizes (n + m) (e + m : ℕ) l := by
  induction m generalizing sizes with
  | zero => exact h
  | succ m ih =>
      obtain ⟨hlt, hzero⟩ := hback 0 (Nat.succ_pos m)
      rw [Nat.sub_zero] at hlt hzero
      rw [← Nat.add_assoc n, lists_succ hlt, hzero, if_neg (by omega)]
      refine ⟨l, by simp, ?_⟩
      have hcast : ((e + (m + 1) : ℕ) : ℤ) + 2 * (0 : ℕ) - 1 = (e + m : ℕ) := by omega
      rw [hcast]
      refine ih (fun j hj => ?_) h
      have hback := hback (j + 1) (by omega)
      rwa [← Nat.add_assoc, Nat.add_sub_add_right] at hback

/-- With fair buffers the calls list the entries. -/
theorem Fair.lists (h : Fair dname d e sizes) (he : e < d.entries.length) :
    ∃ n, Lists dname d sizes n e (d.entries.drop e) := by
  induction h with
  | last hall => exact ⟨1, (lists_succ he).mpr (by rw [if_pos hall])⟩
  | @more e r sizes hr hpos hlt hback hrest ih =>
      obtain ⟨n, hn⟩ := ih hlt
      refine ⟨n + (r - 1) + 1, (lists_succ he).mpr ?_⟩
      rw [hr, if_neg (by omega)]
      refine ⟨d.entries.drop (e + r), ?_, ?_⟩
      · rw [← List.drop_drop, List.take_append_drop]
      · have hcast : (e : ℤ) + 2 * (r : ℕ) - 1 = (e + r + (r - 1) : ℕ) := by omega
        rw [hcast]
        refine lists_of_back (fun j hj => ?_) ?_
        · have hback := hback (j + 1) (by omega) (by omega)
          have hj' : e + 2 * r - (j + 1) = e + r + (r - 1) - j := by omega
          rwa [hj'] at hback
        · have hshift : (fun k => sizes (k + (r - 1) + 1)) = fun k => sizes (k + r) := by
            funext k
            congr 1
            omega
          rwa [hshift]

/-- **The calls of `tmp_readdir` list each entry exactly once and in order** if and only if the buffers
are fair. -/
theorem lists_all_iff (dname : ℕ) (d : Dir) (sizes : ℕ → ℕ) :
    ListsAll dname d sizes ↔ Fair dname d 0 sizes := by
  rcases Nat.eq_zero_or_pos d.entries.length with hzero | hpos
  · have hnil : d.entries = [] := List.eq_nil_of_length_eq_zero hzero
    refine ⟨fun _ => .last (by simp [hnil, fits]), fun _ => ⟨1, (lists_past (by simp [hnil])).mpr hnil⟩⟩
  · constructor
    · rintro ⟨n, hn⟩
      exact Lists.fair hpos hn
    · exact fun h => h.lists hpos

/-- Three entries; with buffers that take two of them each, the second call begins at the end. -/
def threeEntries : Dir where
  entries := [⟨[97], 1⟩, ⟨[98], 2⟩, ⟨[99], 3⟩]
  nodup := by decide
  length_le := by decide

/-- Though each buffer is large enough for each entry, the last entry is not listed. -/
theorem third_entry_skipped : ¬ ∀ (d : Dir) (sizes : ℕ → ℕ),
    (∀ k, ∀ e ∈ d.entries, direntReclen 19 e.name.length < sizes k) → ListsAll 19 d sizes := by
  intro h
  obtain ⟨n, hn⟩ := h threeEntries (fun _ => 50) fun _ => by decide
  have hfits : fits 19 50 0 (threeEntries.entries.drop 0) = 2 := by decide
  have hlen : threeEntries.entries.length = 3 := rfl
  have hfair := Lists.fair (d := threeEntries) (e := 0) (by decide) hn
  cases hfair with
  | last hall =>
      rw [hfits, hlen] at hall
      omega
  | more hr hpos hlt hback hrest =>
      rw [hfits] at hr
      subst hr
      have hend := (hback 1 (by decide) (by decide)).1
      rw [hlen] at hend
      omega

end Scalux.Tmpfs
