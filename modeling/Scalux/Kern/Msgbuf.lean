import Mathlib.Data.List.Basic
import Mathlib.Data.List.Induction
import Mathlib.Data.List.TakeDrop
import Mathlib.Logic.Function.Basic

/-! # The message buffer

`md_kputc` (`x86_64/kmain.c`) puts a character into `msgbuf`, a ring of 4096 characters, and
`initWithFB` (`dev/fbterm/FBTerminal.m`) prints what the ring holds.

When the write index has come upon the read index, `md_kputc` moves the latter on, and sets it to 0 if it
then is the write index once more, which it never is; the test that was meant is that for the end of the
buffer.  So the read index goes up to 4096 and stays there.  The loop of `initWithFB` wraps its index in
the body, after the test for the write index, so that it does not see a write index of 0.

* **`puts_eq`**: the indices and the characters after any number of calls.
* **`msgbuf_replay_iff`**: the last characters are printed, and the indices are in range, exactly up to
  8190 characters other than 4096. -/

namespace Scalux.Console

/-- `sizeof(msgbuf.buf)`. -/
def bufSize : ℕ := 4096

/-- `struct msgbuf`. -/
structure Msgbuf where
  buf : ℕ → UInt8
  read : ℕ
  write : ℕ

/-- `msgbuf`, before the first call. -/
def empty : Msgbuf := ⟨fun _ => 0, 0, 0⟩

/-- `md_kputc`, up to the output on the serial port. -/
def mdKputc (b : Msgbuf) (ch : UInt8) : Msgbuf :=
  let write := if bufSize ≤ b.write + 1 then 0 else b.write + 1
  let read := if b.read = write then if b.read + 1 = write then 0 else b.read + 1 else b.read
  ⟨Function.update b.buf b.write ch, read, write⟩

/-- Calls of `md_kputc`. -/
def puts (l : List UInt8) : Msgbuf := l.foldl mdKputc empty

/-- The loop of `initWithFB` from the index `i` on, as far as it ends within the given number of rounds:
what is printed. -/
def replayFrom (b : Msgbuf) : ℕ → ℕ → Option (List UInt8)
  | 0, _ => none
  | rounds + 1, i =>
      if i = b.write then some []
      else
        let i := if bufSize ≤ i then 0 else i
        (replayFrom b rounds (i + 1)).map (b.buf i :: ·)

/-- The indices are in range at any time, and the loop ends and prints the last characters. -/
structure Replays (l : List UInt8) : Prop where
  in_range : ∀ p, p <+: l → (puts p).read < bufSize ∧ (puts p).write < bufSize
  prints : ∃ rounds, replayFrom (puts l) rounds (puts l).read
    = some (l.drop (l.length - min l.length (bufSize - 1)))

/-! ## The indices -/

variable {l : List UInt8} {n j i : ℕ}

/-- The buffer is not empty. -/
theorem bufSize_pos : 0 < bufSize := Nat.succ_pos _

/-- The read index after `n` characters. -/
def readAfter (n : ℕ) : ℕ :=
  if n < bufSize then 0 else if n < 2 * bufSize then n + 1 - bufSize else bufSize

/-- Below `bufSize` characters: `readAfter n = 0`. -/
theorem readAfter_short (hn : n < bufSize) : readAfter n = 0 := if_pos hn

/-- In the second round the reader is one ahead of the writer: `readAfter n = n + 1 - bufSize`. -/
theorem readAfter_mid (hn : bufSize ≤ n) (hn' : n < 2 * bufSize) : readAfter n = n + 1 - bufSize := by
  rw [readAfter, if_neg (Nat.not_lt.mpr hn), if_pos hn']

/-- From the third round on the reader stays: `readAfter n = bufSize`. -/
theorem readAfter_long (hn : 2 * bufSize ≤ n) : readAfter n = bufSize := by
  have hle : bufSize ≤ n := Nat.le_trans (Nat.le_mul_of_pos_left _ (Nat.succ_pos 1)) hn
  rw [readAfter, if_neg (Nat.not_lt.mpr hle), if_neg (Nat.not_lt.mpr hn)]

/-- `md_kputc` on the write index. -/
theorem write_succ (n : ℕ) :
    (if bufSize ≤ n % bufSize + 1 then 0 else n % bufSize + 1) = (n + 1) % bufSize := by
  unfold bufSize
  split <;> omega

/-- `md_kputc` on the read index. -/
theorem read_succ (n : ℕ) : (if readAfter n = (n + 1) % bufSize then
      if readAfter n + 1 = (n + 1) % bufSize then 0 else readAfter n + 1
    else readAfter n) = readAfter (n + 1) := by
  have hmod : (n + 1) % bufSize < bufSize := Nat.mod_lt _ bufSize_pos
  by_cases hshort : n + 1 < bufSize
  · rw [readAfter_short hshort, readAfter_short (by omega), Nat.mod_eq_of_lt hshort,
      if_neg (by omega)]
  by_cases hfull : n < bufSize
  · have hn : n + 1 = bufSize := by omega
    rw [readAfter_short hfull, readAfter_mid (by omega) (by omega), hn, Nat.mod_self, if_pos rfl,
      if_neg (by omega)]
    omega
  by_cases hlong : n + 1 < 2 * bufSize
  · have hread : n + 1 - bufSize = (n + 1) % bufSize := by
      rw [Nat.mod_eq_sub_mod (by omega), Nat.mod_eq_of_lt (by omega)]
    rw [readAfter_mid (by omega) (by omega), readAfter_mid (by omega) hlong, if_pos hread,
      if_neg (by omega)]
    omega
  · -- the read index is the end of the buffer, which the write index never is
    have hread : readAfter n = bufSize := by
      by_cases hn : n < 2 * bufSize
      · rw [readAfter_mid (by omega) hn]
        omega
      · exact readAfter_long (by omega)
    rw [hread, readAfter_long (by omega), if_neg (by omega)]

/-- One character more. -/
theorem puts_concat (l : List UInt8) (c : UInt8) : puts (l ++ [c]) = mdKputc (puts l) c := by
  unfold puts
  rw [List.foldl_append, List.foldl_cons, List.foldl_nil]

/-- Two characters that are less than 4096 apart are at different indices. -/
theorem mod_ne (hj : j < n) (hnear : n < j + bufSize) : j % bufSize ≠ n % bufSize := by
  unfold bufSize at hnear ⊢
  omega

/-- **The ring** after the calls: a character is there until 4096 more have come. -/
theorem puts_eq (l : List UInt8) : (puts l).write = l.length % bufSize ∧
    (puts l).read = readAfter l.length ∧
    ∀ j, l.length ≤ j + bufSize → ∀ h : j < l.length, (puts l).buf (j % bufSize) = l[j] := by
  induction l using List.reverseRecOn with
  | nil => exact ⟨rfl, rfl, fun j _ h => absurd h (Nat.not_lt_zero j)⟩
  | append_singleton l c ih =>
      obtain ⟨hwrite, hread, hbuf⟩ := ih
      have hlen : (l ++ [c]).length = l.length + 1 := by simp
      rw [puts_concat]
      dsimp only [mdKputc]
      rw [hwrite, hread, write_succ, read_succ]
      refine ⟨by rw [hlen], by rw [hlen], fun j hj h => ?_⟩
      rw [hlen] at hj
      by_cases hlast : j = l.length
      · subst hlast
        rw [Function.update_self, List.getElem_concat_length rfl]
      · -- another character is elsewhere in the ring
        have hlt : j < l.length := by omega
        rw [Function.update_of_ne (mod_ne hlt (by omega)), List.getElem_append_left hlt]
        exact hbuf j (by omega) hlt

/-! ## The loop -/

/-- The characters from the `j`-th on are printed, if the ring holds them and the write index is not 0. -/
theorem replayFrom_eq (hwrite : l.length % bufSize ≠ 0) (hj : j ≤ l.length)
    (hnear : l.length < j + bufSize) (hi : i = j % bufSize ∨ (i = bufSize ∧ j % bufSize = 0)) :
    ∃ rounds, replayFrom (puts l) rounds i = some (l.drop j) := by
  obtain ⟨hput, -, hbuf⟩ := puts_eq l
  obtain ⟨d, hd⟩ : ∃ d, l.length = j + d := ⟨l.length - j, by omega⟩
  -- by the number of bytes still to be replayed, the index follows the byte modulo the size
  induction d generalizing j i with
  | zero =>
      refine ⟨1, ?_⟩
      have hend : i = (puts l).write := by
        rw [hput]
        rcases hi with rfl | ⟨-, hzero⟩
        · rw [hd, Nat.add_zero]
        · exact absurd (by rw [hd, Nat.add_zero, hzero]) hwrite
      rw [replayFrom, if_pos hend, List.drop_of_length_le (by omega)]
  | succ d ih =>
      have hjmod : j % bufSize < bufSize := Nat.mod_lt _ bufSize_pos
      have hmod : l.length % bufSize < bufSize := Nat.mod_lt _ bufSize_pos
      have hne : j % bufSize ≠ l.length % bufSize := mod_ne (by omega) hnear
      -- the replay goes on: the index differs from `write` as long as bytes are left
      have hnot : i ≠ (puts l).write := by
        rw [hput]
        omega
      have hindex : (if bufSize ≤ i then 0 else i) = j % bufSize := by
        split <;> omega
      have hnext : j % bufSize + 1 = (j + 1) % bufSize ∨
          (j % bufSize + 1 = bufSize ∧ (j + 1) % bufSize = 0) := by
        rw [← write_succ]
        split <;> omega
      obtain ⟨rounds, hrounds⟩ := ih (by omega) (by omega) hnext (by omega)
      have hlt : j < l.length := by omega
      refine ⟨rounds + 1, ?_⟩
      rw [replayFrom, if_neg hnot]
      dsimp only
      rw [hindex, hrounds, hbuf j (by omega) hlt, Option.map_some, List.getElem_cons_drop]

/-- The loop does not end if the write index is 0 and the first index is not. -/
theorem replayFrom_none {b : Msgbuf} (hwrite : b.write = 0) (rounds : ℕ) (hi : i ≠ 0) :
    replayFrom b rounds i = none := by
  induction rounds generalizing i with
  | zero => rfl
  | succ rounds ih =>
      rw [replayFrom, if_neg (by omega)]
      dsimp only
      rw [ih (Nat.succ_ne_zero _)]
      rfl

/-- The loop does not end after 4096 characters. -/
theorem not_replays_of_full (hfull : l.length = bufSize) : ¬ Replays l := by
  intro h
  obtain ⟨hwrite, hread, -⟩ := puts_eq l
  obtain ⟨rounds, hprints⟩ := h.prints
  rw [replayFrom_none (by rw [hwrite, hfull, Nat.mod_self]) rounds] at hprints
  · cases hprints
  · rw [hread, hfull]
    decide

/-- **Replay.** The indices stay in range and the last characters are printed if and only if there are
at most 8190 characters, and not 4096. -/
theorem msgbuf_replay_iff (l : List UInt8) :
    Replays l ↔ l.length ≠ bufSize ∧ l.length < 2 * bufSize - 1 := by
  constructor
  · intro h
    refine ⟨fun hfull => not_replays_of_full hfull h, ?_⟩
    by_contra hlong
    -- the read index has left the buffer after 8191 characters
    have hprefix := (h.in_range (l.take (2 * bufSize - 1)) (List.take_prefix _ _)).1
    rw [(puts_eq _).2.1, List.length_take, Nat.min_eq_left (by omega)] at hprefix
    exact absurd hprefix (by decide)
  · rintro ⟨hfull, hlong⟩
    obtain ⟨hwrite, hread, -⟩ := puts_eq l
    refine ⟨fun p hp => ?_, ?_⟩
    · have hlen := hp.length_le
      obtain ⟨hpwrite, hpread, -⟩ := puts_eq p
      rw [hpwrite, hpread]
      refine ⟨?_, Nat.mod_lt _ bufSize_pos⟩
      by_cases hshort : p.length < bufSize
      · rw [readAfter_short hshort]
        exact bufSize_pos
      · rw [readAfter_mid (by omega) (by omega)]
        omega
    · rw [hread]
      by_cases hshort : l.length < bufSize
      · rw [readAfter_short hshort, Nat.min_eq_left (by omega), Nat.sub_self]
        by_cases hnil : l.length = 0
        · exact ⟨1, by rw [replayFrom, hwrite, hnil, List.drop_of_length_le (by omega)]; rfl⟩
        · exact replayFrom_eq (by rwa [Nat.mod_eq_of_lt hshort]) (Nat.zero_le _) (by omega)
            (.inl (Nat.zero_mod _).symm)
      · -- the first character that is printed is at the read index
        have hwraps : l.length % bufSize = l.length - bufSize := by
          rw [Nat.mod_eq_sub_mod (by omega), Nat.mod_eq_of_lt (by omega)]
        have hfirst : l.length - (bufSize - 1) = l.length + 1 - bufSize := by omega
        rw [readAfter_mid (by omega) (by omega), Nat.min_eq_right (by omega), hfirst]
        exact replayFrom_eq (by omega) (by omega) (by omega)
          (.inl (Nat.mod_eq_of_lt (by omega)).symm)

/-- After 4096 characters the loop does not end. -/
theorem msgbuf_replay_endless : ¬ ∀ l : List UInt8, Replays l := fun h =>
  not_replays_of_full List.length_replicate (h (List.replicate bufSize 32))

end Scalux.Console
