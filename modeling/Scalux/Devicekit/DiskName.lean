import Mathlib.Algebra.Group.Nat.Defs
import Mathlib.Data.List.Basic
import Mathlib.Data.Int.Basic
import Scalux.Lib.Rows
import Scalux.Lib.Uint64

/-! # Device names of logical disks

`buildPosixDeviceName:withMaxSize:` of `devicekit/DKLogicalDisk.m`: a logical disk on a drive is named after
the number of the drive, and one on a logical disk by what that one is named and a suffix with its location.

A method writes its name to a buffer and returns the number of characters; one on a logical disk has the
underlying disk write to the buffer, and goes on behind the characters that it says it has written.  It
returns the number of characters of its suffix alone.

* `none` stands for a failed assertion.

* **`build_spec`**: what a chain of any depth leaves in the buffer, and what it returns.
* **`device_name_iff`**: only a disk on a drive writes its name and returns its length.
* **`writes_name_iff`**: and only that and one on such a disk write their name.
* **`posixName_injective`**: names tell disks apart. -/

namespace Scalux.DiskName

/-- A `DKLogicalDisk`: `m_location`, and `m_underlying`, which is a drive or a logical disk. -/
inductive LogicalDisk
  | onDrive (driveID : ℤ) (location : ℕ)
  | onDisk (location : ℕ) (underlying : LogicalDisk)

namespace LogicalDisk

/-- How many logical disks there are in a chain. -/
def depth : LogicalDisk → ℕ
  | .onDrive _ _ => 1
  | .onDisk _ underlying => underlying.depth + 1

/-- The drive below a chain. -/
def driveID : LogicalDisk → ℤ
  | .onDrive driveID _ => driveID
  | .onDisk _ underlying => underlying.driveID

/-- The locations above the innermost disk, outermost first. -/
def locations : LogicalDisk → List ℕ
  | .onDrive _ _ => []
  | .onDisk location underlying => location :: underlying.locations

end LogicalDisk

/-- `%d`. -/
def decimal (n : ℤ) : List Char :=
  if n < 0 then '-' :: Nat.toDigits 10 n.natAbs else Nat.toDigits 10 n.natAbs

/-- What `"dk%d"` is expanded to. -/
def diskText (driveID : ℤ) : List Char := 'd' :: 'k' :: decimal driveID

/-- What `"s%lu"` is expanded to. -/
def suffix (location : ℕ) : List Char := 's' :: Nat.toDigits 10 location

/-- `ksnprintf`, with the text that its format is expanded to: it assigns what fits of the text and its
terminator, and returns the number of characters of the text. -/
def ksnprintf (mem : ℕ → Char) (buffer size : ℕ) (text : List Char) : ℕ × (ℕ → Char) :=
  (text.length, assignRow mem buffer ((text ++ ['\x00']).take size))

/-- `buildPosixDeviceName:withMaxSize:`. -/
def buildPosixDeviceName : LogicalDisk → ℕ → ℕ → (ℕ → Char) → Option (ℕ × (ℕ → Char))
  | .onDrive driveID _, buffer, size, mem => some (ksnprintf mem buffer size (diskText driveID))
  | .onDisk location underlying, buffer, size, mem =>
      (buildPosixDeviceName underlying buffer size mem).bind fun x =>
        let r := x.1
        let size := sub64 size r
        if 0 < size then some (ksnprintf x.2 (buffer + r) size (suffix location)) else none

/-- The name of a logical disk. -/
def posixName : LogicalDisk → List Char
  | .onDrive driveID _ => diskText driveID
  | .onDisk location underlying => posixName underlying ++ suffix location

/-- What `buildPosixDeviceName` is for. -/
def Names (c : LogicalDisk) (buffer size : ℕ) (mem : ℕ → Char) : Prop :=
  ∃ mem', buildPosixDeviceName c buffer size mem = some ((posixName c).length, mem') ∧
    RowAt mem' buffer (posixName c ++ ['\x00'])

/-- What is returned. -/
def returned : LogicalDisk → ℕ
  | .onDrive driveID _ => (diskText driveID).length
  | .onDisk location _ => (suffix location).length

/-- What is left in the buffer. -/
def written : LogicalDisk → List Char
  | .onDrive driveID _ => diskText driveID
  | .onDisk location underlying => (written underlying).take (returned underlying) ++ suffix location

variable {c c' : LogicalDisk} {mem mem' : ℕ → Char} {a buffer size : ℕ} {l l' : List Char}

/-! ## Names -/

/-- The suffix is not empty. -/
theorem suffix_length_pos (location : ℕ) : 0 < (suffix location).length := Nat.succ_pos _

/-- Digits are none of the other characters. -/
theorem not_mem_toDigits {n : ℕ} {ch : Char} (hch : ch.isDigit = false) : ch ∉ Nat.toDigits 10 n := by
  intro hmem
  rw [Nat.isDigit_of_mem_toDigits (by decide) (by decide) hmem] at hch
  cases hch

/-- A numeral consists of digits and a sign. -/
theorem not_mem_decimal {n : ℤ} {ch : Char} (hch : ch.isDigit = false) (hsign : ch ≠ '-') :
    ch ∉ decimal n := by
  unfold decimal
  split
  · exact fun h => (List.mem_cons.mp h).elim hsign (not_mem_toDigits hch)
  · exact not_mem_toDigits hch

/-- The name of a disk consists of digits, a sign and `dk`. -/
theorem not_mem_diskText {n : ℤ} {ch : Char} (hch : ch.isDigit = false) (hsign : ch ≠ '-') (hd : ch ≠ 'd')
    (hk : ch ≠ 'k') : ch ∉ diskText n := fun h =>
  (List.mem_cons.mp h).elim hd fun h => (List.mem_cons.mp h).elim hk (not_mem_decimal hch hsign)

/-- A name has no terminator in it. -/
theorem nul_not_mem_posixName (c : LogicalDisk) : '\x00' ∉ posixName c := by
  induction c with
  | onDrive driveID location => exact not_mem_diskText rfl (by decide) (by decide) (by decide)
  | onDisk location underlying ih =>
      intro h
      rcases List.mem_append.mp h with h | h
      · exact ih h
      · exact (List.mem_cons.mp h).elim (by decide) (not_mem_toDigits rfl)

/-- Different naturals have different numerals. -/
theorem toDigits_injective {n n' : ℕ} (h : Nat.toDigits 10 n = Nat.toDigits 10 n') : n = n' := by
  have hn := congrArg (fun digits => Nat.ofDigitChars 10 digits 0) h
  simpa only [Nat.ofDigitChars_ten_toDigits] using hn

/-- Different integers have different numerals. -/
theorem decimal_injective {n n' : ℤ} (h : decimal n = decimal n') : n = n' := by
  -- a sign is no digit
  have hsign : ∀ {k k' : ℕ}, '-' :: Nat.toDigits 10 k ≠ Nat.toDigits 10 k' := fun hk =>
    not_mem_toDigits rfl (hk ▸ List.mem_cons_self)
  unfold decimal at h
  split at h <;> split at h
  · have habs := toDigits_injective (List.cons.inj h).2
    omega
  · exact absurd h hsign
  · exact absurd h.symm hsign
  · have habs := toDigits_injective h
    omega

/-- What is behind the last of some character, and what is before it. -/
theorem append_last_inj {α : Type*} {x : α} {k k' d d' : List α} (hd : x ∉ d) (hd' : x ∉ d')
    (h : k ++ x :: d = k' ++ x :: d') : k = k' ∧ d = d' := by
  rcases List.append_eq_append_iff.mp h with ⟨m, rfl, hm⟩ | ⟨m, rfl, hm⟩
  · cases m with
    | nil => exact ⟨(List.append_nil k).symm, (List.cons.inj hm).2⟩
    | cons y m => exact absurd ((List.cons.inj hm).2 ▸ List.mem_append_right m List.mem_cons_self) hd
  · cases m with
    | nil => exact ⟨List.append_nil k', (List.cons.inj hm).2.symm⟩
    | cons y m => exact absurd ((List.cons.inj hm).2 ▸ List.mem_append_right m List.mem_cons_self) hd'

/-- **Names tell disks apart.** -/
theorem posixName_injective (h : posixName c = posixName c') :
    c.driveID = c'.driveID ∧ c.locations = c'.locations := by
  have hs : ∀ {n : ℤ} {l : ℕ} {x : List Char}, diskText n ≠ x ++ suffix l := fun hn =>
    not_mem_diskText rfl (by decide) (by decide) (by decide)
      (hn ▸ List.mem_append_right _ List.mem_cons_self)
  induction c generalizing c' with
  | onDrive driveID location =>
      cases c' with
      | onDrive driveID' location' =>
          exact ⟨decimal_injective (List.cons.inj (List.cons.inj h).2).2, rfl⟩
      | onDisk location' underlying' => exact absurd h hs
  | onDisk location underlying ih =>
      cases c' with
      | onDrive driveID' location' => exact absurd h.symm hs
      | onDisk location' underlying' =>
          -- the last `s` is that of the suffix
          obtain ⟨hname, hdigits⟩ := append_last_inj (not_mem_toDigits rfl) (not_mem_toDigits rfl) h
          obtain ⟨hid, hlocations⟩ := ih hname
          exact ⟨hid, congrArg₂ List.cons (toDigits_injective hdigits) hlocations⟩

/-! ## What a chain writes -/

/-- A method returns no more than it has written. -/
theorem returned_le_written (c : LogicalDisk) : returned c ≤ (written c).length := by
  cases c with
  | onDrive driveID location => exact Nat.le_refl _
  | onDisk location underlying =>
      rw [written, List.length_append]
      exact Nat.le_add_left _ _

/-- The suffix is written behind the name that was returned. -/
theorem length_written_onDisk (location : ℕ) (underlying : LogicalDisk) :
    (written (.onDisk location underlying)).length = returned underlying + (suffix location).length := by
  rw [written, List.length_append, List.length_take, Nat.min_eq_left (returned_le_written underlying)]

/-- What is written is no longer than the name. -/
theorem length_written_le (c : LogicalDisk) : (written c).length ≤ (posixName c).length := by
  induction c with
  | onDrive driveID location => exact Nat.le_refl _
  | onDisk location underlying ih =>
      have hret := returned_le_written underlying
      rw [length_written_onDisk, posixName, List.length_append]
      omega

/-- **What a chain does**, with a buffer that its name fits in. -/
theorem build_spec (buffer : ℕ) (mem : ℕ → Char) (hsize : (posixName c).length < size)
    (hmax : size < 2 ^ 64) :
    ∃ mem', buildPosixDeviceName c buffer size mem = some (returned c, mem') ∧
      RowAt mem' buffer (written c ++ ['\x00']) := by
  induction c with
  | onDrive driveID location =>
      refine ⟨_, rfl, ?_⟩
      have hfit : (diskText driveID ++ ['\x00']).take size = diskText driveID ++ ['\x00'] :=
        List.take_of_length_le (by rw [List.length_append]; exact hsize)
      rw [hfit]
      exact rowAt_assignRow _ _ _
  | onDisk location underlying ih =>
      rw [posixName, List.length_append] at hsize
      obtain ⟨mem₁, hbuild, hstr⟩ := ih (by omega)
      have hret := returned_le_written underlying
      have hname := length_written_le underlying
      -- what is left of the buffer
      have hleft : sub64 size (returned underlying) = size - returned underlying := sub64_eq (by omega) (by omega)
      have hfit : (suffix location ++ ['\x00']).take (size - returned underlying) =
          suffix location ++ ['\x00'] :=
        List.take_of_length_le (by rw [List.length_append, List.length_singleton]; omega)
      refine ⟨assignRow mem₁ (buffer + returned underlying) (suffix location ++ ['\x00']), ?_, ?_⟩
      · rw [buildPosixDeviceName, hbuild, Option.bind_some]
        dsimp only
        rw [hleft, if_pos (by omega), ksnprintf, hfit]
        rfl
      · have hle : returned underlying ≤ (written underlying ++ ['\x00']).length := by
          rw [List.length_append]
          omega
        have happend := hstr.append_assignRow hle (suffix location ++ ['\x00'])
        rwa [List.take_append_of_le_length hret, ← List.append_assoc] at happend

/-- A chain returns the length of its name only if it is a disk on a drive. -/
theorem returned_eq_iff : returned c = (posixName c).length ↔ c.depth = 1 := by
  cases c with
  | onDrive driveID location => exact iff_of_true rfl rfl
  | onDisk location underlying =>
      have hpos : 0 < (posixName underlying).length := by
        cases underlying with
        | onDrive driveID location => exact Nat.succ_pos _
        | onDisk location underlying =>
            rw [posixName, List.length_append]
            exact Nat.add_pos_right _ (suffix_length_pos _)
      have hdepth : 0 < underlying.depth := by cases underlying <;> exact Nat.succ_pos _
      rw [returned, posixName, List.length_append, LogicalDisk.depth]
      omega

/-- What is written is the name for a disk on a drive, and for a disk on that. -/
theorem written_eq (h : c.depth ≤ 2) : written c = posixName c := by
  cases c with
  | onDrive driveID location => rfl
  | onDisk location underlying =>
      cases underlying with
      | onDrive driveID location' => rw [written, written, returned, List.take_length]; rfl
      | onDisk location' underlying =>
          have hdepth : 0 < underlying.depth := by cases underlying <;> exact Nat.succ_pos _
          simp only [LogicalDisk.depth] at h
          omega

/-- For the others it is shorter than the name. -/
theorem length_written_lt (h : 2 < c.depth) : (written c).length < (posixName c).length := by
  cases c with
  | onDrive driveID location => exact absurd h (by simp [LogicalDisk.depth])
  | onDisk location underlying =>
      have hret : returned underlying ≠ (posixName underlying).length := fun heq => by
        rw [LogicalDisk.depth, returned_eq_iff.mp heq] at h
        exact absurd h (Nat.lt_irrefl 2)
      have hle := Nat.le_trans (returned_le_written underlying) (length_written_le underlying)
      rw [length_written_onDisk, posixName, List.length_append]
      omega

/-! ## Exactness -/

/-- A disk with one more below it writes its name too, though it returns another length; the others do not. -/
theorem writes_name_iff (hsize : (posixName c).length < size) (hmax : size < 2 ^ 64) :
    (∃ r mem', buildPosixDeviceName c buffer size mem = some (r, mem') ∧
      RowAt mem' buffer (posixName c ++ ['\x00'])) ↔ c.depth ≤ 2 := by
  obtain ⟨mem', hbuild, hstr⟩ := build_spec buffer mem hsize hmax
  constructor
  · rintro ⟨r, mem₁, hnames, hname⟩
    rw [hbuild] at hnames
    obtain ⟨-, rfl⟩ := Prod.mk.inj (Option.some.inj hnames)
    by_contra hdepth
    have hle := hname.length_le hstr (nul_not_mem_posixName c)
    have hlt := length_written_lt (Nat.lt_of_not_le hdepth)
    omega
  · intro hdepth
    exact ⟨_, mem', hbuild, by rw [← written_eq hdepth]; exact hstr⟩

/-- **Exactness.** Only a disk on a drive writes its name and returns its length; a disk on that one writes its
name too, and those further up do not; and names tell disks apart. -/
theorem device_name_iff (hsize : (posixName c).length < size) (hmax : size < 2 ^ 64) :
    (Names c buffer size mem ↔ c.depth = 1) ∧
      ((∃ r mem', buildPosixDeviceName c buffer size mem = some (r, mem') ∧
        RowAt mem' buffer (posixName c ++ ['\x00'])) ↔ c.depth ≤ 2) ∧
      ∀ c', posixName c = posixName c' → c.driveID = c'.driveID ∧ c.locations = c'.locations := by
  obtain ⟨mem', hbuild, hstr⟩ := build_spec buffer mem hsize hmax
  refine ⟨?_, writes_name_iff hsize hmax, fun c' => posixName_injective⟩
  constructor
  · rintro ⟨mem₁, hnames, -⟩
    rw [hbuild] at hnames
    exact returned_eq_iff.mp (Prod.mk.inj (Option.some.inj hnames)).1
  · intro hdepth
    refine ⟨mem', ?_, ?_⟩
    · rw [hbuild, returned_eq_iff.mpr hdepth]
    · rw [← written_eq (by omega)]
      exact hstr

/-- The whole of the first drive, with the buffer of `initWithUnderlyingDisk`. -/
theorem device_name_iff_first : Names (.onDrive 0 0) 0 63 fun _ => 'x' :=
  (device_name_iff (by decide) (by decide)).1.mpr rfl

/-- The third partition of a first partition, of two drives: both are named `dks3`, and return 2. -/
theorem device_name_collision :
    ((buildPosixDeviceName (.onDisk 3 (.onDisk 1 (.onDrive 0 0))) 0 63 fun _ => 'x').map fun x =>
        (x.1, (List.range 5).map x.2)) = some (2, ['d', 'k', 's', '3', '\x00']) ∧
      ((buildPosixDeviceName (.onDisk 3 (.onDisk 1 (.onDrive 1 0))) 0 63 fun _ => 'x').map fun x =>
        (x.1, (List.range 5).map x.2)) = some (2, ['d', 'k', 's', '3', '\x00']) ∧
      ¬ Names (.onDisk 1 (.onDrive 0 0)) 0 63 fun _ => 'x' := by
  have hret : (buildPosixDeviceName (.onDisk 1 (.onDrive 0 0)) 0 63 fun _ => 'x').map Prod.fst = some 2 := by
    decide +kernel
  refine ⟨by decide +kernel, by decide +kernel, ?_⟩
  rintro ⟨mem', hbuild, -⟩
  rw [hbuild] at hret
  have hlength : (posixName (.onDisk 1 (.onDrive 0 0))).length = 2 := Option.some.inj hret
  exact absurd hlength (by decide)

end Scalux.DiskName
