import Scalux.Devicekit.DiskName
import Scalux.Kern.KmemGeneral
import Scalux.Libkern.NanoprintfNumber

/-! # What is printed with `nanoprintf.h`

`kmem_vasprintf` prints a text twice, first to count its characters, and `buildPosixDeviceName:withMaxSize:` prints the
names of disks behind each other.  Other modules have the texts that are printed there as they should be; here they are
what the formatter prints.

* **`vasprintf_eq`**: `kmem_vasprintf` stores the text and its terminator in a block of as many bytes.
* **`deviceName_eq`**: a chain of logical disks prints the names of `Scalux.DiskName`. -/

namespace Scalux.Npf

open DiskName

variable {fs : FormatSpec} {c : Converted} {args ap : List Arg} {cur t fmt : List Char} {depth strp : ℕ}
  {k k' : Kmem.Allocator}

/-! ## Strings -/

/-- A character is assigned to a byte. -/
def storeChar (mem : ℕ → ℕ) (a : ℕ) (c : Char) : ℕ → ℕ := storeByte mem a c.toNat

/-- The characters of a text, stored as bytes one after another: `storeBytes`. -/
theorem storeAll_storeChar (mem : ℕ → ℕ) (a : ℕ) (t : List Char) :
    storeAll storeChar mem a t = storeBytes mem a (t.map Char.toNat) := by
  induction t generalizing mem a with
  | nil => rfl
  | cons c t ih => exact ih (storeChar mem a c) (a + 1)

/-- `kmem_vasprintf`: what is returned, and `*strp`. -/
def kmemVasprintf (depth : ℕ) (fmt : List Char) (ap : List Arg) (k : Kmem.Allocator) :
    Option (ℤ × ℕ × Kmem.Allocator) := do
  let (size, _) ← npfVsnprintf storeChar k.mem 0 0 fmt ap
  let (strp, k) ← Kmem.kmemAlloc depth (size + 1) k
  if strp = 0 then return (-1, strp, k)
  else
    let (size, mem) ← npfVsnprintf storeChar k.mem strp (size + 1) fmt ap
    return (size, strp, { k with mem := mem })

/-- **`kmem_vasprintf`** of a text that is printed: a block for it and its end, or -1 when there is none. -/
theorem vasprintf_of_printed (h : printed fmt ap = some t) (hlt : t.length < 2 ^ 31) : kmemVasprintf depth fmt ap k =
    (Kmem.kmemAlloc depth (t.length + 1) k).map fun x =>
      if x.1 = 0 then ((-1 : ℤ), 0, x.2)
      else ((t.length : ℤ), x.1, { x.2 with mem := storeBytes x.2.mem x.1 (t.map Char.toNat ++ [0]) }) := by
  unfold kmemVasprintf
  -- the first pass counts the characters and stores nothing
  rw [npfVsnprintf_of_printed _ h hlt]
  simp only [Option.bind_eq_bind, Option.bind_some]
  cases Kmem.kmemAlloc depth (t.length + 1) k with
  | none => rfl
  | some x =>
      rw [Option.bind_some, Option.map_some]
      split
      · next hnull =>
          rw [hnull]
          rfl
      · next hnull =>
          have htake : (t ++ ['\x00']).take (t.length + 1) = t ++ ['\x00'] :=
            List.take_of_length_le (by rw [List.length_append]; rfl)
          rw [npfVsnprintf_of_printed _ h hlt, if_neg hnull, htake, storeAll_storeChar, List.map_append]
          rfl

/-- **Strings are made in full**: for every format and arguments, the block has the size of the text and its terminator,
and these are stored in it. -/
theorem vasprintf_eq (depth : ℕ) (fmt : List Char) (ap : List Arg) (k : Kmem.Allocator) :
    kmemVasprintf depth fmt ap k =
    (printed fmt ap).bind fun t => if t.length < 2 ^ 31 then
      (Kmem.kmemAlloc depth (t.length + 1) k).map fun x =>
        if x.1 = 0 then ((-1 : ℤ), 0, x.2)
        else ((t.length : ℤ), x.1, { x.2 with mem := storeBytes x.2.mem x.1 (t.map Char.toNat ++ [0]) })
      else none := by
  cases hprinted : printed fmt ap with
  | none =>
      unfold kmemVasprintf
      rw [npfVsnprintf_of_none _ hprinted]
      rfl
  | some t =>
      rw [Option.bind_some]
      split
      · next hlt => exact vasprintf_of_printed hprinted hlt
      · next hlong =>
          unfold kmemVasprintf
          rw [npfVsnprintf_of_long _ hprinted hlong]
          rfl

/-- The strings that are made of texts elsewhere are those of formats. -/
theorem vasprintf_text (h : printed fmt ap = some t) (hlt : t.length < 2 ^ 31) (hstrp : strp ≠ 0) :
    kmemVasprintf depth fmt ap k = some ((t.length : ℤ), strp, k') ↔
      Kmem.kmemVasprintf depth (t.map Char.toNat) k = some (strp, k') := by
  rw [vasprintf_of_printed h hlt]
  unfold Kmem.kmemVasprintf
  rw [List.length_map]
  cases Kmem.kmemAlloc depth (t.length + 1) k with
  | none => exact iff_of_false nofun nofun
  | some x =>
      rw [Option.map_some]
      change _ ↔ some _ = _
      simp only [Option.some.injEq]
      split
      · next hnull =>
          refine iff_of_false (fun he => hstrp (Prod.mk.inj (Prod.mk.inj he).2).1.symm) fun he => ?_
          exact hstrp ((Prod.mk.inj he).1.symm.trans hnull)
      · exact ⟨fun he => (Prod.mk.inj he).2, fun he => Prod.ext rfl he⟩

/-! ## Numbers without a width -/

/-- A directive with neither flags nor a width nor a precision. -/
def plainSpec (m : LengthModifier) (conv : Conversion) : FormatSpec :=
  { FormatSpec.initial with lengthModifier := m, convSpec := conv }

/-- A conversion without a prefix and a width: the sign, and then the digits from the end of the buffer. -/
theorem text_plain {m : LengthModifier} {conv : Conversion} (hfs : c.fs = plainSpec m conv) (hconv : conv ≠ .string)
    (hbin : conv ≠ .binary) (hlen : c.cbufLen = c.cbuf.length) (hle : c.cbufLen ≤ 32) (hneed : c.need0x = none) :
    c.text = some (c.signC.toList ++ c.cbuf.reverse) := by
  have hpad : c.padC = none := by
    unfold Converted.padC
    rw [hfs]
    rfl
  have hzeroX : c.zeroX = [] := by
    unfold Converted.zeroX
    rw [hneed]
  -- neither width nor precision: no padding on either side
  have hprec : c.precPad = some 0 := by
    have hzero : c.fs.prec = 0 := by rw [hfs]; rfl
    have hstring : c.fs.convSpec ≠ .string := by rw [hfs]; exact hconv
    unfold Converted.precPad int
    rw [if_pos hstring, hzero, if_pos (by omega), Option.map_some, max_eq_left (by omega)]
  have hfield : c.fieldPad 0 = some 0 := by
    have hwidth : c.fs.fieldWidth = 0 := by rw [hfs]; rfl
    unfold Converted.fieldPad int
    rw [hwidth, hneed, if_pos (by split <;> simp <;> omega), Option.map_some, max_eq_left (by split <;> simp)]
  have hleading : c.leading 0 = [] := by
    unfold Converted.leading
    rw [hpad, hzeroX]
    cases c.fs.leftJustified <;> rfl
  have htrailing : c.trailing 0 = [] := by
    unfold Converted.trailing
    rw [hpad]
    cases c.fs.leftJustified <;> rfl
  have hsign : c.signFirst = false := by
    unfold Converted.signFirst
    rw [hpad]
    exact Bool.and_false _
  have hpayload : c.payload 0 = c.signC.toList ++ c.cbuf.reverse := by
    have hstring : c.fs.convSpec ≠ .string := by rw [hfs]; exact hconv
    have hbinary : c.fs.convSpec ≠ .binary := by rw [hfs]; exact hbin
    unfold Converted.payload
    rw [if_neg hstring, if_neg hbinary, hsign, hlen, List.take_length]
    exact congrArg (· ++ c.cbuf.reverse) (List.append_nil _)
  rw [Converted.text, hprec, Option.bind_some, hfield, Option.map_some, Int.toNat_zero, hleading, hpayload, htrailing,
    List.append_nil, List.nil_append]

/-- A directive without flags, width and precision: the sign and the digits. -/
theorem directiveText_plain {m : LengthModifier} {conv : Conversion} {args' : List Arg}
    (hconvert : convert (plainSpec m conv) args = some (c, args')) (hfs : c.fs = plainSpec m conv)
    (hconv : conv ≠ .string) (hbin : conv ≠ .binary) (hlen : c.cbufLen = c.cbuf.length) (hle : c.cbuf.length ≤ 32)
    (hneed : c.need0x = none) :
    directiveText (plainSpec m conv) args = some (c.signC.toList ++ c.cbuf.reverse, args') := by
  have hstar : starArgs (plainSpec m conv) args = some (plainSpec m conv, args) := rfl
  rw [directiveText_eq hstar, hconvert, Option.bind_some, text_plain hfs hconv hbin hlen (hlen ▸ hle) hneed]
  rfl

/-- `%d` of an `int` is its decimal text. -/
theorem directiveText_d {v : ℤ} (hlo : -2 ^ 31 ≤ v) (hhi : v < 2 ^ 31) :
    directiveText (plainSpec .none .signedInt) (.word (BitVec.ofInt 64 v) :: args) = some (decimal v, args) := by
  -- the argument is a word of 64 bits, of which an `int` is read
  have hval : ((BitVec.ofInt 64 v).setWidth 32).toInt = v := by
    rw [BitVec.toInt_setWidth, BitVec.toNat_ofInt, Int.bmod_def]
    simp only [Nat.reducePow, Nat.cast_ofNat]
    omega
  have hskip : ¬ (plainSpec .none .signedInt).skips v := by
    unfold FormatSpec.skips plainSpec FormatSpec.initial
    simp
  have hrev : (npfItoaRev v).reverse = Nat.toDigits 10 v.natAbs := npfItoaRev_reverse (by omega)
  obtain ⟨c, hc⟩ : ∃ c, c = convertSigned (plainSpec .none .signedInt) v := ⟨_, rfl⟩
  have hcbuf : c.cbuf = npfItoaRev v := by
    rw [hc]
    exact if_neg hskip
  have hlen : c.cbuf.length ≤ 32 := by
    have hnumeral : (numeral false 10 v.natAbs).length ≤ 22 := length_numeral_le_22 false (by decide) (by omega)
    rw [hcbuf, ← List.length_reverse, hrev]
    exact Nat.le_trans hnumeral (by decide)
  have hbuflen : c.cbufLen = c.cbuf.length := by
    rw [hc]
    rfl
  have hfs : c.fs = plainSpec .none .signedInt := by
    rw [hc]
    rfl
  have hneed : c.need0x = none := by
    rw [hc]
    rfl
  have hsign : c.signC.toList ++ Nat.toDigits 10 v.natAbs = decimal v := by
    have hsignC : c.signC = if v < 0 then some '-' else none := by
      rw [hc]
      rfl
    rw [hsignC]
    unfold decimal
    split <;> rfl
  have hconvert : convert (plainSpec .none .signedInt) (.word (BitVec.ofInt 64 v) :: args) = some (c, args) := by
    change ((convertSigned (plainSpec .none .signedInt) ((BitVec.ofInt 64 v).setWidth 32).toInt).fits).map _ = _
    rw [hval, ← hc, Converted.fits, if_pos hlen]
    rfl
  rw [directiveText_plain hconvert hfs (by decide) (by decide) hbuflen hlen hneed, hcbuf, hrev, hsign]

/-- `%lu` of an `unsigned long` is its decimal text. -/
theorem directiveText_lu {v : ℕ} (hv : v < 2 ^ 64) :
    directiveText (plainSpec .long .unsignedInt) (.word (BitVec.ofNat 64 v) :: args) =
      some (Nat.toDigits 10 v, args) := by
  have hval : ((BitVec.ofNat 64 v).setWidth 64).toNat = v := by
    rw [BitVec.toNat_setWidth, BitVec.toNat_ofNat]
    omega
  have hskip : ¬ (plainSpec .long .unsignedInt).skips v := by
    unfold FormatSpec.skips plainSpec FormatSpec.initial
    simp
  have hrev : (npfUtoaRev v 10 32).reverse = Nat.toDigits 10 v :=
    npfUtoaRev_reverse false (by decide) (by decide) hv
  obtain ⟨c, hc⟩ : ∃ c, c = writtenDigits (plainSpec .long .unsignedInt) v [] none := ⟨_, rfl⟩
  have hcbuf : c.cbuf = npfUtoaRev v 10 32 := by
    rw [hc]
    exact List.append_nil _
  have hlen : c.cbuf.length ≤ 32 := by
    have hnumeral : (numeral false 10 v).length ≤ 22 := length_numeral_le_22 false (by decide) hv
    rw [hcbuf, ← List.length_reverse, hrev]
    exact Nat.le_trans hnumeral (by decide)
  have hbuflen : c.cbufLen = c.cbuf.length := by
    rw [hc]
    rfl
  have hfs : c.fs = plainSpec .long .unsignedInt := by
    rw [hc]
    rfl
  have hsign : c.signC = none := by
    rw [hc]
    rfl
  have hneed : c.need0x = none := by
    rw [hc]
    rfl
  have hwritten : convertUnsigned (plainSpec .long .unsignedInt) v = c := by
    rw [hc]
    exact convertUnsigned_eq hskip
  have hconvert : convert (plainSpec .long .unsignedInt) (.word (BitVec.ofNat 64 v) :: args) = some (c, args) := by
    change ((convertUnsigned (plainSpec .long .unsignedInt) ((BitVec.ofNat 64 v).setWidth 64).toNat).fits).map _ = _
    rw [hval, hwritten, Converted.fits, if_pos hlen]
    rfl
  rw [directiveText_plain hconvert hfs (by decide) (by decide) hbuflen hlen hneed, hcbuf, hrev, hsign]
  rfl

/-! ## Names of disks -/

/-- The format `dk%d` prints the name of a drive. -/
theorem printed_dk {v : ℤ} (hlo : -2 ^ 31 ≤ v) (hhi : v < 2 ^ 31) :
    printed "dk%d".toList [.word (BitVec.ofInt 64 v)] = some (diskText v) := by
  have hdirective : formatText 2 ['%', 'd'] [.word (BitVec.ofInt 64 v)] = some (decimal v) := by
    change ((directiveText (plainSpec .none .signedInt) [.word (BitVec.ofInt 64 v)]).bind _) = _
    rw [directiveText_d hlo hhi, Option.bind_some, formatText, Option.map_some, List.append_nil]
  change ((formatText 2 ['%', 'd'] _).map ('k' :: ·)).map ('d' :: ·) = _
  rw [hdirective]
  rfl

/-- The format `s%lu` prints the suffix of a partition. -/
theorem printed_s {v : ℕ} (hv : v < 2 ^ 64) :
    printed "s%lu".toList [.word (BitVec.ofNat 64 v)] = some (suffix v) := by
  have hdirective : formatText 3 ['%', 'l', 'u'] [.word (BitVec.ofNat 64 v)] = some (Nat.toDigits 10 v) := by
    change ((directiveText (plainSpec .long .unsignedInt) [.word (BitVec.ofNat 64 v)]).bind _) = _
    rw [directiveText_lu hv, Option.bind_some, formatText, Option.map_some, List.append_nil]
  change (formatText 3 ['%', 'l', 'u'] _).map ('s' :: ·) = _
  rw [hdirective]
  rfl

/-- A character is assigned. -/
def assignChar (mem : ℕ → Char) (a : ℕ) (c : Char) : ℕ → Char := Function.update mem a c

/-- The characters of a text, assigned one after another: `assignRow`. -/
theorem storeAll_assignChar (mem : ℕ → Char) (a : ℕ) (t : List Char) :
    storeAll assignChar mem a t = assignRow mem a t := by
  induction t generalizing mem a with
  | nil => exact (assignRow_nil mem a).symm
  | cons c t ih =>
      rw [storeAll, ih]
      funext b
      -- before, at or behind the first character
      unfold assignRow assignChar
      rcases Nat.lt_trichotomy b a with hlt | rfl | hgt
      · rw [if_neg (by omega), if_neg (by omega), Function.update_of_ne (by omega)]
      · rw [if_neg (by omega), if_pos (Nat.le_refl b), Nat.sub_self, Function.update_self]
        rfl
      · obtain ⟨k, rfl⟩ := Nat.exists_eq_add_of_lt hgt
        rw [if_pos (by omega), if_pos (by omega), Function.update_of_ne (by omega),
          show a + k + 1 - a = k + 1 by omega, show a + k + 1 - (a + 1) = k by omega, List.getElem?_cons_succ]

/-- `buildPosixDeviceName:withMaxSize:`. -/
def deviceName : LogicalDisk → ℕ → ℕ → (ℕ → Char) → Option (ℕ × (ℕ → Char))
  | .onDrive driveID _, buffer, size, mem =>
      npfVsnprintf assignChar mem buffer size "dk%d".toList [.word (BitVec.ofInt 64 driveID)]
  | .onDisk location underlying, buffer, size, mem =>
      (deviceName underlying buffer size mem).bind fun x =>
        let r := x.1
        let size := sub64 size r
        if 0 < size then
          npfVsnprintf assignChar x.2 (buffer + r) size "s%lu".toList [.word (BitVec.ofNat 64 location)]
        else none

/-- The numbers of a chain have their types. -/
def Typed : LogicalDisk → Prop
  | .onDrive driveID _ => -2 ^ 31 ≤ driveID ∧ driveID < 2 ^ 31
  | .onDisk location underlying => location < 2 ^ 64 ∧ Typed underlying

/-- A number of 64 bits has at most 22 digits. -/
theorem length_toDigits_le {v : ℕ} (hv : v < 2 ^ 64) : (Nat.toDigits 10 v).length ≤ 22 :=
  length_numeral_le_22 false (by decide) hv

/-- **Names are printed as they should be**, for chains of any depth, in a buffer of any size. -/
theorem deviceName_eq {c : LogicalDisk} (h : Typed c) {buffer : ℕ} (hbuffer : buffer ≠ 0) (size : ℕ)
    (mem : ℕ → Char) : deviceName c buffer size mem = buildPosixDeviceName c buffer size mem := by
  induction c with
  | onDrive driveID location =>
      have hlt : (diskText driveID).length < 2 ^ 31 := by
        have hle := length_toDigits_le (v := driveID.natAbs) (by have := h.1; have := h.2; omega)
        unfold diskText decimal
        split <;> simp only [List.length_cons] <;> omega
      rw [deviceName, npfVsnprintf_of_printed _ (printed_dk h.1 h.2) hlt, if_neg hbuffer, storeAll_assignChar]
      rfl
  | onDisk location underlying ih =>
      have hlt : (suffix location).length < 2 ^ 31 := by
        have hle := length_toDigits_le h.1
        unfold suffix
        rw [List.length_cons]
        omega
      rw [deviceName, buildPosixDeviceName, ih h.2]
      -- the suffix goes to where the underlying disk says that its name ends
      refine congrArg (Option.bind _) (funext fun x => ?_)
      have hne : buffer + x.1 ≠ 0 := by omega
      dsimp only
      rw [npfVsnprintf_of_printed _ (printed_s h.1) hlt, if_neg hne, storeAll_assignChar]
      rfl

/-- A partition of a partition. -/
theorem deviceName_eq_second : deviceName (.onDisk 1 (.onDrive 3 1)) 0x1000 63 (fun _ => 'x') =
    buildPosixDeviceName (.onDisk 1 (.onDrive 3 1)) 0x1000 63 fun _ => 'x' := by
  have htyped : Typed (.onDisk 1 (.onDrive 3 1)) := by
    unfold Typed Typed
    decide
  exact deviceName_eq htyped (by decide) 63 _

end Scalux.Npf
