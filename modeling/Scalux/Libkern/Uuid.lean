import Mathlib.Algebra.Order.Ring.Int
import Mathlib.Algebra.Order.Ring.Nat
import Mathlib.Data.List.Basic
import Scalux.Libkern.NanoprintfNumber

/-! # UUIDs

`libkern/uuid.c` keeps a UUID as 16 bytes and unpacks it to a `struct uuid` to look at it; the numbers in it have their
most significant byte first.

* A `uuid_t` maps an index to a byte; only those below 16 are looked at.

* **`uuidPack_uuidUnpack`**, **`uuidUnpack_uuidPack`**: the two forms are the same.
* **`unparse_text`**: `uuid_unparse` prints the bytes in their order, two digits each, in groups of 4, 2, 2, 2 and 6,
  and no terminator.
* **`compare_text`**: `uuid_compare` orders UUIDs as their texts are. -/

namespace Scalux.Libuuid

open Npf

/-- `uuid_t`. -/
abbrev UuidT := ℕ → UInt8

/-- `struct uuid`. -/
structure Uuid where
  timeLow : ℕ
  timeMid : ℕ
  timeHiAndVersion : ℕ
  clockSeq : ℕ
  node : ℕ → UInt8

/-- `tmp = (tmp << 8) | *ptr++`, for `n` bytes from `i` on. -/
def readBytes (uu : UuidT) (i : ℕ) : ℕ → ℕ
  | 0 => 0
  | n + 1 => readBytes uu i n <<< 8 ||| (uu (i + n)).toNat

/-- `uuid_unpack`. -/
def uuidUnpack (uu : UuidT) : Uuid where
  timeLow := readBytes uu 0 4
  timeMid := readBytes uu 4 2
  timeHiAndVersion := readBytes uu 6 2
  clockSeq := readBytes uu 8 2
  node := fun k => uu (10 + k)

/-- Byte `k` of the `n` bytes that a number is written to, each time with `out[...] = (unsigned char) tmp; tmp >>= 8`,
the last one first. -/
def byteOf (v n k : ℕ) : UInt8 := UInt8.ofNat (v >>> (8 * (n - 1 - k)))

/-- `uuid_pack`, over what is in `out`. -/
def uuidPack (uu : Uuid) (out : UuidT) : UuidT := fun i =>
  if i < 4 then byteOf uu.timeLow 4 i
  else if i < 6 then byteOf uu.timeMid 2 (i - 4)
  else if i < 8 then byteOf uu.timeHiAndVersion 2 (i - 6)
  else if i < 10 then byteOf uu.clockSeq 2 (i - 8)
  else if i < 16 then uu.node (i - 10)
  else out i

/-- `memcmp`, from an index on. -/
def memcmp (s t : ℕ → UInt8) (i : ℕ) : ℕ → ℤ
  | 0 => 0
  | n + 1 => if s i ≠ t i then if (s i).toNat < (t i).toNat then -1 else 1 else memcmp s t (i + 1) n

/-- `UUCMP`. -/
def uucmp (u v : ℕ) (next : ℤ) : ℤ := if u ≠ v then if u < v then -1 else 1 else next

/-- `uuid_compare`. -/
def uuidCompare (uu1 uu2 : UuidT) : ℤ :=
  let uuid1 := uuidUnpack uu1
  let uuid2 := uuidUnpack uu2
  uucmp uuid1.timeLow uuid2.timeLow <|
  uucmp uuid1.timeMid uuid2.timeMid <|
  uucmp uuid1.timeHiAndVersion uuid2.timeHiAndVersion <|
  uucmp uuid1.clockSeq uuid2.clockSeq <|
  memcmp uuid1.node uuid2.node 0 6

/-- `UUID_STRING_LENGTH`. -/
def uuidStringLength : ℕ := 36

/-- `fmt_lower`. -/
def fmtLower : List Char := "%08x-%04x-%04x-%02x%02x-%02x%02x%02x%02x%02x%02x".toList

/-- `fmt_upper`. -/
def fmtUpper : List Char := "%08X-%04X-%04X-%02X%02X-%02X%02X%02X%02X%02X%02X".toList

/-- What `uuid_unparse_x` prints. -/
def Uuid.args (uuid : Uuid) : List ℕ :=
  [uuid.timeLow, uuid.timeMid, uuid.timeHiAndVersion, uuid.clockSeq >>> 8, uuid.clockSeq &&& 0xFF,
    (uuid.node 0).toNat, (uuid.node 1).toNat, (uuid.node 2).toNat,
    (uuid.node 3).toNat, (uuid.node 4).toNat, (uuid.node 5).toNat]

section Unparse

variable {M : Type*} (store : M → ℕ → Char → M)

/-- `uuid_unparse_x`, in a memory with a way to store a character. -/
def uuidUnparseX (mem : M) (uu : UuidT) (out : ℕ) (fmt : List Char) : Option M :=
  (npfVsnprintf store mem out uuidStringLength fmt
    ((uuidUnpack uu).args.map fun v => .word (BitVec.ofNat 64 v))).map Prod.snd

/-- `uuid_unparse_lower`. -/
def uuidUnparseLower (mem : M) (uu : UuidT) (out : ℕ) : Option M := uuidUnparseX store mem uu out fmtLower

/-- `uuid_unparse_upper`. -/
def uuidUnparseUpper (mem : M) (uu : UuidT) (out : ℕ) : Option M := uuidUnparseX store mem uu out fmtUpper

/-- `uuid_unparse`. -/
def uuidUnparse (mem : M) (uu : UuidT) (out : ℕ) : Option M := uuidUnparseX store mem uu out fmtLower

end Unparse

/-! ## Texts -/

/-- The digits of a byte. -/
def hexByte (upper : Bool) (b : UInt8) : List Char := [digitOf upper (b.toNat / 16), digitOf upper (b.toNat % 16)]

/-- The digits of `n` bytes from `i` on. -/
def hexBytes (upper : Bool) (uu : UuidT) (i : ℕ) : ℕ → List Char
  | 0 => []
  | n + 1 => hexBytes upper uu i n ++ hexByte upper (uu (i + n))

/-- **The text of a UUID.** -/
def uuidText (upper : Bool) (uu : UuidT) : List Char :=
  hexBytes upper uu 0 4 ++ '-' :: (hexBytes upper uu 4 2 ++ '-' :: (hexBytes upper uu 6 2 ++ '-' ::
    (hexBytes upper uu 8 2 ++ '-' :: hexBytes upper uu 10 6)))

variable {upper : Bool} {uu uu1 uu2 : UuidT} {args : List Arg} {cur : List Char} {i n v : ℕ}

/-! ## Numbers -/

/-- One byte more at the end: `readBytes uu i n * 256 + uu (i + n)`. -/
theorem readBytes_succ (uu : UuidT) (i n : ℕ) :
    readBytes uu i (n + 1) = readBytes uu i n * 256 + (uu (i + n)).toNat := by
  rw [readBytes, ← Nat.shiftLeft_add_eq_or_of_lt (UInt8.toNat_lt _), Nat.shiftLeft_eq]

/-- A number of `n` bytes has `2 * n` digits. -/
theorem readBytes_lt (uu : UuidT) (i n : ℕ) : readBytes uu i n < 16 ^ (2 * n) := by
  induction n with
  | zero => exact Nat.one_pos
  | succ n ih =>
      have hbyte : (uu (i + n)).toNat < 256 := UInt8.toNat_lt _
      have hpow : 16 ^ (2 * (n + 1)) = 16 ^ (2 * n) * 256 := by rw [Nat.mul_succ, Nat.pow_add]
      rw [readBytes_succ, hpow]
      omega

/-- A byte of a number but the last is one of the number without the last. -/
theorem byteOf_of_lt (v : ℕ) {k : ℕ} (hk : k < n) : byteOf v (n + 1) k = byteOf (v / 256) n k := by
  have hsub : n + 1 - 1 - k = n - 1 - k + 1 := by omega
  unfold byteOf
  rw [hsub, Nat.mul_succ, Nat.add_comm, Nat.shiftRight_add, Nat.shiftRight_eq_div_pow v]

/-- The last byte of a number is its remainder. -/
theorem byteOf_self (v n : ℕ) : byteOf v (n + 1) n = UInt8.ofNat v := by
  unfold byteOf
  rw [Nat.add_sub_cancel, Nat.sub_self]
  rfl

/-- The bytes of a number are written where they have been read. -/
theorem byteOf_readBytes (uu : UuidT) (i : ℕ) {n k : ℕ} (hk : k < n) : byteOf (readBytes uu i n) n k = uu (i + k) := by
  induction n with
  | zero => exact absurd hk (Nat.not_lt_zero k)
  | succ n ih =>
      have hb : (uu (i + n)).toNat < 256 := UInt8.toNat_lt _
      rcases Nat.lt_succ_iff_lt_or_eq.mp hk with hlt | rfl
      · have hdiv : readBytes uu i (n + 1) / 256 = readBytes uu i n := by
          rw [readBytes_succ]
          omega
        rw [byteOf_of_lt _ hlt, hdiv, ih hlt]
      · rw [byteOf_self, readBytes_succ]
        refine UInt8.toNat_inj.mp ?_
        rw [UInt8.toNat_ofNat']
        omega

/-- A number is read where its bytes have been written. -/
theorem readBytes_byteOf (h : ∀ k < n, uu (i + k) = byteOf v n k) (hv : v < 256 ^ n) : readBytes uu i n = v := by
  induction n generalizing v with
  | zero => exact (Nat.lt_one_iff.mp hv).symm
  | succ n ih =>
      have hdiv : v / 256 < 256 ^ n := Nat.div_lt_of_lt_mul (by rw [Nat.mul_comm, ← Nat.pow_succ]; exact hv)
      have hrest : readBytes uu i n = v / 256 :=
        ih (fun k hk => (h k (Nat.lt_succ_of_lt hk)).trans (byteOf_of_lt v hk)) hdiv
      have hlast : (uu (i + n)).toNat = v % 256 := by
        rw [h n (Nat.lt_succ_self n), byteOf_self, UInt8.toNat_ofNat']
      rw [readBytes_succ, hrest, hlast]
      omega

/-- The fields have their types. -/
structure Uuid.Fits (uuid : Uuid) : Prop where
  timeLow : uuid.timeLow < 2 ^ 32
  timeMid : uuid.timeMid < 2 ^ 16
  timeHiAndVersion : uuid.timeHiAndVersion < 2 ^ 16
  clockSeq : uuid.clockSeq < 2 ^ 16

/-- **A UUID is packed where it has been unpacked**: its bytes come back, and no others are written. -/
theorem uuidPack_uuidUnpack (uu out : UuidT) (i : ℕ) :
    uuidPack (uuidUnpack uu) out i = if i < 16 then uu i else out i := by
  have hpart : ∀ a n, a ≤ i → i < a + n → byteOf (readBytes uu a n) n (i - a) = uu i := by
    intro a n hle hlt
    rw [byteOf_readBytes uu a (by omega), Nat.add_sub_cancel' hle]
  unfold uuidPack
  -- the index is in one of the numbers, in the node or behind it
  by_cases h4 : i < 4
  · rw [if_pos h4, if_pos (by omega)]
    exact hpart 0 4 (Nat.zero_le i) (by omega)
  rw [if_neg h4]
  by_cases h6 : i < 6
  · rw [if_pos h6, if_pos (by omega)]
    exact hpart 4 2 (by omega) (by omega)
  rw [if_neg h6]
  by_cases h8 : i < 8
  · rw [if_pos h8, if_pos (by omega)]
    exact hpart 6 2 (by omega) (by omega)
  rw [if_neg h8]
  by_cases h10 : i < 10
  · rw [if_pos h10, if_pos (by omega)]
    exact hpart 8 2 (by omega) (by omega)
  rw [if_neg h10]
  change (if i < 16 then uu (10 + (i - 10)) else out i) = _
  rw [Nat.add_sub_cancel' (Nat.not_lt.mp h10)]

/-- **A UUID is unpacked where it has been packed**: its fields come back. -/
theorem uuidUnpack_uuidPack {uuid : Uuid} (h : uuid.Fits) (out : UuidT) : uuidUnpack (uuidPack uuid out) =
    { uuid with node := fun k => if k < 6 then uuid.node k else out (10 + k) } := by
  -- each field is read from the bytes it was packed into
  have hlow : readBytes (uuidPack uuid out) 0 4 = uuid.timeLow := by
    refine readBytes_byteOf (fun k hk => ?_) h.timeLow
    unfold uuidPack
    rw [Nat.zero_add, if_pos hk]
  have hmid : readBytes (uuidPack uuid out) 4 2 = uuid.timeMid := by
    refine readBytes_byteOf (fun k hk => ?_) h.timeMid
    unfold uuidPack
    rw [if_neg (by omega), if_pos (by omega), Nat.add_sub_cancel_left]
  have hhi : readBytes (uuidPack uuid out) 6 2 = uuid.timeHiAndVersion := by
    refine readBytes_byteOf (fun k hk => ?_) h.timeHiAndVersion
    unfold uuidPack
    rw [if_neg (by omega), if_neg (by omega), if_pos (by omega), Nat.add_sub_cancel_left]
  have hseq : readBytes (uuidPack uuid out) 8 2 = uuid.clockSeq := by
    refine readBytes_byteOf (fun k hk => ?_) h.clockSeq
    unfold uuidPack
    rw [if_neg (by omega), if_neg (by omega), if_neg (by omega), if_pos (by omega), Nat.add_sub_cancel_left]
  have hnode : (uuidUnpack (uuidPack uuid out)).node = fun k => if k < 6 then uuid.node k else out (10 + k) := by
    funext k
    have hlt : 10 + k < 16 ↔ k < 6 := by omega
    change uuidPack uuid out (10 + k) = _
    unfold uuidPack
    rw [if_neg (by omega), if_neg (by omega), if_neg (by omega), if_neg (by omega), Nat.add_sub_cancel_left]
    simp only [hlt]
  unfold uuidUnpack at hnode ⊢
  dsimp only at hnode ⊢
  rw [hlow, hmid, hhi, hseq, hnode]

/-- A number in base 16 with at least `n` digits. -/
def hexField (upper : Bool) (n v : ℕ) : List Char :=
  List.replicate (n - (numeral upper 16 v).length) '0' ++ numeral upper 16 v

/-- A digit more. -/
theorem hexField_succ {d : ℕ} (hn : 0 < n) (hd : d < 16) :
    hexField upper (n + 1) (v * 16 + d) = hexField upper n v ++ [digitOf upper d] := by
  unfold hexField
  rcases Nat.eq_zero_or_pos v with rfl | hv
  · -- the digit of 0 is one of the zeros then
    have hzeros : List.replicate (n - 1) '0' ++ ['0'] = List.replicate n '0' := by
      rw [← List.replicate_succ', Nat.sub_add_cancel hn]
    rw [Nat.zero_mul, Nat.zero_add, numeral_of_lt upper hd, numeral_zero, List.length_singleton, List.length_singleton,
      Nat.add_sub_cancel, hzeros]
  · rw [numeral_of_le upper (by decide) (by omega), show (v * 16 + d) / 16 = v by omega,
      show (v * 16 + d) % 16 = d by omega, List.length_append, List.length_singleton, Nat.add_sub_add_right,
      List.append_assoc]

/-- The field of a byte is its two digits. -/
theorem hexField_byte (b : UInt8) : hexField upper 2 b.toNat = hexByte upper b := by
  have hb : b.toNat < 256 := UInt8.toNat_lt b
  have hone : hexField upper 1 (b.toNat / 16) = [digitOf upper (b.toNat / 16)] := by
    unfold hexField
    rw [numeral_of_lt upper (by omega)]
    rfl
  have hsucc : hexField upper 2 (b.toNat / 16 * 16 + b.toNat % 16) =
      hexField upper 1 (b.toNat / 16) ++ [digitOf upper (b.toNat % 16)] :=
    hexField_succ Nat.one_pos (Nat.mod_lt _ (by decide))
  rw [Nat.div_add_mod', hone] at hsucc
  exact hsucc

/-- **The digits of a number are those of its bytes.** -/
theorem hexField_readBytes (uu : UuidT) (i n : ℕ) :
    hexField upper (2 * (n + 1)) (readBytes uu i (n + 1)) = hexBytes upper uu i (n + 1) := by
  induction n with
  | zero => exact (congrArg (hexField upper 2) (Nat.zero_or _)).trans (hexField_byte _)
  | succ n ih =>
      have hb : (uu (i + (n + 1))).toNat < 256 := UInt8.toNat_lt _
      -- a byte has two digits
      have hsplit : readBytes uu i (n + 2) = (readBytes uu i (n + 1) * 16 + (uu (i + (n + 1))).toNat / 16) * 16 +
          (uu (i + (n + 1))).toNat % 16 := by
        rw [readBytes_succ]
        omega
      rw [hsplit, Nat.mul_succ, hexField_succ (by omega) (by omega), hexField_succ (by omega) (by omega), ih,
        List.append_assoc]
      rfl

/-! ## Printing -/

/-- The directive for at least `n` digits. -/
def hexSpec (upper : Bool) (n : ℕ) : FormatSpec :=
  { FormatSpec.initial with
    leadingZeroPad := true
    fieldWidthOpt := .literal
    fieldWidth := n
    convSpec := .hexInt
    caseAdjust := if upper then 0 else 32 }

/-- The digits that `npf_utoa_rev` writes are those of the numeral, from the end. -/
theorem npfUtoaRev_hex (hv : v < 2 ^ 32) :
    (npfUtoaRev v 16 (if upper then 0 else 32)).reverse = numeral upper 16 v :=
  npfUtoaRev_reverse upper (by decide) (by decide) (by omega)

/-- The digits fit into the buffer of the conversion. -/
theorem length_npfUtoaRev_hex (upper : Bool) (hv : v < 2 ^ 32) :
    (npfUtoaRev v 16 (if upper then 0 else 32)).length = (numeral upper 16 v).length ∧
      (numeral upper 16 v).length ≤ 22 := by
  have hle : (numeral upper 16 v).length ≤ 22 := length_numeral_le_22 upper (by decide) (by omega)
  rw [← npfUtoaRev_hex hv, List.length_reverse]
  rw [← npfUtoaRev_hex hv, List.length_reverse] at hle
  exact ⟨rfl, hle⟩

/-- The conversion of a field is its digits, without a prefix. -/
theorem convert_hexSpec (hv : v < 2 ^ 32) : convert (hexSpec upper n) (.word (BitVec.ofNat 64 v) :: args) =
    some (writtenDigits (hexSpec upper n) v [] none, args) := by
  have hval : ((BitVec.ofNat 64 v).setWidth 32).toNat = v := by
    simp only [BitVec.toNat_setWidth, BitVec.toNat_ofNat]
    omega
  have hskip : ¬ (hexSpec upper n).skips v := by
    unfold FormatSpec.skips hexSpec FormatSpec.initial
    simp
  have halt : ¬ (v ≠ 0 ∧ (hexSpec upper n).altForm = true) := fun h => Bool.false_ne_true h.2
  have hwritten : convertUnsigned (hexSpec upper n) v = writtenDigits (hexSpec upper n) v [] none := by
    rw [convertUnsigned_eq hskip]
    simp only [halt, if_false]
    rfl
  have hfits : (writtenDigits (hexSpec upper n) v [] none).cbuf.length ≤ 32 := by
    have hlen := length_npfUtoaRev_hex upper hv
    change (npfUtoaRev v 16 (if upper then 0 else 32) ++ []).length ≤ 32
    rw [List.append_nil]
    omega
  change ((convertUnsigned (hexSpec upper n) ((BitVec.ofNat 64 v).setWidth 32).toNat).fits).map _ = _
  rw [hval, hwritten, Converted.fits, if_pos hfits]
  rfl

/-- The text of a field is the digits with zeros before them. -/
theorem text_hexSpec (hn : n < 2 ^ 31) (hv : v < 2 ^ 32) :
    (writtenDigits (hexSpec upper n) v [] none).text = some (hexField upper n v) := by
  obtain ⟨c, hc⟩ : ∃ c, c = writtenDigits (hexSpec upper n) v [] none := ⟨_, rfl⟩
  have hlen := length_npfUtoaRev_hex upper hv
  have hlength : c.cbufLen = (numeral upper 16 v).length := by
    rw [hc, ← hlen.1]
    exact congrArg List.length (List.append_nil _)
  have hdigits : (c.cbuf.take c.cbufLen).reverse = numeral upper 16 v := by
    rw [hc]
    change (List.take (npfUtoaRev v 16 (if upper then 0 else 32) ++ []).length
      (npfUtoaRev v 16 (if upper then 0 else 32) ++ [])).reverse = _
    rw [List.append_nil, List.take_length, npfUtoaRev_hex hv]
  have hprec : c.precPad = some 0 := by
    have hzero : c.fs.prec = 0 := by rw [hc]; rfl
    have hstring : c.fs.convSpec ≠ .string := by rw [hc]; nofun
    unfold Converted.precPad int
    rw [if_pos hstring, hzero, if_pos (by omega), Option.map_some, max_eq_left (by omega)]
  have hfield : c.fieldPad 0 = some (max 0 (n - c.cbufLen : ℤ)) := by
    have hwidth : c.fs.fieldWidth = n := by rw [hc]; rfl
    have hsign : c.signC = none := by rw [hc]; rfl
    have hneed : c.need0x = none := by rw [hc]; rfl
    have hsum : c.fs.fieldWidth - c.cbufLen - (if c.signC.isSome then 1 else 0) - (if c.need0x.isSome then 2 else 0) -
        0 = (n - c.cbufLen : ℤ) := by
      rw [hwidth, hsign, hneed, Option.isSome_none, if_neg Bool.false_ne_true, if_neg Bool.false_ne_true]
      omega
    unfold Converted.fieldPad
    rw [hsum, int, if_pos (by omega), Option.map_some]
  -- there is neither a sign nor a prefix, and nothing is left-justified
  have hleading : ∀ f, c.leading f = List.replicate f '0' := by
    rw [hc]
    exact fun f => rfl
  have hpayload : c.payload 0 = (c.cbuf.take c.cbufLen).reverse := by
    rw [hc]
    rfl
  have htrailing : ∀ f, c.trailing f = [] := by
    rw [hc]
    exact fun f => rfl
  rw [← hc, Converted.text, hprec, Option.bind_some, hfield, Option.map_some, hleading, htrailing, Int.toNat_zero,
    hpayload, hdigits, List.append_nil, hexField, hlength]
  congr 3
  omega

/-- A directive for a field prints the field. -/
theorem directiveText_hexSpec (hn : n ≤ 8) (hv : v < 16 ^ n) :
    directiveText (hexSpec upper n) (.word (BitVec.ofNat 64 v) :: args) = some (hexField upper n v, args) := by
  have hlt : v < 2 ^ 32 := Nat.lt_of_lt_of_le hv (Nat.pow_le_pow_right (by decide) hn)
  have hstar : starArgs (hexSpec upper n) (.word (BitVec.ofNat 64 v) :: args) =
      some (hexSpec upper n, .word (BitVec.ofNat 64 v) :: args) := rfl
  rw [directiveText_eq hstar, convert_hexSpec hlt, Option.bind_some, text_hexSpec (by omega) hlt]
  rfl

/-- A directive of `fmt_lower` or `fmt_upper`. -/
def hexDirective (upper : Bool) (n : ℕ) : List Char := ['%', '0', n.digitChar, if upper then 'X' else 'x']

/-- The directive for a field, with the rest of the format behind it. -/
theorem formatText_hex {m : ℕ} (hn : n = 2 ∨ n = 4 ∨ n = 8) (hv : v < 16 ^ n) :
    formatText (m + 1) (hexDirective upper n ++ cur) (.word (BitVec.ofNat 64 v) :: args) =
      (formatText m cur args).map (hexField upper n v ++ ·) := by
  -- reading stops at the end of the directive, whatever comes after it
  have hparse : npfParseFormatSpec ((hexDirective upper n ++ cur).tail) = some (some (hexSpec upper n, cur)) := by
    rcases hn with rfl | rfl | rfl <;> cases upper <;> rfl
  have hle : n ≤ 8 := by omega
  change (npfParseFormatSpec ((hexDirective upper n ++ cur).tail)).bind _ = _
  rw [hparse, Option.bind_some]
  dsimp only
  rw [directiveText_hexSpec hle hv, Option.bind_some]

/-- A dash, with the rest of the format behind it. -/
theorem formatText_dash {m : ℕ} : formatText (m + 1) ('-' :: cur) args = (formatText m cur args).map ('-' :: ·) := rfl

/-- The format with the digits in the given case. -/
def fmt (upper : Bool) : List Char := if upper then fmtUpper else fmtLower

/-- The two bytes of `clock_seq_hi_and_reserved` and `clock_seq_low`. -/
theorem clockSeq_bytes (uu : UuidT) :
    readBytes uu 8 2 >>> 8 = (uu 8).toNat ∧ readBytes uu 8 2 &&& 0xFF = (uu 9).toNat := by
  have hlo : (uu 9).toNat < 256 := UInt8.toNat_lt _
  have hone : readBytes uu 8 1 = (uu 8).toNat := Nat.zero_or _
  rw [readBytes_succ, hone, Nat.shiftRight_eq_div_pow, Nat.and_two_pow_sub_one_eq_mod _ 8]
  dsimp only [Nat.reduceAdd]
  omega

/-- **What the formats print**: the text of the UUID. -/
theorem printed_fmt (upper : Bool) (uu : UuidT) :
    printed (fmt upper) ((uuidUnpack uu).args.map fun v => .word (BitVec.ofNat 64 v)) = some (uuidText upper uu) := by
  have hfmt : fmt upper = hexDirective upper 8 ++ '-' :: (hexDirective upper 4 ++ '-' :: (hexDirective upper 4 ++
      '-' :: (hexDirective upper 2 ++ (hexDirective upper 2 ++ '-' :: (hexDirective upper 2 ++ (hexDirective upper 2 ++
      (hexDirective upper 2 ++ (hexDirective upper 2 ++ (hexDirective upper 2 ++ (hexDirective upper 2 ++
      [])))))))))) := by
    cases upper <;> rfl
  have hlen : (fmt upper).length = 48 := by
    cases upper <;> rfl
  have hbyte : ∀ b : UInt8, b.toNat < 16 ^ 2 := UInt8.toNat_lt
  have hclock := clockSeq_bytes uu
  unfold printed uuidUnpack Uuid.args
  rw [hlen, hfmt]
  simp only [List.map_cons, List.map_nil]
  -- one directive or dash after the other
  rw [hclock.1, hclock.2, formatText_hex (by omega) (readBytes_lt uu 0 4), formatText_dash,
    formatText_hex (by omega) (readBytes_lt uu 4 2), formatText_dash,
    formatText_hex (by omega) (readBytes_lt uu 6 2), formatText_dash,
    formatText_hex (by omega) (hbyte _), formatText_hex (by omega) (hbyte _), formatText_dash,
    formatText_hex (by omega) (hbyte _), formatText_hex (by omega) (hbyte _), formatText_hex (by omega) (hbyte _),
    formatText_hex (by omega) (hbyte _), formatText_hex (by omega) (hbyte _), formatText_hex (by omega) (hbyte _),
    formatText]
  simp only [Option.map_some, hexField_byte]
  have h8 : hexField upper 8 (readBytes uu 0 4) = hexBytes upper uu 0 4 := hexField_readBytes uu 0 3
  have h4 : ∀ i, hexField upper 4 (readBytes uu i 2) = hexBytes upper uu i 2 := fun i => hexField_readBytes uu i 1
  rw [h8, h4, h4]
  rfl

/-- A byte has two digits. -/
theorem length_hexBytes (upper : Bool) (uu : UuidT) (i n : ℕ) : (hexBytes upper uu i n).length = 2 * n := by
  induction n with
  | zero => rfl
  | succ n ih =>
      rw [hexBytes, List.length_append, ih]
      rfl

/-- The text of a UUID has 36 characters. -/
theorem length_uuidText (upper : Bool) (uu : UuidT) : (uuidText upper uu).length = uuidStringLength := by
  simp only [uuidText, List.length_append, List.length_cons, length_hexBytes]
  rfl

section Unparse

variable {M : Type*} (store : M → ℕ → Char → M)

/-- `uuid_unparse` with one of the two formats, for letters in either case. -/
theorem unparseX_eq (mem : M) (uu : UuidT) (out : ℕ) (upper : Bool) : uuidUnparseX store mem uu out (fmt upper) =
    some (if out = 0 then mem else storeAll store mem out (uuidText upper uu)) := by
  have htake : (uuidText upper uu ++ ['\x00']).take uuidStringLength = uuidText upper uu := by
    rw [← length_uuidText upper uu, List.take_left]
  have hlt : (uuidText upper uu).length < 2 ^ 31 := by
    rw [length_uuidText]
    decide
  unfold uuidUnparseX
  rw [npfVsnprintf_of_printed store (printed_fmt upper uu) hlt, Option.map_some, htake]

/-- **What is left of a UUID in memory**: its text, of `UUID_STRING_LENGTH` characters, and no terminator. -/
theorem unparse_text (mem : M) (uu : UuidT) (out : ℕ) :
    uuidUnparseLower store mem uu out = some (if out = 0 then mem else storeAll store mem out (uuidText false uu)) ∧
    uuidUnparseUpper store mem uu out = some (if out = 0 then mem else storeAll store mem out (uuidText true uu)) ∧
    uuidUnparse store mem uu out = uuidUnparseLower store mem uu out ∧
    ∀ upper, (uuidText upper uu).length = uuidStringLength :=
  ⟨unparseX_eq store mem uu out false, unparseX_eq store mem uu out true, rfl, fun upper => length_uuidText upper uu⟩

end Unparse

/-! ## Order -/

variable {s t : ℕ → UInt8} {l l' m m' : List Char}

/-- Bytes that are compared in two parts. -/
theorem memcmp_add (s t : ℕ → UInt8) (i n m : ℕ) :
    memcmp s t i (n + m) = if memcmp s t i n ≠ 0 then memcmp s t i n else memcmp s t (i + n) m := by
  induction n generalizing i with
  | zero => simp [memcmp]
  | succ n ih =>
      rw [Nat.succ_add, memcmp, memcmp]
      by_cases hne : s i ≠ t i
      · rw [if_pos hne, if_pos hne]
        split <;> simp
      · rw [if_neg hne, if_neg hne, ih, Nat.add_right_comm, Nat.add_assoc]

/-- A comparison of what begins later is the comparison from there on. -/
theorem memcmp_shift (s t : ℕ → UInt8) (a i n : ℕ) :
    memcmp (fun k => s (a + k)) (fun k => t (a + k)) i n = memcmp s t (a + i) n := by
  induction n generalizing i with
  | zero => rfl
  | succ n ih => rw [memcmp, memcmp, ih, Nat.add_assoc]

/-- **Numbers compare as their bytes do**, the most significant first. -/
theorem uucmp_readBytes (s t : ℕ → UInt8) (i n : ℕ) (next : ℤ) : uucmp (readBytes s i n) (readBytes t i n) next =
    if memcmp s t i n ≠ 0 then memcmp s t i n else next := by
  induction n generalizing next with
  | zero => rfl
  | succ n ih =>
      have hs : (s (i + n)).toNat < 256 := UInt8.toNat_lt _
      have ht : (t (i + n)).toNat < 256 := UInt8.toNat_lt _
      -- the last byte decides where the others are the same
      have hsplit : uucmp (readBytes s i (n + 1)) (readBytes t i (n + 1)) next =
          uucmp (readBytes s i n) (readBytes t i n) (uucmp (s (i + n)).toNat (t (i + n)).toNat next) := by
        rw [readBytes_succ, readBytes_succ]
        unfold uucmp
        split_ifs <;> first | rfl | omega
      have hlast : ∀ next', uucmp (s (i + n)).toNat (t (i + n)).toNat next' =
          if memcmp s t (i + n) 1 ≠ 0 then memcmp s t (i + n) 1 else next' := by
        intro next'
        unfold uucmp
        simp only [memcmp, ne_eq, ← UInt8.toNat_inj]
        split_ifs <;> simp_all
      rw [hsplit, ih, hlast, memcmp_add s t i n 1]
      by_cases hz : memcmp s t i n = 0
      · rw [if_neg (not_not_intro hz), if_neg (not_not_intro hz)]
      · rw [if_pos hz, if_pos hz, if_pos hz]

/-- How texts compare: by the first character in which they differ. -/
def textCompare : List Char → List Char → ℤ
  | [], [] => 0
  | [], _ :: _ => -1
  | _ :: _, [] => 1
  | c :: l, c' :: l' => if c ≠ c' then if c.toNat < c'.toNat then -1 else 1 else textCompare l l'

/-- Texts that are compared in two parts. -/
theorem textCompare_append (h : l.length = l'.length) :
    textCompare (l ++ m) (l' ++ m') = if textCompare l l' ≠ 0 then textCompare l l' else textCompare m m' := by
  induction l generalizing l' with
  | nil =>
      obtain rfl : l' = [] := List.length_eq_zero_iff.mp h.symm
      rfl
  | cons c l ih =>
      cases l' with
      | nil => cases h
      | cons c' l' =>
          rw [List.cons_append, List.cons_append, textCompare, textCompare]
          by_cases hne : c ≠ c'
          · rw [if_pos hne, if_pos hne]
            split <;> rfl
          · rw [if_neg hne, if_neg hne]
            exact ih (Nat.succ.inj h)

/-- Dashes in the same place do not decide. -/
theorem textCompare_dash (l l' : List Char) : textCompare ('-' :: l) ('-' :: l') = textCompare l l' :=
  if_neg (not_not_intro rfl)

/-- The characters of digits are in the order of the digits, for letters in either case. -/
theorem digitOf_lt_iff (upper : Bool) :
    ∀ d < 16, ∀ e < 16, (digitOf upper d).toNat < (digitOf upper e).toNat ↔ d < e := by
  cases upper <;> decide

/-- Different digits have different characters. -/
theorem digitOf_inj (upper : Bool) : ∀ d < 16, ∀ e < 16, digitOf upper d = digitOf upper e ↔ d = e := by
  cases upper <;> decide

/-- Two bytes are compared by their digits. -/
theorem textCompare_hexByte (upper : Bool) (s t : ℕ → UInt8) (i : ℕ) :
    textCompare (hexByte upper (s i)) (hexByte upper (t i)) = memcmp s t i 1 := by
  have hs : (s i).toNat < 256 := UInt8.toNat_lt _
  have ht : (t i).toNat < 256 := UInt8.toNat_lt _
  have hdiv := digitOf_lt_iff upper ((s i).toNat / 16) (by omega) ((t i).toNat / 16) (by omega)
  have hmod := digitOf_lt_iff upper ((s i).toNat % 16) (by omega) ((t i).toNat % 16) (by omega)
  have hdiv' := digitOf_inj upper ((s i).toNat / 16) (by omega) ((t i).toNat / 16) (by omega)
  have hmod' := digitOf_inj upper ((s i).toNat % 16) (by omega) ((t i).toNat % 16) (by omega)
  simp only [hexByte, textCompare, memcmp, ne_eq, hdiv, hdiv', hmod, hmod', ← UInt8.toNat_inj]
  split_ifs <;> first | rfl | omega

/-- **Digits compare as the bytes do.** -/
theorem textCompare_hexBytes (upper : Bool) (s t : ℕ → UInt8) (i n : ℕ) :
    textCompare (hexBytes upper s i n) (hexBytes upper t i n) = memcmp s t i n := by
  induction n with
  | zero => rfl
  | succ n ih =>
      have hlen : (hexBytes upper s i n).length = (hexBytes upper t i n).length := by
        rw [length_hexBytes, length_hexBytes]
      rw [hexBytes, hexBytes, textCompare_append hlen, ih, textCompare_hexByte, memcmp_add s t i n 1]

/-- **UUIDs compare as their texts do**, with digits of either case, although it is their numbers that are compared. -/
theorem compare_text (upper : Bool) (uu1 uu2 : UuidT) :
    uuidCompare uu1 uu2 = textCompare (uuidText upper uu1) (uuidText upper uu2) := by
  have hlen : ∀ i n, (hexBytes upper uu1 i n).length = (hexBytes upper uu2 i n).length := by
    intro i n
    rw [length_hexBytes, length_hexBytes]
  have hnode : memcmp (uuidUnpack uu1).node (uuidUnpack uu2).node 0 6 = memcmp uu1 uu2 10 6 :=
    memcmp_shift uu1 uu2 10 0 6
  -- both go through the same parts in the same order
  unfold uuidText uuidCompare
  dsimp only
  rw [hnode]
  simp only [textCompare_append (hlen _ _), textCompare_dash, textCompare_hexBytes, ← uucmp_readBytes]
  rfl

end Scalux.Libuuid
