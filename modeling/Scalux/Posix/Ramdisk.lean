import Scalux.Tmpfs.File
import Scalux.Tmpfs.Tree

/-! # The initial ramdisk

`unpack_ramdisk` (`posix/posix_main.c`): a tmpfs is mounted, `dev` is made in it, and then a file or a
directory for each header of a ustar archive.  The archive is the memory from `initbin` on.

* The file system here is the one of `Tmpfs.Node` with the bytes of the objects; `tmp_write` puts the bytes
  into the object at once.  The window through which it does so is that of `Tmpfs.File`, and
  **`tmpWrite_window`** says that what it leaves is the same.
* The loop has fuel, since an archive that is not well formed may send `i` back by an overflow.
* **`HeaderAt`**, **`ArchiveAt`**: an archive, header by header; what the code does not read is free. -/

namespace Scalux.Posix.Ramdisk

open Tmpfs (Mem Tmpnode Vnode tmpfsVnops tmpfsMount tmpCreate dev devattr dotdot intOf)
/-! ## The code -/

/-- A file system, with the bytes of each object. -/
structure Fs where
  mem : Mem
  objs : ℕ → ℕ → UInt8

/-- The bytes `buf` at an offset of an object. -/
def writeObj (g : ℕ → UInt8) (buf : List UInt8) (off : ℕ) : ℕ → UInt8 := fun i =>
  if off ≤ i ∧ i < off + buf.length then buf.getD (i - off) 0 else g i

/-- `tmp_write`. -/
def tmpWrite (vn : ℕ) (buf : List UInt8) (off : ℕ) (s : Fs) : Option (ℤ × Fs) := do
  let v ← s.mem.vnodes.get? vn
  let tn ← s.mem.nodes.get? v.data
  let nbyte := buf.length
  if nbyte = 0 then return (0, s)
  else
    -- the file grows when the write ends behind it
    let tn := if tn.attr.size < add64 off nbyte then
        { tn with attr := { tn.attr with size := add64 off nbyte } }
      else tn
    let o ← v.vmobj
    return (intOf nbyte, { mem := { s.mem with nodes := s.mem.nodes.set v.data tn },
                           objs := Function.update s.objs o (writeObj (s.objs o) buf off) })

/-- The `n` bytes of the archive at `a`. -/
def field (img : ℕ → UInt8) (a n : ℕ) : List UInt8 := (List.range n).map fun k => img (a + k)

/-- The string at `a`, as far as `vfs_lookup` has room for it. -/
def stringAt (img : ℕ → UInt8) (a : ℕ) : Name := cstr (field img a 255)

/-- `oct2i`. -/
def oct2i (s : List UInt8) : ℤ := s.foldl (fun n c => Int.bmod (n * 8 + (c.toNat - 48)) (2 ^ 32)) 0

/-- `mode & ~(S_IFMT)`. -/
def permissions (mode : ℤ) : ℕ := (mode % 2 ^ 32).toNat &&& 0xffff0fff

/-- `ROUNDUP(fsize, 512)`. -/
def blocksSize (fsize : ℤ) : ℕ := roundUp (fsize % 2 ^ 64).toNat 512

/-- `kUStarNormal`. -/
def kUStarNormal : UInt8 := 48

/-- `kUStarDirectory`. -/
def kUStarDirectory : UInt8 := 53

/-- `vfs_lookup` from the root, with `kLookupCreat`; `tmakenode` sets the size. -/
def lookupCreat (rootVnode : ℕ) (path : Name) (type : Vtype) (mode : ℕ) (s : Fs) :
    Option (Except ℤ ℕ × Fs) :=
  ((vfsLookup tmpfsVnops 1 rootVnode (some rootVnode) path ⟨true, false⟩ ⟨type, mode, 0⟩).run.run
    s.mem).map fun x => (x.1, { s with mem := x.2 })

/-- The body of the loop, for a header at `i` that is neither the last one nor of `./`. -/
def unpackEntry (rootVnode : ℕ) (img : ℕ → UInt8) (i : ℕ) (fsize : ℤ) (s : Fs) : Option Fs :=
  let mode := permissions (oct2i (field img (i + 100) 7))
  let type := img (i + 156)
  if type = kUStarDirectory then
    -- an error is only printed
    (lookupCreat rootVnode (stringAt img i) .vdir mode s).map Prod.snd
  else if type = kUStarNormal then do
    match ← lookupCreat rootVnode (stringAt img i) .vreg mode s with
    | (.ok vn, s) =>
        let (_, s) ← tmpWrite vn (field img (i + 512) (fsize % 2 ^ 64).toNat) 0 s
        return s
    -- an error is printed, but `vn` has no value
    | (.error _, _) => none
  else some s

/-- The loop. -/
def unpackLoop (rootVnode : ℕ) (img : ℕ → UInt8) (size : ℕ) : ℕ → ℕ → Fs → Option Fs
  | 0, _, _ => none
  | fuel + 1, i, s =>
      if i < size then
        let fsize := oct2i (field img (i + 124) 11)
        let next := (i + (512 + blocksSize fsize)) % 2 ^ 64
        -- an empty name ends the archive, and the entry of the root itself, `./`, is passed over
        if img i = 0 then some s
        else if img (i + 2) = 0 then unpackLoop rootVnode img size fuel next s
        else (unpackEntry rootVnode img i fsize s).bind fun s => unpackLoop rootVnode img size fuel next s
      else some s

/-- `unpack_ramdisk`, with one module; it leaves `root_vnode`. -/
def unpackRamdisk (garbage : Tmpnode) (supply : List ℕ) (img : ℕ → UInt8) (size fuel : ℕ) :
    Option (ℕ × Fs) := do
  let (rootVnode, mem) ← tmpfsMount garbage ⟨Heap.empty, Heap.empty, supply⟩
  let ((r, _), mem) ← tmpCreate rootVnode dev devattr mem
  if r < 0 then none
  else
    let s ← unpackLoop rootVnode img size fuel 0 ⟨mem, fun _ _ => 0⟩
    return (rootVnode, s)

/-! ## The window -/

/-- The file behind a vnode is the regular file `tn` of the memory `st`. -/
def SameFile (st : Vm.State) (tn : Tmpfs.Regular) (s : Fs) (vn : ℕ) : Prop :=
  ∃ v node o, s.mem.vnodes.get? vn = some v ∧ s.mem.nodes.get? v.data = some node ∧ v.vmobj = some o ∧
    node.attr = tn.attr ∧ s.objs o = Vm.objByte st tn.vmobj

/-- **`tmp_write` through its window** leaves the same file. -/
theorem tmpWrite_window {st st' : Vm.State} {held : List Vm.ObjId} {tn tn' : Tmpfs.Regular}
    {f buf : List UInt8} {off vn : ℕ} {new : ℕ → Vm.AnonId × Vm.Page} {r : ℤ} {s : Fs}
    (h : Vm.Inv held st) (hf : Tmpfs.FileOk st tn f) (hsmall : off + buf.length < 2 ^ 31)
    (hsame : SameFile st tn s vn) (hs : Tmpfs.tmpWrite st tn buf off new = some (r, tn', st')) :
    ∃ s', tmpWrite vn buf off s = some (r, s') ∧ SameFile st' tn' s' vn := by
  obtain ⟨v, node, o, hv, hnode, ho, hattr, hbytes⟩ := hsame
  obtain ⟨-, hf', hobj, -⟩ := Tmpfs.tmpWrite_spec h hf hsmall hs
  -- the write through the window and the write into the object give the same bytes
  have hbyte : Vm.objByte st' tn'.vmobj = writeObj (Vm.objByte st tn.vmobj) buf off := by
    funext i
    rw [hf'.byte_eq, getD_writeAt, writeObj, hf.byte_eq]
  unfold Tmpfs.tmpWrite at hs
  unfold tmpWrite
  rw [hv, Option.bind_eq_bind, Option.bind_some, hnode, Option.bind_eq_bind, Option.bind_some]
  dsimp only at hs ⊢
  by_cases hnil : buf.length = 0
  · rw [if_pos hnil] at hs ⊢
    cases hs
    refine ⟨s, rfl, v, node, o, hv, hnode, ho, hattr, ?_⟩
    rw [hbytes]
  · rw [if_neg hnil] at hs ⊢
    obtain ⟨x, -, hs⟩ := Option.bind_eq_some_iff.mp hs
    obtain ⟨rfl, hrest⟩ := Prod.mk.inj (Option.some.inj hs)
    obtain ⟨htn, -⟩ := Prod.mk.inj hrest
    rw [ho]
    refine ⟨_, rfl, v, if node.attr.size < add64 off buf.length then
      { node with attr := { node.attr with size := add64 off buf.length } } else node, o, hv, ?_, ho,
      ?_, ?_⟩
    · show (Heap.set _ v.data _).get? v.data = _
      rw [Heap.get?_set hnode, if_pos rfl]
    · rw [← htn, hattr]
      split
      · rfl
      · exact hattr
    · show Function.update s.objs o _ o = _
      rw [Function.update_self, hbytes, hbyte]

/-! ## Archives -/

instance (x : Name) : Decidable (IsName x) := inferInstanceAs (Decidable (_ ∧ _))

/-- The type of an entry. -/
inductive Kind
  | directory
  | normal
  | other (flag : UInt8)
  deriving DecidableEq, Repr

/-- The type flag. -/
def Kind.flag : Kind → UInt8
  | .directory => kUStarDirectory
  | .normal => kUStarNormal
  | .other flag => flag

/-- The type of the node. -/
def Kind.vtype : Kind → Option Vtype
  | .directory => some .vdir
  | .normal => some .vreg
  | .other _ => none

/-- What is archived; the path is from the root of the archive. -/
structure Entry where
  path : List Name
  kind : Kind
  mode : ℕ
  data : List UInt8
  deriving DecidableEq, Repr

/-- The name in the header: `./`, the names with slashes between them, and a slash after a directory. -/
def Entry.name (e : Entry) : Name :=
  match e.path with
  | [] => [dot, slash]
  | _ :: _ => joined ([dot] :: e.path.dropLast) (e.path.getLastD []) ++
      if e.kind = .directory then [slash] else []

/-- A number in `n` octal digits. -/
def octal : ℕ → ℕ → List UInt8
  | 0, _ => []
  | n + 1, v => octal n (v / 8) ++ [UInt8.ofNat (48 + v % 8)]

/-- The header of an entry is at `i`, and its data after it. -/
structure HeaderAt (img : ℕ → UInt8) (i : ℕ) (e : Entry) : Prop where
  name_lt : e.name.length < 100
  filename : field img i (e.name.length + 1) = e.name ++ [0]
  mode_lt : e.mode < 8 ^ 7
  mode : field img (i + 100) 7 = octal 7 e.mode
  size_lt : e.data.length < 2 ^ 31
  size : field img (i + 124) 11 = octal 11 e.data.length
  type : img (i + 156) = e.kind.flag
  unprefixed : img (i + 345) = 0
  data : field img (i + 512) e.data.length = e.data

/-- The entries are one after the other from `i` on, and a block of zeroes is at their end. -/
def ArchiveAt (img : ℕ → UInt8) (size : ℕ) : ℕ → List Entry → Prop
  | i, [] => i + 512 ≤ size ∧ ∀ k < 512, img (i + k) = 0
  | i, e :: es => HeaderAt img i e ∧
      ArchiveAt img size (i + (512 + (e.data.length + 511) / 512 * 512)) es

/-- An archive of a tree: the names are names, directories precede their contents, no path is there twice,
and `dev` is not in it. -/
structure WellFormed (es : List Entry) : Prop where
  names : ∀ e ∈ es, ∀ c ∈ e.path, IsName c ∧ Counts c ∧ c ≠ dotdot
  root : ∀ e ∈ es, e.path = [] → e.kind = .directory
  other : ∀ e ∈ es, ∀ flag, e.kind = .other flag → flag ≠ kUStarDirectory ∧ flag ≠ kUStarNormal
  nodup : (es.map Entry.path).Nodup
  not_dev : ∀ e ∈ es, e.path ≠ [dev]
  parents : ∀ l e r, es = l ++ e :: r → e.path ≠ [] → e.path.dropLast ≠ [] →
    ∃ d ∈ l, d.kind = .directory ∧ d.path = e.path.dropLast

/-! ## Numbers -/

variable {img : ℕ → UInt8} {i a n v : ℕ} {e : Entry} {p : List Name} {c : Name}

/-- One digit more in front of the last. -/
theorem octal_succ (n v : ℕ) : octal (n + 1) v = octal n (v / 8) ++ [UInt8.ofNat (48 + v % 8)] := rfl

/-- **`oct2i`** reads a number that fits. -/
theorem oct2i_octal (hn : v < 8 ^ n) (hv : v < 2 ^ 31) : oct2i (octal n v) = v := by
  induction n generalizing v with
  | zero =>
      obtain rfl : v = 0 := by omega
      rfl
  | succ n ih =>
      have hdiv : v / 8 < 8 ^ n := by
        rw [pow_succ] at hn
        omega
      have hdigit : (UInt8.ofNat (48 + v % 8)).toNat = 48 + v % 8 := by
        rw [UInt8.toNat_ofNat']
        omega
      rw [oct2i, octal_succ, List.foldl_append, ← oct2i, ih hdiv (by omega), List.foldl_cons,
        List.foldl_nil, hdigit, Int.bmod_eq_of_le (by omega) (by omega)]
      omega

/-- The permission bits are kept. -/
theorem permissions_mod (hv : v < 2 ^ 31) : permissions v % 0o10000 = v % 0o10000 := by
  have htoNat : ((v : ℤ) % 2 ^ 32).toNat = v := by omega
  rw [permissions, htoNat]
  calc (v &&& 0xffff0fff) % 2 ^ 12 = (v % 2 ^ 12) &&& (0xffff0fff % 2 ^ 12) := Nat.and_mod_two_pow
    _ = v % 2 ^ 12 &&& (2 ^ 12 - 1) := rfl
    _ = v % 2 ^ 12 % 2 ^ 12 := Nat.and_two_pow_sub_one_eq_mod _ _
    _ = v % 2 ^ 12 := Nat.mod_mod _ _

/-- Blocks of 512 bytes, without the mask. -/
theorem blocksSize_eq (fsize : ℤ) : blocksSize fsize = ((fsize % 2 ^ 64).toNat + 511) % 2 ^ 64 / 512 * 512 :=
  roundUp_eq (k := 9) _ (by decide)

/-- Blocks of 512 bytes for a size that is not negative. -/
theorem blocksSize_natCast (hv : v < 2 ^ 31) : blocksSize v = (v + 511) / 512 * 512 := by
  have htoNat : ((v : ℤ) % 2 ^ 64).toNat = v := by omega
  rw [blocksSize_eq, htoNat, Nat.mod_eq_of_lt (by omega)]

/-! ## Names -/

/-- Two fields next to each other. -/
theorem field_append (a m n : ℕ) : field img a (m + n) = field img a m ++ field img (a + m) n := by
  unfold field
  rw [List.range_add, List.map_append, List.map_map]
  congr 2
  funext k
  simp [Nat.add_assoc]

/-- A byte of a field. -/
theorem field_getElem? {k : ℕ} (hk : k < n) : (field img a n)[k]? = some (img (a + k)) := by
  simp [field, hk]

/-- The name of an entry, without the slash at its end. -/
theorem name_eq (hp : e.path = p ++ [c]) : e.name
    = joined ([dot] :: p) c ++ List.replicate (if e.kind = .directory then 1 else 0) slash := by
  have hrep : (if e.kind = .directory then [slash] else [])
      = List.replicate (if e.kind = .directory then 1 else 0) slash := by
    split <;> rfl
  unfold Entry.name
  cases hpath : e.path with
  | nil => simp [hp] at hpath
  | cons x xs =>
      dsimp only
      rw [← hpath, hp, List.dropLast_concat, List.getLastD_concat, hrep]

/-- What the names of a path are. -/
def PathOk (path : List Name) : Prop := ∀ c ∈ path, IsName c ∧ Counts c ∧ c ≠ dotdot

/-- A joined path does not end in a slash. -/
theorem getLast?_joined (hc : IsName c) (hne : c ≠ []) : (joined ([dot] :: p) c).getLast? ≠ some slash := by
  rw [joined, List.getLast?_append_of_ne_nil _ hne]
  intro hlast
  exact hc.2 (List.mem_of_getLast? hlast)

/-- A joined path has no terminator inside. -/
theorem zero_notMem_joined {ws : List Name} (hws : ∀ x ∈ ws, IsName x) (hc : IsName c) :
    0 ∉ joined ws c := by
  rw [joined, List.mem_append, List.mem_flatMap, not_or]
  refine ⟨?_, hc.1⟩
  rintro ⟨x, hx, hmem⟩
  rcases List.mem_append.mp hmem with hmem | hmem
  · exact (hws x hx).1 hmem
  · simp [slash] at hmem

/-- A dot is a name. -/
theorem isName_dot : IsName [dot] := ⟨by decide, by decide⟩

/-- The names of an entry. -/
theorem names_of_entry (hok : PathOk e.path) (hp : e.path = p ++ [c]) :
    namesBefore e.name = p ∧ lastName e.name = c ∧ components e.name = e.path ∧ 0 ∉ e.name := by
  have hc := hok c (by rw [hp]; simp)
  have hpok : ∀ x ∈ p, IsName x ∧ Counts x := fun x hx =>
    ⟨(hok x (by rw [hp]; simp [hx])).1, (hok x (by rw [hp]; simp [hx])).2.1⟩
  have hws : ∀ x ∈ [dot] :: p, IsName x := by
    intro x hx
    rcases List.mem_cons.mp hx with rfl | hx
    · exact isName_dot
    · exact (hpok x hx).1
  have hsplit : (joined ([dot] :: p) c).splitOn slash = ([dot] :: p) ++ [c] :=
    splitOn_joined (fun x hx => (hws x hx).2) hc.1.2
  have hfilter : ([dot] :: p).filter (fun x => decide (Counts x)) = p := by
    rw [List.filter_cons_of_neg (by decide), List.filter_eq_self]
    exact fun x hx => decide_eq_true (hpok x hx).2
  -- the name splits at its slashes into a dot, the parents and the last name
  have hall : allNames e.name = ([dot] :: p) ++ [c] := by
    rw [allNames, name_eq hp, rdropWhile_replicate (getLast?_joined hc.1 hc.2.1.1), hsplit]
  refine ⟨?_, ?_, ?_, ?_⟩
  · rw [namesBefore, hall, List.dropLast_concat, hfilter]
  · rw [lastName, hall, List.getLastD_concat]
  · rw [name_eq hp, components_replicate, components, hsplit, List.filter_append, hfilter, hp,
      List.filter_cons_of_pos (by simpa using hc.2.1), List.filter_nil]
  · rw [name_eq hp, List.mem_append, not_or]
    refine ⟨zero_notMem_joined hws hc.1, ?_⟩
    simp [slash]

/-- The first characters of a name. -/
theorem name_head (e : Entry) : ∃ rest, e.name = dot :: slash :: rest ∧
    (e.path ≠ [] → PathOk e.path → ∃ x xs, rest = x :: xs ∧ x ≠ 0) ∧ (e.path = [] → rest = []) := by
  cases hpath : e.path with
  | nil => exact ⟨[], by rw [Entry.name, hpath], by simp, fun _ => rfl⟩
  | cons x xs =>
      -- past `./` stands the first name, whose characters are not 0
      obtain ⟨p, c, hp⟩ : ∃ p c, e.path = p ++ [c] := by
        rw [hpath]
        exact ⟨_, _, (List.dropLast_append_getLast (List.cons_ne_nil x xs)).symm⟩
      have hname : e.name = dot :: slash :: (joined p c ++
          List.replicate (if e.kind = .directory then 1 else 0) slash) := by
        rw [name_eq hp]
        rfl
      refine ⟨_, hname, fun _ hok => ?_, fun hnil => (by cases hnil)⟩
      have hc := hok c (by rw [← hpath, hp]; simp)
      have hws : ∀ y ∈ p, IsName y := fun y hy => (hok y (by rw [← hpath, hp]; simp [hy])).1
      have hne : joined p c ≠ [] := by
        rw [joined, Ne, List.append_eq_nil_iff, not_and]
        exact fun _ => hc.2.1.1
      obtain ⟨y, ys, hy⟩ := List.exists_cons_of_ne_nil hne
      refine ⟨y, _, by rw [hy]; rfl, ?_⟩
      rintro rfl
      exact zero_notMem_joined hws hc.1 (hy ▸ List.mem_cons_self)

/-- The name of an entry has no terminator inside. -/
theorem zero_notMem_name (hok : PathOk e.path) : 0 ∉ e.name := by
  cases hpath : e.path with
  | nil =>
      rw [Entry.name, hpath]
      show (0 : UInt8) ∉ [dot, slash]
      decide
  | cons x xs =>
      have hp : e.path = e.path.dropLast ++ [e.path.getLast (by simp [hpath])] :=
        (List.dropLast_append_getLast _).symm
      exact (names_of_entry hok hp).2.2.2

/-! ## Headers -/

/-- A character of the name in a header. -/
theorem HeaderAt.name_char {k : ℕ} {x : UInt8} (h : HeaderAt img i e)
    (hk : (e.name ++ [0])[k]? = some x) : img (i + k) = x := by
  have hlt : k < e.name.length + 1 := by
    obtain ⟨hlt, -⟩ := List.getElem?_eq_some_iff.mp hk
    simpa using hlt
  rw [← h.filename, field_getElem? hlt] at hk
  exact Option.some.inj hk

/-- **The name in a header**, as `vfs_lookup` reads it. -/
theorem HeaderAt.stringAt (h : HeaderAt img i e) (hok : PathOk e.path) : stringAt img i = e.name := by
  have hlt := h.name_lt
  have hsplit : 255 = (e.name.length + 1) + (254 - e.name.length) := by omega
  rw [Ramdisk.stringAt, hsplit, field_append, h.filename, List.append_assoc, List.singleton_append,
    cstr_append (zero_notMem_name hok)]

/-- A header is not the end of the archive, and its name is longer than `./` unless it is that. -/
theorem HeaderAt.first (h : HeaderAt img i e) (hok : PathOk e.path) :
    img i ≠ 0 ∧ (img (i + 2) = 0 ↔ e.path = []) := by
  obtain ⟨rest, hname, hpath, hnil⟩ := name_head e
  have hzero : img (i + 0) = dot := h.name_char (by rw [hname]; rfl)
  refine ⟨?_, fun htwo => ?_, fun hpnil => ?_⟩
  · rw [Nat.add_zero] at hzero
    rw [hzero]
    decide
  · by_contra hne
    obtain ⟨x, xs, rfl, hx⟩ := hpath hne hok
    have hchar : img (i + 2) = x := h.name_char (by rw [hname]; rfl)
    exact hx (hchar ▸ htwo)
  · exact h.name_char (by rw [hname, hnil hpnil]; rfl)

/-- The size in a header. -/
theorem HeaderAt.fsize (h : HeaderAt img i e) : oct2i (field img (i + 124) 11) = e.data.length := by
  rw [h.size]
  exact oct2i_octal (by have := h.size_lt; omega) h.size_lt

/-- The mode in a header. -/
theorem HeaderAt.permissions (h : HeaderAt img i e) :
    permissions (oct2i (field img (i + 100) 7)) % 0o10000 = e.mode % 0o10000 := by
  have hlt : e.mode < 2 ^ 31 := by
    have := h.mode_lt
    omega
  rw [h.mode, oct2i_octal h.mode_lt hlt, permissions_mod hlt]

end Scalux.Posix.Ramdisk
