import Scalux.Lib.Extend
import Scalux.Posix.Vfs
import Scalux.Vm.Window

/-! # Regular files

`tmp_read` and `tmp_write` (`tmpfs/tmpfs.c`).  The bytes of a regular file are those of an anonymous
object; a read or a write maps the object into the kernel map, copies, and unmaps it again.  The file is
as long as the last byte that has been written.

* **`files_refine`**: in every run the files are byte arrays that grow when they are written past their
  end, and each call returns what it returns on these. -/

namespace Scalux.Tmpfs

open Posix (Vattr Vtype)
open Vm (State ObjId AnonId Page kmap vaddrMax vmAobjNew vmObjectRetain vmMapObject vmDeallocate copyIn
  copyOut refcntOf NotMapped objByte)
/-- `tmpnode_t` of a regular file. -/
structure Regular where
  attr : Vattr
  vmobj : ObjId
  deriving DecidableEq, Repr

/-- `EINVAL`. -/
def einval : ℤ := 22

/-- A `size_t` that is returned as an `int`. -/
def intOf (n : ℕ) : ℤ := Int.bmod n (2 ^ 32)

/-- `tmakenode` for a regular file: its object has two references. -/
def tmakeRegular (s : State) (o : ObjId) (attr : Vattr) : Option (Regular × State) := do
  let s ← vmAobjNew s o (2 ^ 32 - 1)
  let s ← vmObjectRetain s o
  return (⟨{ attr with size := 0 }, o⟩, s)

/-- The window that `tmp_read` and `tmp_write` open, and what is done with it; a failure of
`vm_map_object` is a failed assertion. -/
def withWindow {α : Type} (s : State) (o : ObjId) (size : ℕ) (f : State → ℕ → Option (α × State)) :
    Option (α × State) := do
  let (r, s) ← vmMapObject s kmap o vaddrMax size 0 none
  match r with
  | .error _ => none
  | .ok vaddr => do
      let (x, s) ← f s vaddr
      let s ← vmDeallocate s kmap vaddr size
      return (x, s)

/-- `tmp_read`: its result, the bytes it has copied, and the memory. -/
def tmpRead (s : State) (tn : Regular) (nbyte off : ℕ) (new : ℕ → AnonId × Page) :
    Option ((ℤ × List UInt8) × State) :=
  if tn.attr.type ≠ .vreg then some ((-einval, []), s)
  else
    -- what lies behind the end of the file is not read
    let nbyte := if tn.attr.size < add64 off nbyte then
        if tn.attr.size ≤ off then 0 else sub64 tn.attr.size off
      else nbyte
    if nbyte = 0 then some ((0, []), s)
    else do
      let (buf, s) ← withWindow s tn.vmobj (pgRoundUp (add64 nbyte off)) fun s vaddr =>
        copyOut kmap new s (add64 vaddr off) nbyte
      return ((intOf nbyte, buf), s)

/-- `tmp_write`. -/
def tmpWrite (s : State) (tn : Regular) (buf : List UInt8) (off : ℕ) (new : ℕ → AnonId × Page) :
    Option (ℤ × Regular × State) :=
  let nbyte := buf.length
  if nbyte = 0 then some (0, tn, s)
  else do
    -- the file grows when the write ends behind it
    let tn := if tn.attr.size < add64 off nbyte then
        { tn with attr := { tn.attr with size := add64 off nbyte } }
      else tn
    let (_, s) ← withWindow s tn.vmobj (pgRoundUp (add64 nbyte off)) fun s vaddr => do
      let s ← copyIn kmap new s (add64 vaddr off) buf
      return ((), s)
    return (intOf nbyte, tn, s)

/-! ## Runs -/

/-- The memory, and the regular files. -/
structure Files where
  st : State
  nodes : List Regular

/-- The calls on files; a file is named by its place in the list. -/
inductive FileCall
  /-- `seg_refill`, and other arenas, leave these unused tags for the arena of the kernel map. -/
  | segRefill (pool : List Vmem.Tag)
  | create (o : ObjId) (mode : ℕ)
  | write (k : ℕ) (buf : List UInt8) (off : ℕ) (new : ℕ → AnonId × Page)
  | read (k nbyte off : ℕ) (new : ℕ → AnonId × Page)

/-- One call, with its result and the bytes that it reads. -/
def fileStep (t : Files) : FileCall → Option ((ℤ × List UInt8) × Files)
  | .segRefill pool => do
      let s ← Vm.segRefill t.st kmap pool
      return ((0, []), ⟨s, t.nodes⟩)
  | .create o mode => do
      let (tn, s) ← tmakeRegular t.st o ⟨.vreg, mode, 0⟩
      return ((0, []), ⟨s, t.nodes ++ [tn]⟩)
  | .write k buf off new => do
      let tn ← t.nodes[k]?
      let (r, tn, s) ← tmpWrite t.st tn buf off new
      return ((r, []), ⟨s, t.nodes.set k tn⟩)
  | .read k nbyte off new => do
      let tn ← t.nodes[k]?
      let (x, s) ← tmpRead t.st tn nbyte off new
      return (x, ⟨s, t.nodes⟩)

/-- The calls one after the other, with what they return. -/
def fileRun : Files → List FileCall → Option (List (ℤ × List UInt8) × Files)
  | t, [] => some ([], t)
  | t, x :: xs => do
      let (y, t) ← fileStep t x
      let (ys, t) ← fileRun t xs
      return (y :: ys, t)

/-! ## The reference files -/

/-- The same call on byte arrays. -/
def refStep (fs : List (List UInt8)) : FileCall → (ℤ × List UInt8) × List (List UInt8)
  | .segRefill _ => ((0, []), fs)
  | .create _ _ => ((0, []), fs ++ [[]])
  | .write k buf off _ => ((buf.length, []), fs.modify k fun f => writeAt 0 f buf off)
  | .read k nbyte off _ =>
      let f := fs.getD k []
      (((min nbyte (f.length - off) : ℕ), readAt f nbyte off), fs)

/-- The same calls on byte arrays. -/
def refRun : List (List UInt8) → List FileCall → List (ℤ × List UInt8) × List (List UInt8)
  | fs, [] => ([], fs)
  | fs, x :: xs =>
      let (y, fs) := refStep fs x
      let (ys, fs) := refRun fs xs
      (y :: ys, fs)

/-- Offsets and lengths that fit into an `int`. -/
def FileCall.Small : FileCall → Prop
  | .segRefill _ => True
  | .create _ _ => True
  | .write _ buf off _ => off + buf.length < 2 ^ 31
  | .read _ nbyte off _ => off + nbyte < 2 ^ 31

/-! ## One call -/

variable {s s' : State} {held : List ObjId} {o : ObjId} {tn tn' : Regular} {buf : List UInt8}
  {nbyte off : ℕ} {new : ℕ → AnonId × Page} {t t' : Files} {fs : List (List UInt8)} {f : List UInt8}

/-- After a call the mappings are as before, and the bytes of the objects are `g`. -/
structure Settled (held : List ObjId) (g : ObjId → ℕ → UInt8) (s s' : State) : Prop where
  inv : Vm.Inv held s'
  refcntOf_eq : refcntOf s' = refcntOf s
  notMapped : ∀ o, NotMapped s.maps o → NotMapped s'.maps o
  objByte_eq : ∀ o, refcntOf s o ≠ none → objByte s' o = g o

/-- An object with a reference count is there. -/
theorem get?_ne_none (h : refcntOf s o ≠ none) : s.objs.get? o ≠ none :=
  fun hnone => h (by rw [refcntOf, hnone]; rfl)

/-- What is done while a window to a file's object is open. -/
theorem withWindow_spec {α : Type} {size : ℕ} {fn : State → ℕ → Option (α × State)} {x : α}
    (h : Vm.Inv held s) (hn : refcntOf s o = some 2) (hnot : NotMapped s.maps o) (hsize : size < 2 ^ 64)
    (hs : withWindow s o size fn = some (x, s')) :
    ∃ s₁ s₂ base, Vm.Inv held s₁ ∧ Vm.Window s₁.maps o base size ∧
      (∀ o', refcntOf s o' ≠ none → objByte s₁ o' = objByte s o') ∧ fn s₁ base = some (x, s₂) ∧
      ∀ g, Vm.Through held g s₁ s₂ → Settled held g s s' := by
  obtain ⟨⟨r, s₁⟩, hmap, hs⟩ := Option.bind_eq_some_iff.mp hs
  cases r with
  | error n => cases hs
  | ok base =>
      obtain ⟨⟨x', s₂⟩, hfn, hs⟩ := Option.bind_eq_some_iff.mp hs
      obtain ⟨s₃, hdealloc, hs⟩ := Option.bind_eq_some_iff.mp hs
      obtain ⟨rfl, rfl⟩ := Prod.mk.inj (Option.some.inj hs)
      -- the object is mapped into the kernel map and has one reference more until it is unmapped
      obtain ⟨hopen, hw⟩ := Vm.open_spec h hn (by norm_num) (by norm_num) hnot hsize hmap
      have hlive : ∀ o', refcntOf s o' ≠ none → refcntOf s₁ o' ≠ none := by
        intro o' ho'
        rw [hopen.refcntOf_eq]
        split
        · simp
        · exact ho'
      refine ⟨s₁, s₂, base, hopen.inv, hw,
        fun o' ho' => hopen.objByte_eq o' (get?_ne_none (hlive o' ho')), hfn, fun g hg => ?_⟩
      have hn₂ : refcntOf s₂ o = some (2 + 1) := by
        rw [hg.refcntOf_eq, hopen.refcntOf_eq, if_pos rfl]
      obtain ⟨hclose, hnot'⟩ := Vm.close_spec (hg.maps_eq ▸ hw) hg.inv hn₂ (by norm_num) hdealloc
      -- the reference of the window is given back with it
      have hrefs : refcntOf s₃ = refcntOf s := by
        funext o'
        rw [hclose.refcntOf_eq, hg.refcntOf_eq, hopen.refcntOf_eq]
        split
        · subst o'
          exact hn.symm
        · rfl
      refine ⟨hclose.inv, hrefs, fun o' ho' => ?_, fun o' ho' => ?_⟩
      · by_cases heq : o' = o
        · subst heq
          exact hnot'
        · exact hclose.notMapped o' heq (hg.maps_eq ▸ hopen.notMapped o' heq ho')
      · rw [hclose.objByte_eq o' (get?_ne_none (hrefs ▸ ho')), hg.objByte_eq]

/-- A number that fits is returned as it is. -/
theorem intOf_of_lt {n : ℕ} (h : n < 2 ^ 31) : intOf n = n := by
  unfold intOf
  refine Int.bmod_eq_of_le ?_ ?_
  · omega
  · omega

/-- A file and its reference. -/
structure FileOk (s : State) (tn : Regular) (f : List UInt8) : Prop where
  type_eq : tn.attr.type = .vreg
  size_eq : tn.attr.size = f.length
  length_lt : f.length < 2 ^ 31
  refcnt_eq : refcntOf s tn.vmobj = some 2
  notMapped : NotMapped s.maps tn.vmobj
  byte_eq : ∀ i, objByte s tn.vmobj i = f.getD i 0

/-- A file is not affected by what changes neither its object nor its mappings. -/
theorem FileOk.settled {g : ObjId → ℕ → UInt8} (hf : FileOk s tn f) (h : Settled held g s s')
    (hg : g tn.vmobj = objByte s tn.vmobj) : FileOk s' tn f where
  type_eq := hf.type_eq
  size_eq := hf.size_eq
  length_lt := hf.length_lt
  refcnt_eq := (congrFun h.refcntOf_eq _).trans hf.refcnt_eq
  notMapped := h.notMapped _ hf.notMapped
  byte_eq i := by
    have hlive : refcntOf s tn.vmobj ≠ none := by
      rw [hf.refcnt_eq]
      simp
    rw [h.objByte_eq _ hlive, hg]
    exact hf.byte_eq i

/-- Nothing has changed. -/
theorem Settled.refl (h : Vm.Inv held s) : Settled held (objByte s) s s :=
  ⟨h, rfl, fun _ hno => hno, fun _ _ => rfl⟩

/-- **`tmp_write`** writes the reference, and no other file. -/
theorem tmpWrite_spec {r : ℤ} (h : Vm.Inv held s) (hf : FileOk s tn f)
    (hsmall : off + buf.length < 2 ^ 31) (hs : tmpWrite s tn buf off new = some (r, tn', s')) :
    r = buf.length ∧ FileOk s' tn' (writeAt 0 f buf off) ∧ tn'.vmobj = tn.vmobj ∧
      ∃ g, Settled held g s s' ∧ ∀ o, o ≠ tn.vmobj → refcntOf s o ≠ none → g o = objByte s o := by
  unfold tmpWrite at hs
  dsimp only at hs
  by_cases hnil : buf.length = 0
  · rw [if_pos hnil] at hs
    obtain ⟨rfl, hrest⟩ := Prod.mk.inj (Option.some.inj hs)
    obtain ⟨rfl, rfl⟩ := Prod.mk.inj hrest
    obtain rfl := List.eq_nil_of_length_eq_zero hnil
    exact ⟨rfl, hf, rfl, _, .refl h, fun _ _ _ => rfl⟩
  · have hadd : add64 off buf.length = off + buf.length := add64_eq (by omega)
    have hadd' : add64 buf.length off = off + buf.length := by rw [add64_eq (by omega), Nat.add_comm]
    -- the sums stay below `2^31`: nothing wraps, neither here nor in the rounding
    obtain ⟨hroom, hpages⟩ := Vm.pgRoundUp_spec hsmall
    rw [if_neg hnil, hadd, hadd'] at hs
    obtain ⟨⟨_, s₃⟩, hwin, hs⟩ := Option.bind_eq_some_iff.mp hs
    obtain ⟨rfl, hrest⟩ := Prod.mk.inj (Option.some.inj hs)
    obtain ⟨htn, rfl⟩ := Prod.mk.inj hrest
    have hobj : tn'.vmobj = tn.vmobj := by
      rw [← htn]
      split
      · rfl
      · rfl
    rw [htn, hobj] at hwin
    obtain ⟨s₁, s₂, base, h₁, hw, hsame, hfn, hsettle⟩ :=
      withWindow_spec h hf.refcnt_eq hf.notMapped (by omega) hwin
    obtain ⟨s₂', hcopy, hfn⟩ := Option.bind_eq_some_iff.mp hfn
    obtain rfl : s₂' = s₂ := congrArg Prod.snd (Option.some.inj hfn)
    have htop := (hw.top h₁).2
    have hbase : add64 base off = base + off := add64_eq (by omega)
    rw [hbase] at hcopy
    -- what the window shows after the copy is what the object holds when it is closed
    have hsettled := hsettle _ (Vm.copyIn_spec hw h₁ (by omega) hcopy)
    have hlive : refcntOf s tn.vmobj ≠ none := by
      rw [hf.refcnt_eq]
      simp
    refine ⟨intOf_of_lt (by omega), ⟨?_, ?_, ?_, ?_, ?_, fun i => ?_⟩, hobj, _, hsettled, ?_⟩
    · rw [← htn]
      split
      · exact hf.type_eq
      · exact hf.type_eq
    · rw [length_writeAt, if_neg fun hnil' => hnil (List.length_eq_zero_iff.mpr hnil'), ← htn]
      have hsize := hf.size_eq
      split
      · dsimp only
        omega
      · omega
    · have hlt := hf.length_lt
      rw [length_writeAt]
      split
      · exact hlt
      · omega
    · rw [hobj, hsettled.refcntOf_eq]
      exact hf.refcnt_eq
    · rw [hobj]
      exact hsettled.notMapped _ hf.notMapped
    · rw [hobj, hsettled.objByte_eq _ hlive, getD_writeAt, hsame _ hlive]
      simp only [true_and, hf.byte_eq]
    · intro o ho hlive'
      funext i
      rw [if_neg fun hall => ho hall.1, hsame o hlive']

/-- **`tmp_read`** reads the reference. -/
theorem tmpRead_spec {x : ℤ × List UInt8} (h : Vm.Inv held s) (hf : FileOk s tn f)
    (hsmall : off + nbyte < 2 ^ 31) (hs : tmpRead s tn nbyte off new = some (x, s')) :
    x = (((min nbyte (f.length - off) : ℕ) : ℤ), readAt f nbyte off) ∧
      ∃ g, Settled held g s s' ∧ ∀ o, refcntOf s o ≠ none → g o = objByte s o := by
  have hlen := hf.length_lt
  have hadd : add64 off nbyte = off + nbyte := add64_eq (by omega)
  -- the clamp
  have hclamp : (if tn.attr.size < add64 off nbyte then
        if tn.attr.size ≤ off then 0 else sub64 tn.attr.size off
      else nbyte) = min nbyte (f.length - off) := by
    rw [hadd, hf.size_eq]
    unfold sub64
    split
    · split
      · omega
      · omega
    · omega
  unfold tmpRead at hs
  rw [if_neg (not_not.mpr hf.type_eq), hclamp] at hs
  dsimp only at hs
  rw [readAt_eq_map 0]
  generalize hk : min nbyte (f.length - off) = k at hs ⊢
  by_cases hzero : k = 0
  · rw [if_pos hzero] at hs
    obtain ⟨rfl, rfl⟩ := Prod.mk.inj (Option.some.inj hs)
    subst hzero
    exact ⟨rfl, _, .refl h, fun _ _ => rfl⟩
  · have hadd' : add64 k off = off + k := by rw [add64_eq (by omega), Nat.add_comm]
    obtain ⟨hroom, hpages⟩ := Vm.pgRoundUp_spec (n := off + k) (by omega)
    rw [if_neg hzero, hadd'] at hs
    obtain ⟨⟨buf, s₃⟩, hwin, hs⟩ := Option.bind_eq_some_iff.mp hs
    obtain ⟨rfl, rfl⟩ := Prod.mk.inj (Option.some.inj hs)
    obtain ⟨s₁, s₂, base, h₁, hw, hsame, hfn, hsettle⟩ :=
      withWindow_spec h hf.refcnt_eq hf.notMapped (by omega) hwin
    have htop := (hw.top h₁).2
    have hbase : add64 base off = base + off := add64_eq (by omega)
    rw [hbase] at hfn
    obtain ⟨rfl, hthrough⟩ := Vm.copyOut_spec hw h₁ (by omega) hfn
    have hlive : refcntOf s tn.vmobj ≠ none := by
      rw [hf.refcnt_eq]
      simp
    refine ⟨?_, _, hsettle _ hthrough, hsame⟩
    rw [intOf_of_lt (by omega)]
    refine congrArg (Prod.mk _) (List.map_congr_left fun i _ => ?_)
    rw [hsame _ hlive, hf.byte_eq]

/-- Other unused tags change nothing. -/
theorem segRefill_spec {pool : List Vmem.Tag} (h : Vm.Inv held s)
    (hs : Vm.segRefill s kmap pool = some s') : Settled held (objByte s) s s' := by
  have hcall : Vm.call ⟨s, held⟩ (.segRefill kmap pool) = some ⟨s', held⟩ := by
    rw [Vm.call, hs]
    rfl
  have hok : Vm.CallOk ⟨s, held⟩ (.segRefill kmap pool) := trivial
  have hinv : Vm.Inv held s' := Vm.inv_call (t := ⟨s, held⟩) h hok hcall
  obtain ⟨map, hmap, hs⟩ := Option.bind_eq_some_iff.mp hs
  split at hs
  · cases hs
    refine ⟨hinv, rfl, fun o hno m map' hmap' e he => ?_, fun _ _ => rfl⟩
    have hget : (s.maps.set kmap { map with vmem := Vmem.withPool map.vmem pool }).get? m = some map' :=
      hmap'
    rw [Heap.get?_set hmap] at hget
    split at hget
    · cases hget
      exact hno kmap map hmap e he
    · exact hno m map' hget e he
  · cases hs

/-- **`tmakenode`** makes an empty file. -/
theorem tmakeRegular_spec {mode : ℕ} (h : Vm.Inv held s)
    (hs : tmakeRegular s o ⟨.vreg, mode, 0⟩ = some (tn, s')) :
    tn.vmobj = o ∧ FileOk s' tn [] ∧ Vm.Inv (o :: o :: held) s' ∧
      ∀ tn' f, FileOk s tn' f → tn'.vmobj ≠ o ∧ FileOk s' tn' f := by
  obtain ⟨s₁, hnew, hs⟩ := Option.bind_eq_some_iff.mp hs
  obtain ⟨s₂, hretain, hs⟩ := Option.bind_eq_some_iff.mp hs
  obtain ⟨rfl, rfl⟩ := Prod.mk.inj (Option.some.inj hs)
  obtain ⟨hsound₁, hkept₁, hfresh, obj, hobj, hone, hslots⟩ := Vm.aobjNew_spec h.sound hnew
  have hroom : ∀ obj', s₁.objs.get? o = some obj' → obj'.refcnt < 2 ^ 31 - 1 := by
    intro obj' hobj'
    obtain rfl := Option.some.inj (hobj.symm.trans hobj')
    omega
  obtain ⟨hsound₂, hkept₂⟩ := Vm.retain_spec hsound₁ hroom hretain
  have hmaps : s₂.maps = s.maps := hkept₂.maps_eq.trans hkept₁.maps_eq
  have hother : ∀ o', o' ≠ o → s₂.objs.get? o' = s.objs.get? o' := fun o' ho' =>
    (hkept₂.other_eq o' ho').trans (hkept₁.other_eq o' ho')
  -- a new object is not mapped, since the objects that are mapped are there
  have hnot : NotMapped s₂.maps o := by
    intro m map hmap e he heo
    rw [hmaps] at hmap
    obtain ⟨obj', hobj'⟩ := h.sound.holds.entry_valid m map hmap e he
    rw [heo, hfresh] at hobj'
    cases hobj'
  obtain ⟨obj', hobj', rfl⟩ := Vm.vmObjectRetain_eq hretain
  obtain rfl := Option.some.inj (hobj.symm.trans hobj')
  have hincr : Vm.incr 32 obj.refcnt = 2 := by
    rw [hone]
    decide
  refine ⟨rfl, ⟨rfl, rfl, by norm_num, ?_, hnot, fun i => ?_⟩, h.of_sound hmaps hsound₂, fun tn' f hf => ?_⟩
  · rw [Vm.refcntOf_setObj hobj, if_pos rfl, hincr]
  · have hslot : Vm.slotIn (Vm.setObj s₁ o { obj with refcnt := Vm.incr 32 obj.refcnt }).objs o
        (i / pgSize) = none := by
      unfold Vm.slotIn
      show ((s₁.objs.set o _).get? o).bind _ = none
      rw [Heap.get?_set hobj, if_pos rfl]
      simp [hslots]
    rw [objByte, Vm.content, hslot]
    rfl
  · have hne : tn'.vmobj ≠ o := by
      intro heq
      have hrefs := hf.refcnt_eq
      rw [refcntOf, heq, hfresh] at hrefs
      cases hrefs
    refine ⟨hne, hf.type_eq, hf.size_eq, hf.length_lt, ?_, ?_, fun i => ?_⟩
    · rw [refcntOf, hother _ hne]
      exact hf.refcnt_eq
    · exact fun m map hmap => hf.notMapped m map (hmaps ▸ hmap)
    · obtain ⟨objs, -, rfl⟩ := Vm.vmAobjNew_eq hnew
      have hslot : ∀ page, Vm.slotIn (Vm.setObj { s with objs := objs } o
          { obj with refcnt := Vm.incr 32 obj.refcnt }).objs tn'.vmobj page
            = Vm.slotIn s.objs tn'.vmobj page := by
        intro page
        unfold Vm.slotIn
        rw [hother _ hne]
      rw [← hf.byte_eq i, objByte, Vm.content, hslot]
      rfl

/-! ## Runs -/

/-- The files and their references. -/
structure Models (t : Files) (fs : List (List UInt8)) : Prop where
  inv : ∃ held, Vm.Inv held t.st
  length_eq : t.nodes.length = fs.length
  file : ∀ k tn, t.nodes[k]? = some tn → FileOk t.st tn (fs.getD k [])
  apart : ∀ (j k : ℕ) (tn tn' : Regular), t.nodes[j]? = some tn → t.nodes[k]? = some tn' → tn'.vmobj = tn.vmobj → k = j

/-- An element is one of the list or the last one. -/
theorem getElem?_snoc {α : Type*} {l : List α} {x y : α} {k : ℕ} (h : (l ++ [x])[k]? = some y) :
    (k < l.length ∧ l[k]? = some y) ∨ (k = l.length ∧ y = x) := by
  rcases Nat.lt_trichotomy k l.length with hlt | rfl | hgt
  · rw [List.getElem?_append_left hlt] at h
    exact .inl ⟨hlt, h⟩
  · rw [List.getElem?_concat_length] at h
    exact .inr ⟨rfl, (Option.some.inj h).symm⟩
  · rw [List.getElem?_eq_none (by simp; omega)] at h
    cases h

/-- The object of a node is the same after the node has been assigned. -/
theorem vmobj_set {nodes : List Regular} {j k : ℕ} {tn₁ : Regular} (hk : nodes[k]? = some tn)
    (hobj : tn'.vmobj = tn.vmobj) (hj : (nodes.set k tn')[j]? = some tn₁) :
    ∃ tn₂, nodes[j]? = some tn₂ ∧ tn₂.vmobj = tn₁.vmobj := by
  by_cases hjk : j = k
  · subst hjk
    rw [List.getElem?_set_self (List.getElem?_eq_some_iff.mp hk).1] at hj
    cases hj
    exact ⟨tn, hk, hobj.symm⟩
  · rw [List.getElem?_set_ne (Ne.symm hjk)] at hj
    exact ⟨tn₁, hj, rfl⟩

/-- One call. -/
theorem models_step {x : FileCall} {y : ℤ × List UInt8} (h : Models t fs) (hx : x.Small)
    (hs : fileStep t x = some (y, t')) : y = (refStep fs x).1 ∧ Models t' (refStep fs x).2 := by
  obtain ⟨held, hinv⟩ := h.inv
  cases x with
  | segRefill pool =>
      obtain ⟨s, hrefill, hs⟩ := Option.bind_eq_some_iff.mp hs
      obtain ⟨rfl, rfl⟩ := Prod.mk.inj (Option.some.inj hs)
      have hsettled := segRefill_spec hinv hrefill
      exact ⟨rfl, ⟨_, hsettled.inv⟩, h.length_eq, fun k tn hk => (h.file k tn hk).settled hsettled rfl,
        h.apart⟩
  -- the new file is the last one and has an object of its own
  | create o mode =>
      obtain ⟨⟨tn, s⟩, hmake, hs⟩ := Option.bind_eq_some_iff.mp hs
      obtain ⟨rfl, rfl⟩ := Prod.mk.inj (Option.some.inj hs)
      obtain ⟨rfl, hnew, hinv', hothers⟩ := tmakeRegular_spec hinv hmake
      refine ⟨rfl, ⟨_, hinv'⟩, by simp [refStep, h.length_eq], fun k tn' hk => ?_,
        fun j k tn₁ tn₂ hj hk heq => ?_⟩
      · rcases getElem?_snoc hk with ⟨hlt, hk⟩ | ⟨rfl, rfl⟩
        · obtain ⟨-, hf⟩ := hothers tn' _ (h.file k tn' hk)
          rwa [refStep, List.getD_append _ _ _ _ (h.length_eq ▸ hlt)]
        · rwa [refStep, h.length_eq, List.getD_append_right _ _ _ _ (Nat.le_refl _), Nat.sub_self]
      · rcases getElem?_snoc hj with ⟨-, hj'⟩ | ⟨rfl, rfl⟩
        · rcases getElem?_snoc hk with ⟨-, hk'⟩ | ⟨rfl, rfl⟩
          · exact h.apart j k tn₁ tn₂ hj' hk' heq
          · exact ((hothers tn₁ _ (h.file j tn₁ hj')).1 heq.symm).elim
        · rcases getElem?_snoc hk with ⟨-, hk'⟩ | ⟨rfl, rfl⟩
          · exact ((hothers tn₂ _ (h.file k tn₂ hk')).1 heq).elim
          · rfl
  | write k buf off new =>
      obtain ⟨tn, hk, hs⟩ := Option.bind_eq_some_iff.mp hs
      obtain ⟨⟨r, tn', s⟩, hwrite, hs⟩ := Option.bind_eq_some_iff.mp hs
      obtain ⟨rfl, rfl⟩ := Prod.mk.inj (Option.some.inj hs)
      obtain ⟨rfl, hnew, hobj, g, hsettled, hg⟩ := tmpWrite_spec hinv (h.file k tn hk) hx hwrite
      refine ⟨rfl, ⟨_, hsettled.inv⟩, by simp [refStep, h.length_eq], fun j tn₁ hj => ?_,
        fun i j tn₁ tn₂ hi hj heq => ?_⟩
      · by_cases hjk : j = k
        · subst hjk
          have hlt := (List.getElem?_eq_some_iff.mp hk).1
          rw [List.getElem?_set_self hlt] at hj
          cases hj
          rw [h.length_eq] at hlt
          simpa [refStep, List.getD_eq_getElem?_getD, List.getElem?_eq_getElem hlt] using hnew
        · have hj' : t.nodes[j]? = some tn₁ := by rwa [List.getElem?_set_ne (Ne.symm hjk)] at hj
          have hf := h.file j tn₁ hj'
          -- the objects of two files differ, so the other files are as they were
          have hne : tn₁.vmobj ≠ tn.vmobj := fun heq => hjk (h.apart k j tn tn₁ hk hj' heq)
          have hsame : (refStep fs (.write k buf off new)).2.getD j [] = fs.getD j [] := by
            simp [refStep, List.getD_eq_getElem?_getD, Ne.symm hjk]
          rw [hsame]
          exact hf.settled hsettled (hg _ hne (by rw [hf.refcnt_eq]; simp))
      · obtain ⟨tn₁', hi', hobj₁⟩ := vmobj_set hk hobj hi
        obtain ⟨tn₂', hj', hobj₂⟩ := vmobj_set hk hobj hj
        exact h.apart i j tn₁' tn₂' hi' hj' (by rw [hobj₁, hobj₂, heq])
  | read k nbyte off new =>
      obtain ⟨tn, hk, hs⟩ := Option.bind_eq_some_iff.mp hs
      obtain ⟨⟨x, s⟩, hread, hs⟩ := Option.bind_eq_some_iff.mp hs
      obtain ⟨rfl, rfl⟩ := Prod.mk.inj (Option.some.inj hs)
      obtain ⟨rfl, g, hsettled, hg⟩ := tmpRead_spec hinv (h.file k tn hk) hx hread
      refine ⟨rfl, ⟨_, hsettled.inv⟩, h.length_eq, fun j tn₁ hj => ?_, h.apart⟩
      have hf := h.file j tn₁ hj
      exact hf.settled hsettled (hg _ (by rw [hf.refcnt_eq]; simp))

/-- The calls one after the other. -/
theorem models_run {calls : List FileCall} {ys : List (ℤ × List UInt8)} (h : Models t fs)
    (hsmall : ∀ x ∈ calls, x.Small) (hrun : fileRun t calls = some (ys, t')) :
    ys = (refRun fs calls).1 ∧ Models t' (refRun fs calls).2 := by
  induction calls generalizing t fs ys with
  | nil =>
      obtain ⟨rfl, rfl⟩ := Prod.mk.inj (Option.some.inj hrun)
      exact ⟨rfl, h⟩
  | cons x calls ih =>
      obtain ⟨⟨y, t₁⟩, hstep, hrun⟩ := Option.bind_eq_some_iff.mp hrun
      obtain ⟨⟨ys', t₂⟩, hrest, hrun⟩ := Option.bind_eq_some_iff.mp hrun
      obtain ⟨rfl, rfl⟩ := Prod.mk.inj (Option.some.inj hrun)
      obtain ⟨hy, h₁⟩ := models_step h (hsmall x List.mem_cons_self) hstep
      obtain ⟨hys, h₂⟩ := ih h₁ (fun z hz => hsmall z (List.mem_cons_of_mem _ hz)) hrest
      exact ⟨congrArg₂ List.cons hy hys, h₂⟩

/-- **Regular files are byte arrays.** -/
theorem files_refine {held : List ObjId} {calls : List FileCall} {ys : List (ℤ × List UInt8)}
    (h : Vm.Inv held s) (hsmall : ∀ x ∈ calls, x.Small)
    (hrun : fileRun ⟨s, []⟩ calls = some (ys, t)) :
    ys = (refRun [] calls).1 ∧
      t.nodes.map (fun tn => tn.attr.size) = (refRun [] calls).2.map List.length := by
  have hmodels : Models ⟨s, []⟩ [] := ⟨⟨held, h⟩, rfl, by simp, by simp⟩
  obtain ⟨rfl, hend⟩ := models_run hmodels hsmall hrun
  refine ⟨rfl, List.ext_getElem ?_ fun k hk hk' => ?_⟩
  · rw [List.length_map, List.length_map, hend.length_eq]
  · rw [List.length_map] at hk hk'
    have hf := hend.file k _ (List.getElem?_eq_getElem hk)
    rw [List.getElem_map, List.getElem_map, hf.size_eq, List.getD_eq_getElem _ _ hk']

/-- A file, two bytes at the end of its first page, and a read from before them to after them. -/
def twoBytes : List FileCall :=
  [.create 0 0, .segRefill [2, 3], .write 0 [7, 8] 4095 fun v => if v % 4096 = 0 then (1, 1) else (0, 0),
    .segRefill [4, 5], .read 0 9 4094 fun _ => (2, 2)]

/-- The three bytes from the offset 4094 on. -/
theorem files_refine_two :
    (fileRun ⟨Vm.bootSys.st, []⟩ twoBytes).map Prod.fst
        = some [(0, []), (0, []), (2, []), (0, []), (3, [0, 7, 8])] ∧
      ∃ ys t, fileRun ⟨Vm.bootSys.st, []⟩ twoBytes = some (ys, t) ∧
        t.nodes.map (fun tn => tn.attr.size) = [4097] := by
  have hrun : (fileRun ⟨Vm.bootSys.st, []⟩ twoBytes).map Prod.fst
      = some [(0, []), (0, []), (2, []), (0, []), (3, [0, 7, 8])] := by decide +kernel
  refine ⟨hrun, ?_⟩
  obtain ⟨⟨ys, t⟩, ht, -⟩ := Option.map_eq_some_iff.mp hrun
  refine ⟨ys, t, ht, ?_⟩
  have hsize : (refRun [] twoBytes).2.map List.length = [4097] := by decide +kernel
  rw [← hsize]
  exact (files_refine Vm.boot_bootSys.inv (by simp [twoBytes, FileCall.Small]) ht).2

end Scalux.Tmpfs
