import Mathlib.Control.Monad.Basic
import Mathlib.Data.Int.Basic
import Mathlib.Data.List.Basic
import Mathlib.Data.List.DropRight
import Mathlib.Data.List.Induction

/-! # Path lookup

`vfs_lookup` (`posix/vfs.c`).  It copies the pathname into a buffer, cuts the slashes off its end and then
cuts the names off its front one by one, by writing NULs into the buffer.

* **`vfsLookup_eq_walkPath_iff`**: a lookup is a left fold of the lookups of the names between the slashes,
  except for a pathname of two or more slashes and nothing else.
* **`vfsLoop_eq_walk`**: the scan of the buffer, with the creation of the last name. -/

namespace Scalux.Posix

/-- A C string, without its terminator. -/
abbrev Name := List UInt8

/-- `'/'`. -/
def slash : UInt8 := 47

/-- `'.'`. -/
def dot : UInt8 := 46

/-- The C string at the front of a buffer. -/
def cstr (buf : List UInt8) : Name := buf.takeWhile (· ≠ 0)

/-- `vtype_t`. -/
inductive Vtype
  | vnon | vreg | vdir | vchr
  deriving DecidableEq, Repr

/-- `vattr_t`, without the device. -/
structure Vattr where
  type : Vtype
  mode : ℕ
  size : ℕ
  deriving DecidableEq, Repr

/-- `enum lookup_flags`. -/
structure LookupFlags where
  creat : Bool
  mustDir : Bool
  deriving DecidableEq, Repr

/-- A part of the kernel: nothing is returned after a fatal error, or after an access outside of an
array. -/
abbrev Kernel (σ : Type) := StateT σ Option

/-- A part of `vfs_lookup`, which may return a negative number early. -/
abbrev Walk (σ : Type) := ExceptT ℤ (Kernel σ)

/-- The operations on vnodes: `vnops::lookup` and `vnops::create`, each with its result and `*out`, the
field `vfsmountedhere`, and `vfsops::root`. -/
structure Vnops (σ V F : Type) where
  lookup : V → Name → Kernel σ (ℤ × V)
  create : V → Name → Vattr → Kernel σ (ℤ × V)
  vfsmountedhere : V → σ → Option F
  root : F → Kernel σ (ℤ × V)

section

variable {σ V F : Type} (ops : Vnops σ V F)

/-- There is no result. -/
def stuck {α : Type} : Walk σ α := ExceptT.mk fun _ => none

/-- A call whose negative result is returned at once. -/
def call (m : Kernel σ (ℤ × V)) : Walk σ V := do
  let (r, vn) ← (m : Walk σ (ℤ × V))
  if r < 0 then throw r
  return vn

/-- The loop `while (vn->vfsmountedhere != NULL)`, at most `n` rounds of it. -/
def followMounts : ℕ → V → Walk σ V
  | 0, _ => stuck
  | n + 1, vn => do
      match ops.vfsmountedhere vn (← get) with
      | none => return vn
      | some vfs => followMounts n (← call (ops.root vfs))

/-- `reduce`. -/
def reduce (vn : V) : V := vn

/-- The loop that moves `next` up to the end of the name at `sub`: its result is `sublen`. -/
def scanName : List UInt8 → Option ℕ
  | [] => none
  | c :: rest => if c = 0 ∨ c = slash then some 0 else (scanName rest).map (· + 1)

/-- The loop `while (path[last] == '/') path[last--] = '\0'`; the index after 0 is outside of `path`. -/
def stripSlashes (path : List UInt8) : ℕ → Option (List UInt8)
  | 0 => do
      let c ← path[0]?
      if c = slash then none else some path
  | last + 1 => do
      let c ← path[last + 1]?
      if c = slash then stripSlashes (path.set (last + 1) 0) last else some path

/-- The name ends inside the text. -/
theorem scanName_lt {sub : List UInt8} {sublen : ℕ} (h : scanName sub = some sublen) :
    sublen < sub.length := by
  induction sub generalizing sublen with
  | nil => cases h
  | cons c rest ih =>
      rw [scanName] at h
      split at h
      · cases h
        exact Nat.succ_pos _
      · obtain ⟨k, hk, rfl⟩ := Option.map_eq_some_iff.mp h
        exact Nat.succ_lt_succ (ih hk)

/-- What `vfs_lookup` does with a name. -/
def visit (mounts : ℕ) (flags : LookupFlags) (attr : Vattr) (last : Bool) (vn : V) (sub : Name) :
    Walk σ V := do
  let vn ← if !last || !flags.creat then call (ops.lookup vn sub) else call (ops.create vn sub attr)
  followMounts ops mounts vn

/-- The code from `loop:` on, with the buffer from `sub` on. -/
def vfsLoop (mounts : ℕ) (flags : LookupFlags) (attr : Vattr) (vn : V) (sub : List UInt8) : Walk σ V :=
  match hscan : scanName sub with
  | none => stuck
  | some sublen => do
      let last := sub[sublen]? == some 0
      let buf := if last then sub else sub.set sublen 0
      -- a component that is empty or a dot is passed over
      let vn ← if cstr buf = [dot] ∨ sublen = 0 then pure vn
        else visit ops mounts flags attr last vn (cstr buf)
      if last then return vn
      vfsLoop mounts flags attr vn (buf.drop (sublen + 1))
termination_by sub.length
decreasing_by
  have hlt := scanName_lt hscan
  split <;> simp <;> omega

/-- `vfs_lookup` from the copy into `char path[255]` on; `path[len - 1]` of an empty string is outside of
`path`. -/
def lookupFrom (mounts : ℕ) (flags : LookupFlags) (attr : Vattr) (vn : V) (pathname : Name) : Walk σ V :=
  let len := pathname.length
  let path := pathname ++ [0]
  if 255 ≤ len ∨ len = 0 then stuck
  else if path[len - 1]? = some slash then
    match stripSlashes path (len - 1) with
    | none => stuck
    | some path =>
        -- nothing but slashes
        if path.head? = some 0 then pure vn else reduce <$> vfsLoop ops mounts flags attr vn path
  else (fun vn => if flags.mustDir then reduce vn else vn) <$> vfsLoop ops mounts flags attr vn path

/-- `vfs_lookup`. -/
def vfsLookup (mounts : ℕ) (rootVnode : V) (cwd : Option V) (pathname : Name) (flags : LookupFlags)
    (attr : Vattr) : Walk σ V :=
  match pathname.head? == some slash, cwd with
  | false, some vn => lookupFrom ops mounts flags attr vn pathname
  | _, _ =>
      if (pathname ++ [0])[1]? = some 0 then pure rootVnode
      else lookupFrom ops mounts flags attr rootVnode pathname

/-! ## The fold -/

/-- A name that is looked up: not the empty one, and not `.`. -/
def Counts (c : Name) : Prop := c ≠ [] ∧ c ≠ [dot]

instance (c : Name) : Decidable (Counts c) := inferInstanceAs (Decidable (_ ∧ _))

/-- The names of a path: what is between the slashes, without the empty names and `.`. -/
def components (path : Name) : List Name :=
  (path.splitOn slash).filter fun c => Counts c

/-- The lookups of the names one after the other. -/
def walk (mounts : ℕ) (vn : V) (names : List Name) : Walk σ V :=
  names.foldlM (fun vn name => do followMounts ops mounts (← call (ops.lookup vn name))) vn

/-- The lookups of the names of a path, from the root or from the current directory on. -/
def walkPath (mounts : ℕ) (rootVnode cwd : V) (path : Name) : Walk σ V :=
  walk ops mounts (if path.head? = some slash then rootVnode else cwd) (components path)

end

/-- A pathname that `vfs_lookup` takes. -/
structure Pathname where
  chars : Name
  nonzero : 0 ∉ chars
  ne_nil : chars ≠ []
  length_le : chars.length ≤ 254

/-! ## Runs of a walk -/

section

variable {σ V : Type}

/-- The two monads of a walk, unfolded. -/
theorem run_bind {α β : Type} (m : Walk σ α) (f : α → Walk σ β) (s : σ) :
    (m >>= f).run.run s = (m.run.run s).bind fun x =>
      match x.1 with
      | .ok a => (f a).run.run x.2
      | .error r => some (.error r, x.2) := by
  rw [ExceptT.run_bind, StateT.run_bind]
  congr 1
  funext x
  obtain ⟨r, s'⟩ := x
  cases r <;> rfl

/-- A call of an operation. -/
theorem run_call (m : Kernel σ (ℤ × V)) (s : σ) : (call m).run.run s
    = (m s).map fun x => (if x.1.1 < 0 then .error x.1.1 else .ok x.1.2, x.2) := by
  have hlift : (liftM m : Walk σ (ℤ × V)).run.run s = (m s).map fun x => (.ok x.1, x.2) := by
    show (m s).bind (fun x => some (Except.ok x.1, x.2)) = _
    exact Option.map_eq_bind.symm
  unfold call
  rw [run_bind, hlift]
  cases m s with
  | none => rfl
  | some x =>
      rw [Option.map_some, Option.map_some, Option.bind_some]
      by_cases hr : x.1.1 < 0
      · simp only [hr, if_true]
        rfl
      · simp only [hr, if_false]
        rfl

end

/-! ## The buffer -/

/-- A name of a path: there is no NUL and no slash in it. -/
def IsName (x : Name) : Prop := 0 ∉ x ∧ slash ∉ x

variable {σ V F : Type} {ops : Vnops σ V F} {mounts : ℕ} {flags : LookupFlags} {attr : Vattr} {vn : V}
  {x w : Name} {rest z : List UInt8}

/-- The name in front of a slash or of the terminator. -/
theorem scanName_append {c : UInt8} (hx : IsName x) (hc : c = 0 ∨ c = slash) :
    scanName (x ++ c :: rest) = some x.length := by
  induction x with
  | nil => exact if_pos hc
  | cons a x ih =>
      obtain ⟨hzero, hslash⟩ := hx
      rw [List.mem_cons, not_or] at hzero hslash
      have ha : ¬ (a = 0 ∨ a = slash) := not_or.mpr ⟨Ne.symm hzero.1, Ne.symm hslash.1⟩
      rw [List.cons_append, scanName, if_neg ha, ih ⟨hzero.2, hslash.2⟩]
      rfl

/-- The string in front of its terminator. -/
theorem cstr_append (hx : 0 ∉ x) : cstr (x ++ 0 :: rest) = x := by
  rw [cstr, List.takeWhile_append_of_pos]
  · simp
  · intro a ha
    have hne : a ≠ 0 := ne_of_mem_of_not_mem ha hx
    simpa using hne

/-- The scan of the last name. -/
theorem vfsLoop_last (hx : IsName x) : vfsLoop ops mounts flags attr vn (x ++ 0 :: z)
    = if x = [dot] ∨ x = [] then pure vn else visit ops mounts flags attr true vn x := by
  rw [vfsLoop]
  split
  · rename_i hscan
    rw [scanName_append hx (.inl rfl)] at hscan
    cases hscan
  · rename_i sublen hscan
    rw [scanName_append hx (.inl rfl)] at hscan
    cases hscan
    have hlast : (x ++ 0 :: z)[x.length]? = some 0 := by simp
    simp only [hlast, BEq.rfl, if_true, cstr_append hx.1, List.length_eq_zero_iff, bind_pure]

/-- The scan of a name before a slash. -/
theorem vfsLoop_more (hx : IsName x) : vfsLoop ops mounts flags attr vn (x ++ slash :: rest)
    = (if x = [dot] ∨ x = [] then pure vn else visit ops mounts flags attr false vn x) >>= fun vn =>
        vfsLoop ops mounts flags attr vn rest := by
  rw [vfsLoop]
  split
  · rename_i hscan
    rw [scanName_append hx (.inr rfl)] at hscan
    cases hscan
  · rename_i sublen hscan
    rw [scanName_append hx (.inr rfl)] at hscan
    cases hscan
    have hlast : ((x ++ slash :: rest)[x.length]? == some 0) = false := by simp [slash]
    have hset : (x ++ slash :: rest).set x.length 0 = x ++ 0 :: rest := by simp
    have hdrop : (x ++ 0 :: rest).drop (x.length + 1) = rest := by simp
    simp only [hlast, Bool.false_eq_true, if_false, hset, hdrop, cstr_append hx.1,
      List.length_eq_zero_iff]
    split
    · rfl
    · rfl

/-! ## The names -/

/-- The path of the names `ws`, each with a slash after it, and the name `w`. -/
def joined (ws : List Name) (w : Name) : Name := ws.flatMap (· ++ [slash]) ++ w

/-- The joined names are split where they were joined. -/
theorem splitOn_joined {ws : List Name} (hws : ∀ x ∈ ws, slash ∉ x) (hw : slash ∉ w) :
    (joined ws w).splitOn slash = ws ++ [w] := by
  have hno : ∀ {x : Name}, slash ∉ x → ∀ c ∈ x, (c == slash) = false := by
    intro x hx c hc
    have hne : c ≠ slash := ne_of_mem_of_not_mem hc hx
    simpa using hne
  induction ws with
  | nil => exact List.splitOnP_eq_singleton (hno hw)
  | cons x ws ih =>
      have hcons : joined (x :: ws) w = x ++ slash :: joined ws w := by simp [joined]
      rw [hcons, List.splitOn, List.splitOnP_append_cons_of_forall_mem (hno (hws x List.mem_cons_self)) _
        BEq.rfl, ← List.splitOn, ih fun y hy => hws y (List.mem_cons_of_mem _ hy)]
      rfl

/-- A path is the path of its names. -/
theorem exists_joined (p : Name) (hp : 0 ∉ p) :
    ∃ ws w, p = joined ws w ∧ (∀ x ∈ ws, IsName x) ∧ IsName w := by
  induction p with
  | nil => exact ⟨[], [], rfl, by simp, by simp [IsName]⟩
  | cons c p ih =>
      rw [List.mem_cons, not_or] at hp
      obtain ⟨ws, w, rfl, hws, hw⟩ := ih hp.2
      by_cases hc : c = slash
      · refine ⟨[] :: ws, w, by simp [joined, hc], fun x hx => ?_, hw⟩
        rcases List.mem_cons.mp hx with rfl | hx
        · simp [IsName]
        · exact hws x hx
      · -- the character belongs to the first name
        have hcons : ∀ {x : Name}, IsName x → IsName (c :: x) := by
          intro x hx
          refine ⟨?_, ?_⟩
          · rw [List.mem_cons, not_or]
            exact ⟨hp.1, hx.1⟩
          · rw [List.mem_cons, not_or]
            exact ⟨Ne.symm hc, hx.2⟩
        cases ws with
        | nil => exact ⟨[], c :: w, rfl, by simp, hcons hw⟩
        | cons x ws =>
            refine ⟨(c :: x) :: ws, w, by simp [joined], fun y hy => ?_, hw⟩
            rcases List.mem_cons.mp hy with rfl | hy
            · exact hcons (hws x List.mem_cons_self)
            · exact hws y (List.mem_cons_of_mem _ hy)

/-- The first name is looked up and the mounts followed, then the rest is walked. -/
theorem walk_cons {names : List Name} : walk ops mounts vn (x :: names)
    = (call (ops.lookup vn x) >>= followMounts ops mounts) >>= fun vn => walk ops mounts vn names :=
  List.foldlM_cons

/-- A name that is not the last is looked up. -/
theorem visit_false :
    visit ops mounts flags attr false vn x = call (ops.lookup vn x) >>= followMounts ops mounts := rfl

/-- **The scan of the buffer** looks the names up that count, and looks up or creates the last one. -/
theorem vfsLoop_eq_walk {ws : List Name} (hws : ∀ x ∈ ws, IsName x) (hw : IsName w) :
    vfsLoop ops mounts flags attr vn (joined ws w ++ 0 :: z)
      = walk ops mounts vn (ws.filter fun c => Counts c) >>= fun vn =>
          if Counts w then visit ops mounts flags attr true vn w else pure vn := by
  have hcounts : ∀ (x : Name) (m m' : Walk σ V),
      (if x = [dot] ∨ x = [] then m else m') = if Counts x then m' else m := by
    intro x m m'
    by_cases hx : x = [dot] ∨ x = []
    · rw [if_pos hx, if_neg]
      rintro ⟨hnil, hdot⟩
      exact hx.elim hdot hnil
    · rw [not_or] at hx
      rw [if_neg (not_or.mpr hx), if_pos ⟨hx.2, hx.1⟩]
  induction ws generalizing vn with
  | nil =>
      rw [joined, List.flatMap_nil, List.nil_append, vfsLoop_last hw, hcounts, List.filter_nil, walk,
        List.foldlM_nil, pure_bind]
  | cons x ws ih =>
      have hcons : joined (x :: ws) w ++ 0 :: z = x ++ slash :: (joined ws w ++ 0 :: z) := by
        simp [joined]
      have hrest := fun vn => @ih vn fun y hy => hws y (List.mem_cons_of_mem _ hy)
      rw [hcons, vfsLoop_more (hws x List.mem_cons_self), hcounts]
      simp only [hrest]
      -- an empty component or a dot is passed over, any other is looked up
      by_cases hx : Counts x
      · rw [if_pos hx, List.filter_cons_of_pos (by simpa using hx), walk_cons, visit_false]
        simp only [bind_assoc]
      · rw [if_neg hx, List.filter_cons_of_neg (by simpa using hx), pure_bind]

/-! ## The slashes at the end -/

/-- The stripping ends at a character that is no slash. -/
theorem stripSlashes_of_ne {path : List UInt8} {n : ℕ} {c : UInt8} (hn : path[n]? = some c)
    (hc : c ≠ slash) : stripSlashes path n = some path := by
  cases n with
  | zero => simp [stripSlashes, hn, hc]
  | succ n => simp [stripSlashes, hn, hc]

/-- A slash is overwritten, and the character before it is next. -/
theorem stripSlashes_succ {path : List UInt8} {n : ℕ} (hn : path[n + 1]? = some slash) :
    stripSlashes path (n + 1) = stripSlashes (path.set (n + 1) 0) n := by
  simp [stripSlashes, hn]

/-- Overwriting the last of the slashes leaves one less. -/
theorem set_replicate (q z : Name) (k : ℕ) :
    (q ++ List.replicate (k + 1) slash ++ z).set (q.length + k) 0
      = q ++ List.replicate k slash ++ 0 :: z := by
  have hsplit : q ++ List.replicate (k + 1) slash ++ z
      = (q ++ List.replicate k slash) ++ slash :: z := by simp [List.replicate_succ']
  have hlen : q.length + k = (q ++ List.replicate k slash).length := by simp
  rw [hsplit, hlen, List.set_append_right _ _ (Nat.le_refl _), Nat.sub_self, List.set_cons_zero]

/-- The last of the slashes. -/
theorem getElem?_replicate_slash (q z : Name) (k : ℕ) :
    (q ++ List.replicate (k + 1) slash ++ z)[q.length + k]? = some slash := by
  simp [List.getElem?_append]

/-- The slashes after a name are replaced by NULs. -/
theorem stripSlashes_replicate {q : Name} (hq : q ≠ []) (hlast : q.getLast? ≠ some slash) (k : ℕ)
    (z : List UInt8) : stripSlashes (q ++ List.replicate k slash ++ z) (q.length + k - 1)
      = some (q ++ List.replicate k 0 ++ z) := by
  obtain ⟨n, hn⟩ := Nat.exists_eq_succ_of_ne_zero (mt List.length_eq_zero_iff.mp hq)
  induction k generalizing z with
  | zero =>
      have hget : (q ++ z)[q.length + 0 - 1]? = q.getLast? := by
        rw [List.getElem?_append_left (by omega), List.getLast?_eq_getElem?]
        rfl
      obtain ⟨c, hc⟩ := Option.ne_none_iff_exists'.mp (mt List.getLast?_eq_none_iff.mp hq)
      rw [hc] at hlast hget
      rw [List.replicate_zero, List.append_nil, List.replicate_zero, List.append_nil]
      exact stripSlashes_of_ne hget fun h => hlast (congrArg some h)
  | succ k ih =>
      -- the last slash is overwritten and the loop looks at the character before it
      have hidx : q.length + (k + 1) - 1 = (n + k) + 1 := by omega
      have hidx' : q.length + k = (n + k) + 1 := by omega
      have hget := getElem?_replicate_slash q z k
      have hset := set_replicate q z k
      have ih := ih (0 :: z)
      rw [hidx'] at hget hset ih
      rw [hidx, stripSlashes_succ hget, hset]
      simpa [List.replicate_succ'] using ih

/-- Nothing but slashes: the loop runs out of the buffer. -/
theorem stripSlashes_slashes (k : ℕ) (z : List UInt8) :
    stripSlashes (List.replicate (k + 1) slash ++ z) k = none := by
  induction k generalizing z with
  | zero => simp [stripSlashes]
  | succ k ih =>
      have hget := getElem?_replicate_slash [] z (k + 1)
      have hset := set_replicate [] z (k + 1)
      rw [List.nil_append, List.length_nil, Nat.zero_add] at hget hset
      rw [stripSlashes_succ hget, hset]
      exact ih (0 :: z)

/-- The slashes after the last name. -/
theorem exists_replicate {p : Name} (hp : ∃ c ∈ p, c ≠ slash) :
    ∃ q k, p = q ++ List.replicate k slash ∧ q ≠ [] ∧ q.getLast? ≠ some slash := by
  induction p using List.reverseRecOn with
  | nil => simp at hp
  | append_singleton p c ih =>
      by_cases hc : c = slash
      · subst hc
        obtain ⟨d, hd, hne⟩ := hp
        have hd : d ∈ p := by
          rcases List.mem_append.mp hd with hd | hd
          · exact hd
          · exact (hne (List.mem_singleton.mp hd)).elim
        obtain ⟨q, k, rfl, hq, hlast⟩ := ih ⟨d, hd, hne⟩
        exact ⟨q, k + 1, by simp [List.replicate_succ'], hq, hlast⟩
      · exact ⟨p ++ [c], 0, by simp, by simp, by simpa using hc⟩

/-- Slashes at the end make no component. -/
theorem components_replicate (q : Name) (k : ℕ) :
    components (q ++ List.replicate k slash) = components q := by
  induction k with
  | zero => simp
  | succ k ih =>
      have hsplit : q ++ List.replicate (k + 1) slash = (q ++ List.replicate k slash) ++ slash :: [] := by
        simp [List.replicate_succ']
      have hnames := List.splitOnP_append_cons (p := (· == slash)) (q ++ List.replicate k slash) []
        (BEq.rfl : (slash == slash) = true)
      rw [← ih, components, hsplit, List.splitOn, hnames, List.filter_append, List.splitOnP_nil,
        ← List.splitOn]
      simp [components, Counts]

/-! ## The lookup -/

/-- The scan of a whole buffer, if no name is to be created. -/
theorem vfsLoop_eq_components {p : Name} (hp : 0 ∉ p) (d : Bool) :
    vfsLoop ops mounts ⟨false, d⟩ attr vn (p ++ 0 :: z) = walk ops mounts vn (components p) := by
  obtain ⟨ws, w, rfl, hws, hw⟩ := exists_joined p hp
  have hvisit : ∀ vn : V, visit ops mounts ⟨false, d⟩ attr true vn w
      = visit ops mounts ⟨false, d⟩ attr false vn w := fun _ => rfl
  rw [vfsLoop_eq_walk hws hw, components, splitOn_joined (fun x hx => (hws x hx).2) hw.2,
    List.filter_append, walk, walk, List.foldlM_append]
  congr 1
  funext vn
  by_cases hcounts : Counts w
  · simp [hcounts, hvisit, visit_false]
  · simp [hcounts]

/-- A path without a name in it. -/
theorem eq_replicate_of_no_name {p : Name} (h : ¬ ∃ c ∈ p, c ≠ slash) :
    p = List.replicate p.length slash := by
  refine List.eq_replicate_iff.mpr ⟨rfl, fun c hc => ?_⟩
  by_contra hne
  exact h ⟨c, hc, hne⟩

/-- A path of slashes has no component. -/
theorem components_of_no_name {p : Name} (h : ¬ ∃ c ∈ p, c ≠ slash) : components p = [] := by
  have hnil := components_replicate [] p.length
  rw [List.nil_append, ← eq_replicate_of_no_name h] at hnil
  rw [hnil]
  rfl

/-- A lookup of a path with a name in it is a scan of the path without the slashes at its end. -/
theorem lookupFrom_eq_vfsLoop (ops : Vnops σ V F) (mounts : ℕ) (flags : LookupFlags) (attr : Vattr)
    (vn : V) {q : Name} {k : ℕ} (hq : q ≠ []) (hlast : q.getLast? ≠ some slash) (hzero : 0 ∉ q)
    (hlen : q.length + k ≤ 254) :
    ∃ z, lookupFrom ops mounts flags attr vn (q ++ List.replicate k slash)
      = vfsLoop ops mounts flags attr vn (q ++ 0 :: z) := by
  have hpos : 0 < q.length := List.length_pos_of_ne_nil hq
  have hreduce : (reduce : V → V) = id := rfl
  have hflags : (fun vn : V => if flags.mustDir then reduce vn else vn) = id := by
    funext vn
    exact ite_self vn
  unfold lookupFrom
  dsimp only
  rw [List.length_append, List.length_replicate, if_neg (by omega)]
  cases k with
  | zero =>
      -- no slash at the end: nothing is stripped
      have hget : (q ++ List.replicate 0 slash ++ [0])[q.length + 0 - 1]? = q.getLast? := by
        rw [List.replicate_zero, List.append_nil, List.getElem?_append_left (by omega),
          List.getLast?_eq_getElem?]
        rfl
      rw [hget, if_neg hlast, hflags, id_map, List.replicate_zero, List.append_nil]
      exact ⟨[], rfl⟩
  | succ k =>
      have hget : (q ++ List.replicate (k + 1) slash ++ [0])[q.length + (k + 1) - 1]? = some slash :=
        getElem?_replicate_slash q [0] k
      -- the slashes at the end are overwritten by zeros, and the name before them stays
      have hhead : (q ++ List.replicate (k + 1) 0 ++ [0]).head? ≠ some 0 := by
        obtain ⟨c, q', rfl⟩ := List.exists_cons_of_ne_nil hq
        rw [List.mem_cons, not_or] at hzero
        simpa using Ne.symm hzero.1
      rw [if_pos hget, stripSlashes_replicate hq hlast]
      dsimp only
      rw [if_neg hhead, hreduce, id_map, List.append_assoc]
      exact ⟨List.replicate k 0 ++ [0], rfl⟩

/-- Where a lookup begins. -/
theorem vfsLookup_some {rootVnode cwd : V} {p : Name} :
    vfsLookup ops mounts rootVnode (some cwd) p flags attr
      = if p.head? = some slash then
          if (p ++ [0])[1]? = some 0 then pure rootVnode
          else lookupFrom ops mounts flags attr rootVnode p
        else lookupFrom ops mounts flags attr cwd p := by
  unfold vfsLookup
  by_cases hhead : p.head? = some slash
  · rw [if_pos hhead, hhead, BEq.rfl]
  · rw [if_neg hhead, beq_eq_false_iff_ne.mpr hhead]

/-- A lookup of a path with a name in it. -/
theorem vfsLookup_of_name {rootVnode cwd : V} {p : Name} {d : Bool} (hzero : 0 ∉ p)
    (hlen : p.length ≤ 254) (hname : ∃ c ∈ p, c ≠ slash) :
    vfsLookup ops mounts rootVnode (some cwd) p ⟨false, d⟩ attr
      = walkPath ops mounts rootVnode cwd p := by
  obtain ⟨q, k, rfl, hq, hlast⟩ := exists_replicate hname
  rw [List.length_append, List.length_replicate] at hlen
  have hzeroq : 0 ∉ q := fun h => hzero (List.mem_append_left _ h)
  have hfrom : ∀ vn : V, lookupFrom ops mounts ⟨false, d⟩ attr vn (q ++ List.replicate k slash)
      = walk ops mounts vn (components (q ++ List.replicate k slash)) := by
    intro vn
    obtain ⟨z, hz⟩ := lookupFrom_eq_vfsLoop ops mounts ⟨false, d⟩ attr vn hq hlast hzeroq hlen
    rw [hz, vfsLoop_eq_components hzeroq, components_replicate]
  rw [vfsLookup_some, walkPath]
  by_cases hhead : (q ++ List.replicate k slash).head? = some slash
  · -- the name is after the first slash
    have hsecond : (q ++ List.replicate k slash ++ [0])[1]? ≠ some 0 := by
      obtain ⟨c, q', rfl⟩ := List.exists_cons_of_ne_nil hq
      rw [List.cons_append, List.head?_cons, Option.some_inj] at hhead
      subst hhead
      cases q' with
      | nil => simp at hlast
      | cons b q' =>
          rw [List.mem_cons, List.mem_cons, not_or, not_or] at hzeroq
          simpa using Ne.symm hzeroq.2.1
    rw [if_pos hhead, if_neg hsecond, if_pos hhead, hfrom]
  · rw [if_neg hhead, if_neg hhead, hfrom]

/-- A lookup of two or more slashes goes in front of the buffer. -/
theorem vfsLookup_slashes {rootVnode cwd : V} (k : ℕ) :
    vfsLookup ops mounts rootVnode (some cwd) (List.replicate (k + 2) slash) flags attr = stuck := by
  have hget : (List.replicate (k + 2) slash ++ [0])[k + 2 - 1]? = some slash := by
    have hget := getElem?_replicate_slash [] [0] (k + 1)
    rwa [List.nil_append, List.length_nil, Nat.zero_add] at hget
  have hfrom : lookupFrom ops mounts flags attr rootVnode (List.replicate (k + 2) slash) = stuck := by
    unfold lookupFrom
    dsimp only
    rw [List.length_replicate]
    by_cases hlen : 255 ≤ k + 2 ∨ k + 2 = 0
    · rw [if_pos hlen]
    · have hstrip : stripSlashes (List.replicate (k + 2) slash ++ [0]) (k + 2 - 1) = none :=
        stripSlashes_slashes (k + 1) [0]
      rw [if_neg hlen, if_pos hget, hstrip]
  rw [vfsLookup_some, hfrom]
  simp [List.replicate_succ, slash]

/-! ## The last name -/

/-- The names of a path, with the empty ones; the slashes at its end do not count. -/
def allNames (path : Name) : List Name := (path.rdropWhile (· == slash)).splitOn slash

/-- The names that are looked up before the last one. -/
def namesBefore (path : Name) : List Name := (allNames path).dropLast.filter fun c => Counts c

/-- The last name. -/
def lastName (path : Name) : Name := (allNames path).getLastD []

/-- `vfs_lookup` returns the root for a path of one character, if it begins at the root. -/
def IsShortcut (cwd : Option V) (path : Name) : Prop :=
  (path.head? = some slash ∨ cwd = none) ∧ path.length = 1

instance (cwd : Option V) (path : Name) : Decidable (IsShortcut cwd path) :=
  decidable_of_iff ((path.head? = some slash ∨ cwd.isNone = true) ∧ path.length = 1)
    (by rw [IsShortcut, Option.isNone_iff_eq_none])

/-- Where a lookup begins. -/
def startOf (rootVnode : V) (cwd : Option V) (path : Name) : V :=
  if path.head? = some slash then rootVnode else cwd.getD rootVnode

/-- Dropping the slashes at the end. -/
theorem rdropWhile_replicate {q : Name} (hlast : q.getLast? ≠ some slash) (k : ℕ) :
    (q ++ List.replicate k slash).rdropWhile (· == slash) = q := by
  induction k with
  | zero =>
      rw [List.replicate_zero, List.append_nil]
      refine List.rdropWhile_eq_self_iff.mpr fun hq => ?_
      rw [List.getLast?_eq_some_getLast hq] at hlast
      simpa using hlast
  | succ k ih =>
      rw [List.replicate_succ', ← List.append_assoc, List.rdropWhile_concat_pos _ _ _ (by simp), ih]

/-- A lookup, where it begins, with the creation of the last name. -/
theorem lookupFrom_eq_last {p : Name} (hzero : 0 ∉ p) (hlen : p.length ≤ 254)
    (hname : ∃ c ∈ p, c ≠ slash) : lookupFrom ops mounts flags attr vn p
      = walk ops mounts vn (namesBefore p) >>= fun vn =>
          if Counts (lastName p) then visit ops mounts flags attr true vn (lastName p) else pure vn := by
  obtain ⟨q, k, rfl, hq, hlast⟩ := exists_replicate hname
  rw [List.length_append, List.length_replicate] at hlen
  have hzeroq : 0 ∉ q := fun h => hzero (List.mem_append_left _ h)
  obtain ⟨z, hz⟩ := lookupFrom_eq_vfsLoop ops mounts flags attr vn hq hlast hzeroq hlen
  have hdrop := rdropWhile_replicate hlast k
  obtain ⟨ws, w, rfl, hws, hw⟩ := exists_joined q hzeroq
  have hall : allNames (joined ws w ++ List.replicate k slash) = ws ++ [w] := by
    rw [allNames, hdrop, splitOn_joined (fun x hx => (hws x hx).2) hw.2]
  have hlastName : lastName (joined ws w ++ List.replicate k slash) = w := by
    rw [lastName, hall, List.getLastD_concat]
  have hbefore : namesBefore (joined ws w ++ List.replicate k slash)
      = ws.filter fun c => Counts c := by
    rw [namesBefore, hall, List.dropLast_concat]
  rw [hz, vfsLoop_eq_walk hws hw, hlastName, hbefore]

/-- **A lookup with the creation of the last name**, if there is a name. -/
theorem vfsLookup_eq_last {rootVnode : V} {cwd : Option V} (p : Pathname)
    (hname : ∃ c ∈ p.chars, c ≠ slash) (hshort : ¬ IsShortcut cwd p.chars) :
    vfsLookup ops mounts rootVnode cwd p.chars flags attr
      = walk ops mounts (startOf rootVnode cwd p.chars) (namesBefore p.chars) >>= fun vn =>
          if Counts (lastName p.chars) then visit ops mounts flags attr true vn (lastName p.chars)
          else pure vn := by
  -- the shortcut for one character reads the second one, the terminator
  have hsecond : (p.chars ++ [0])[1]? = some 0 ↔ p.chars.length = 1 := by
    match hp : p.chars, p.nonzero, p.ne_nil with
    | [c], _, _ => simp
    | c :: d :: rest, hzero, _ =>
        rw [List.mem_cons, List.mem_cons, not_or, not_or] at hzero
        simpa using Ne.symm hzero.2.1
  have hfrom : ∀ vn : V, lookupFrom ops mounts flags attr vn p.chars = _ := fun vn =>
    lookupFrom_eq_last p.nonzero p.length_le hname
  unfold vfsLookup startOf
  by_cases hhead : p.chars.head? = some slash
  · have hlen : p.chars.length ≠ 1 := fun h => hshort ⟨.inl hhead, h⟩
    rw [if_pos hhead, hhead, BEq.rfl]
    dsimp only
    rw [if_neg (mt hsecond.mp hlen), hfrom]
  · rw [if_neg hhead, beq_eq_false_iff_ne.mpr hhead]
    cases cwd with
    | some vn => exact hfrom vn
    | none =>
        have hlen : p.chars.length ≠ 1 := fun h => hshort ⟨.inr rfl, h⟩
        dsimp only
        rw [if_neg (mt hsecond.mp hlen), hfrom]
        rfl

/-- A lookup that returns the root at once. -/
theorem vfsLookup_shortcut {rootVnode : V} {cwd : Option V} {p : Name} (h : IsShortcut cwd p) :
    vfsLookup ops mounts rootVnode cwd p flags attr = pure rootVnode := by
  obtain ⟨hstart, hlen⟩ := h
  obtain ⟨c, rfl⟩ := List.length_eq_one_iff.mp hlen
  unfold vfsLookup
  rcases hstart with hhead | rfl
  · rw [hhead]
    rfl
  · cases ([c].head? == some slash) <;> rfl

/-- A path without a name. -/
theorem Pathname.eq_slashes (p : Pathname) (hname : ¬ ∃ c ∈ p.chars, c ≠ slash) :
    ∃ k, p.chars.length = k + 1 ∧ p.chars = List.replicate (k + 1) slash ∧ p.chars.head? = some slash := by
  obtain ⟨k, hk⟩ := Nat.exists_eq_succ_of_ne_zero (mt List.length_eq_zero_iff.mp p.ne_nil)
  have hslashes := eq_replicate_of_no_name hname
  rw [hk] at hslashes
  refine ⟨k, hk, hslashes, ?_⟩
  rw [hslashes]
  rfl

/-- A lookup of slashes only, of which there are two or more. -/
theorem vfsLookup_no_name {rootVnode : V} {cwd : Option V} (p : Pathname)
    (hname : ¬ ∃ c ∈ p.chars, c ≠ slash) (hshort : ¬ IsShortcut cwd p.chars) :
    vfsLookup ops mounts rootVnode cwd p.chars flags attr = stuck := by
  obtain ⟨k, hk, hslashes, hhead⟩ := p.eq_slashes hname
  -- the current directory is not looked at
  have hcwd : vfsLookup ops mounts rootVnode cwd p.chars flags attr
      = vfsLookup ops mounts rootVnode (some rootVnode) p.chars flags attr := by
    unfold vfsLookup
    rw [hhead]
    rfl
  cases k with
  | zero => exact absurd ⟨.inl hhead, hk⟩ hshort
  | succ k => rw [hcwd, hslashes, vfsLookup_slashes]

/-- **A lookup is a left fold** of the lookups of the names of the path, if and only if the path is a
single slash or does not consist of slashes only. -/
theorem vfsLookup_eq_walkPath_iff (ops : Vnops σ V F) (mounts : ℕ) (rootVnode cwd : V) (p : Pathname)
    (d : Bool) (attr : Vattr) (s : σ) :
    (vfsLookup ops mounts rootVnode (some cwd) p.chars ⟨false, d⟩ attr).run.run s
        = (walkPath ops mounts rootVnode cwd p.chars).run.run s ↔
      p.chars = [slash] ∨ ∃ c ∈ p.chars, c ≠ slash := by
  -- a path without a name consists of slashes: one is the root, two read before the path
  by_cases hname : ∃ c ∈ p.chars, c ≠ slash
  · refine iff_of_true ?_ (.inr hname)
    rw [vfsLookup_of_name p.nonzero p.length_le hname]
  · obtain ⟨k, hk, hslashes, hhead⟩ := p.eq_slashes hname
    rw [or_iff_left hname, walkPath, components_of_no_name hname, if_pos hhead]
    cases k with
    | zero =>
        refine iff_of_true ?_ hslashes
        rw [vfsLookup_some, if_pos hhead, hslashes]
        rfl
    | succ k =>
        have hne : p.chars ≠ [slash] := by
          intro h
          rw [h] at hk
          simp at hk
        rw [hslashes, vfsLookup_slashes]
        rw [hslashes] at hne
        exact iff_of_false (fun h => by cases h) hne

/-- For `//` a lookup reads in front of its buffer, though there is no name to be looked up. -/
theorem two_slashes_stuck : ¬ ∀ (ops : Vnops Unit Unit Unit) (p : Pathname),
    (vfsLookup ops 1 () (some ()) p.chars ⟨false, false⟩ ⟨.vdir, 0, 0⟩).run.run ()
      = (walkPath ops 1 () () p.chars).run.run () := by
  intro h
  have hlookup := h ⟨fun _ _ => pure (0, ()), fun _ _ _ => pure (0, ()), fun _ _ => none,
    fun _ => pure (0, ())⟩ ⟨List.replicate 2 slash, by decide, by decide, by decide⟩
  rw [vfsLookup_slashes] at hlookup
  cases hlookup

end Scalux.Posix
