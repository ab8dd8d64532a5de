import Scalux.Lib.Run
import Scalux.Tmpfs.Node

/-! # The names of a directory

Runs of the calls that make nodes (`tmp_create` itself, `vfs_lookup` with `kLookupCreat`,
`devfs_make_node`) and of lookups, from an empty mount on.  `tmp_create` adds an entry at the end of the
directory without looking whether there is one of that name already, and `tmp_lookup` takes the first; so
a name that is made twice is in the directory twice, and the second node is not found.  Nor is a node of
the name `..`, which `tmp_lookup` treats apart.

* **`result_calls`**: a call makes one node, at a place that is known beforehand, or changes no node.
* **`names_sound`**: in every run that makes only names that are new, the names of a directory are
  different, and the vnode that a creation has returned is found. -/

namespace Scalux.Tmpfs

open Posix (Vattr Vtype Vnops LookupFlags Pathname Counts Walk walk visit call followMounts vfsLookup
  startOf namesBefore lastName IsShortcut slash run_bind run_call)

/-! ## The calls -/

/-- A mounted file system, `root_vnode` and `dev_vnode`, and what has been created: the directory, the
name, and the vnode that was returned. -/
structure Sys where
  mem : Mem
  rootVnode : ℕ
  devVnode : Option ℕ
  created : List (ℕ × Name × ℕ)

/-- The calls. -/
inductive Action
  /-- The creation of `dev` in `unpack_ramdisk`. -/
  | createDev
  | tmpCreate (dvn : ℕ) (name : Name) (attr : Vattr)
  | tmpLookup (vn : ℕ) (name : Name)
  | vfsLookup (cwd : Option ℕ) (path : Pathname) (flags : LookupFlags) (attr : Vattr)
  | devfsMakeNode (name : Name)

/-- `"dev"`. -/
def dev : Name := [100, 101, 118]

/-- `devattr` of `unpack_ramdisk`: the mode is `0755 | S_IFDIR`. -/
def devattr : Vattr := ⟨.vdir, 0x41ed, 0⟩

/-- The attributes of `devfs_make_node`: the mode is `0644 | S_IFCHR`. -/
def nodeattr : Vattr := ⟨.vchr, 0x21a4, 0⟩

/-- `devfs_make_node`. -/
def devfsMakeNode (s : Sys) (name : Name) : Option ((ℤ × ℕ) × Mem) := do
  let dvn ← s.devVnode
  tmpCreate dvn name nodeattr s.mem

/-- What `vfs_lookup` returns, with the vnode in `*out`. -/
def outcome : Except ℤ ℕ → ℤ × ℕ
  | .ok vn => (0, vn)
  | .error r => (r, 0)

/-- What a call returns, with the vnode in `*out`. -/
def result (s : Sys) : Action → Option ((ℤ × ℕ) × Mem)
  | .createDev => tmpCreate s.rootVnode dev devattr s.mem
  | .tmpCreate dvn name attr => tmpCreate dvn name attr s.mem
  | .tmpLookup vn name => tmpLookup vn name s.mem
  | .vfsLookup cwd path flags attr =>
      ((vfsLookup tmpfsVnops 1 s.rootVnode cwd path.chars flags attr).run.run s.mem).map fun x =>
        (outcome x.1, x.2)
  | .devfsMakeNode name => devfsMakeNode s name

/-- The directory and the name of what a call creates; for `vfs_lookup`, the directory that the names
before the last one lead to, and the last name. -/
def target (s : Sys) : Action → Option (ℕ × Name)
  | .createDev => some (s.rootVnode, dev)
  | .tmpCreate dvn name _ => some (dvn, name)
  | .tmpLookup _ _ => none
  | .vfsLookup cwd path flags _ =>
      if flags.creat ∧ ¬ IsShortcut cwd path.chars ∧ Counts (lastName path.chars) then
        match (walk tmpfsVnops 1 (startOf s.rootVnode cwd path.chars)
          (namesBefore path.chars)).run.run s.mem with
        | some (.ok d, _) => some (d, lastName path.chars)
        | _ => none
      else none
  | .devfsMakeNode name => s.devVnode.map fun dvn => (dvn, name)

/-- One call. -/
def step (s : Sys) (a : Action) : Option Sys := do
  let ((r, vn), mem) ← result s a
  let devVnode := match a with
    | .createDev => some vn
    | _ => s.devVnode
  let created := match target s a with
    | some (d, name) => if 0 ≤ r then (d, name, vn) :: s.created else s.created
    | none => s.created
  return ⟨mem, s.rootVnode, devVnode, created⟩

/-- The calls as a machine. -/
def machine : Machine Sys Action := ⟨step⟩

/-- An empty mount. -/
structure Mounted (s : Sys) : Prop where
  devVnode_eq : s.devVnode = none
  created_eq : s.created = []
  mem_eq : ∃ garbage supply,
    tmpfsMount garbage ⟨Heap.empty, Heap.empty, supply⟩ = some (s.rootVnode, s.mem)

/-- What a call creates is not in its directory, and is not called `..`. -/
def fresh (s : Sys) (a : Action) : Bool :=
  (target s a).all fun x => x.2 ≠ dotdot && (s.mem.dirOf x.1).all fun d => (tlookup d.2 x.2).isNone

/-- No directory has two entries of one name, and a lookup of what has been created returns the vnode that
the creation returned. -/
structure NamesSound (s : Sys) : Prop where
  unique : ∀ n node, s.mem.nodes.get? n = some node → (node.entries.map Tmpdirent.name).Nodup
  observable : ∀ d name vn, (d, name, vn) ∈ s.created →
    ∃ mem, tmpLookup d name s.mem = some ((0, vn), mem)

/-! ## Walks -/

variable {s s' : Mem} {vn : ℕ} {name : Name} {attr : Vattr} {flags : LookupFlags}

/-- Nothing is mounted on a vnode. -/
theorem followMounts_one (vn : ℕ) : followMounts tmpfsVnops 1 vn = (pure vn : Walk Mem ℕ) := rfl

/-- An operation, and the loop over mounts after it. -/
theorem run_call_mounts (m : Posix.Kernel Mem (ℤ × ℕ)) (s : Mem) :
    (call m >>= followMounts tmpfsVnops 1).run.run s
      = (m s).map fun x => (if x.1.1 < 0 then .error x.1.1 else .ok x.1.2, x.2) := by
  have hpure : (call m >>= followMounts tmpfsVnops 1 : Walk Mem ℕ) = call m := by
    have hfollow : followMounts tmpfsVnops 1 = (pure : ℕ → Walk Mem ℕ) := funext followMounts_one
    rw [hfollow, bind_pure]
  rw [hpure, run_call]

/-- What `tmp_lookup` does to the memory, a walk does. -/
theorem walk_keeps {R : Mem → Mem → Prop} (hrefl : ∀ s, R s s) (htrans : ∀ s t u, R s t → R t u → R s u)
    (hlookup : ∀ s t vn name x, Inv s → tmpLookup vn name s = some (x, t) → R s t) {names : List Name}
    {x : Except ℤ ℕ} (h : Inv s) (hs : (walk tmpfsVnops 1 vn names).run.run s = some (x, s')) : R s s' := by
  induction names generalizing s vn with
  | nil =>
      cases hs
      exact hrefl _
  | cons name names ih =>
      rw [Posix.walk_cons, run_bind, run_call_mounts] at hs
      obtain ⟨⟨y, s₁⟩, hone, hs⟩ := Option.bind_eq_some_iff.mp hs
      obtain ⟨⟨⟨r, out⟩, s₂⟩, hlook, hy⟩ := Option.map_eq_some_iff.mp hone
      have hfirst : R s s₂ := hlookup _ _ _ _ _ h hlook
      cases hy
      split at hs
      · exact htrans _ _ _ hfirst (ih (h.of_same (lookup_same h hlook)) hs)
      · cases hs
        exact hfirst

/-- **A walk** changes reference counts only. -/
theorem walk_same {names : List Name} {x : Except ℤ ℕ} (h : Inv s)
    (hs : (walk tmpfsVnops 1 vn names).run.run s = some (x, s')) : Same s s' :=
  walk_keeps Same.refl (fun _ _ _ h h' => h.trans h') (fun _ _ _ _ _ h hs => lookup_same h hs) h hs

/-! ## The calls, by what they change -/

/-- What a call does that creates nothing: the names are looked up. -/
theorem visit_lookup_same {out : Except ℤ ℕ} {last : Bool} (h : Inv s)
    (hlook : last = false ∨ flags.creat = false)
    (hs : (visit tmpfsVnops 1 flags attr last vn name).run.run s = some (out, s')) : Same s s' := by
  have hvisit : visit tmpfsVnops 1 flags attr last vn name
      = call (tmpLookup vn name) >>= followMounts tmpfsVnops 1 := by
    have hcond : (!last || !flags.creat) = true := by
      rcases hlook with hlast | hcreat
      · simp [hlast]
      · simp [hcreat]
    unfold visit
    rw [hcond]
    rfl
  rw [hvisit, run_call_mounts] at hs
  obtain ⟨⟨⟨r, out⟩, s₁⟩, hone, hs⟩ := Option.map_eq_some_iff.mp hs
  cases hs
  exact lookup_same h hone

/-- The creation of the last name. -/
theorem visit_create {out : Except ℤ ℕ} (h : Inv s) (hcreat : flags.creat = true)
    (hs : (visit tmpfsVnops 1 flags attr true vn name).run.run s = some (out, s')) :
    ∃ new, out = .ok new ∧ tmpCreate vn name attr s = some ((0, new), s') := by
  have hvisit : visit tmpfsVnops 1 flags attr true vn name
      = call (tmpCreate vn name attr) >>= followMounts tmpfsVnops 1 := by
    unfold visit
    rw [hcreat]
    rfl
  rw [hvisit, run_call_mounts] at hs
  obtain ⟨⟨⟨r, new⟩, s₁⟩, hone, hs⟩ := Option.map_eq_some_iff.mp hs
  obtain ⟨hzero, -⟩ := create_spec h hone
  dsimp only at hzero hs
  subst hzero
  rw [if_neg (by decide)] at hs
  cases hs
  exact ⟨new, rfl, hone⟩

/-- What a call does, given what it creates and what it has returned: it creates that after some lookups,
or only looks names up. -/
def Calls (t : Option (ℕ × Name)) (x : ℤ × ℕ) (s s' : Mem) : Prop :=
  match t with
  | some (d, name) => ∃ attr s₁, Same s s₁ ∧ tmpCreate d name attr s₁ = some (x, s')
  | none => Same s s'

/-- **`vfs_lookup`** creates the last name, or changes reference counts only. -/
theorem vfsLookup_calls {t : Sys} {cwd : Option ℕ} {path : Pathname} {x : ℤ × ℕ} (h : Inv t.mem)
    (hs : result t (.vfsLookup cwd path flags attr) = some (x, s')) :
    Calls (target t (.vfsLookup cwd path flags attr)) x t.mem s' := by
  unfold result at hs
  obtain ⟨⟨out, s₁⟩, hrun, hs⟩ := Option.map_eq_some_iff.mp hs
  obtain ⟨hx, rfl⟩ := Prod.mk.inj hs
  dsimp only [target]
  -- three ways out: the shortcut, a path without a name, a path with a last name
  by_cases hshort : IsShortcut cwd path.chars
  · rw [Posix.vfsLookup_shortcut hshort] at hrun
    cases hrun
    rw [if_neg fun hc => hc.2.1 hshort]
    exact .refl _
  by_cases hname : ∃ c ∈ path.chars, c ≠ slash
  swap
  · rw [Posix.vfsLookup_no_name path hname hshort] at hrun
    cases hrun
  rw [Posix.vfsLookup_eq_last path hname hshort, run_bind] at hrun
  obtain ⟨⟨y, s₂⟩, hwalk, hrun⟩ := Option.bind_eq_some_iff.mp hrun
  have hsame := walk_same h hwalk
  have h₂ := h.of_same hsame
  cases y with
  | error r =>
      cases hrun
      rw [hwalk]
      split <;> exact hsame
  | ok d =>
      rw [hwalk]
      dsimp only at hrun
      by_cases hcounts : Counts (lastName path.chars)
      · rw [if_pos hcounts] at hrun
        -- only a look-up that creates changes the nodes, and only at the last name
        by_cases hcreat : flags.creat = true
        · rw [if_pos ⟨hcreat, hshort, hcounts⟩]
          obtain ⟨new, rfl, hcreate⟩ := visit_create h₂ hcreat hrun
          subst hx
          exact ⟨attr, s₂, hsame, hcreate⟩
        · rw [if_neg fun hc => hcreat hc.1]
          exact hsame.trans (visit_lookup_same h₂ (.inr (Bool.eq_false_iff.mpr hcreat)) hrun)
      · rw [if_neg hcounts] at hrun
        cases hrun
        rw [if_neg fun hc => hcounts hc.2.2]
        exact hsame

/-- **A call** makes one node, at its target, or looks names up. -/
theorem result_calls {t : Sys} {a : Action} {x : ℤ × ℕ} (h : Inv t.mem)
    (hs : result t a = some (x, s')) : Calls (target t a) x t.mem s' := by
  cases a with
  | createDev => exact ⟨devattr, t.mem, .refl _, hs⟩
  | tmpCreate dvn name attr => exact ⟨attr, t.mem, .refl _, hs⟩
  | tmpLookup vn name => exact lookup_same h hs
  | vfsLookup cwd path flags attr => exact vfsLookup_calls h hs
  | devfsMakeNode name =>
      obtain ⟨dvn, hdvn, hs⟩ := Option.bind_eq_some_iff.mp hs
      unfold target
      rw [hdvn]
      exact ⟨nodeattr, t.mem, .refl _, hs⟩

/-- One step, by its target. -/
theorem step_calls {t t' : Sys} {a : Action} (h : Inv t.mem) (hs : machine.step t a = some t') :
    t'.rootVnode = t.rootVnode ∧
      ((target t a = none ∧ Same t.mem t'.mem ∧ t'.created = t.created) ∨
        ∃ d name vn attr s₁, target t a = some (d, name) ∧ Same t.mem s₁ ∧
          tmpCreate d name attr s₁ = some ((0, vn), t'.mem) ∧
          t'.created = (d, name, vn) :: t.created) := by
  obtain ⟨⟨x, mem⟩, hresult, hs⟩ := Option.bind_eq_some_iff.mp hs
  have hcalls := result_calls h hresult
  -- only the calls with a target reach `create`; it answers 0, so the vnode is recorded
  cases htarget : target t a with
  | none =>
      rw [htarget] at hcalls hs
      cases hs
      exact ⟨rfl, .inl ⟨rfl, hcalls, rfl⟩⟩
  | some y =>
      obtain ⟨d, name⟩ := y
      rw [htarget] at hcalls hs
      obtain ⟨attr, s₁, hsame, hcreate⟩ := hcalls
      obtain ⟨hzero, -⟩ := create_spec (h.of_same hsame) hcreate
      obtain ⟨r, vn⟩ := x
      dsimp only at hzero hs
      subst hzero
      cases hs
      exact ⟨rfl, .inr ⟨d, name, vn, attr, s₁, rfl, hsame, hcreate, rfl⟩⟩

/-- One step, by what it changes. -/
theorem step_cases {t t' : Sys} {a : Action} (h : Inv t.mem) (hs : machine.step t a = some t') :
    (target t a = none ∧ Same t.mem t'.mem ∧ t'.created = t.created) ∨
      ∃ d name vn attr, target t a = some (d, name) ∧ Creates d name attr vn t.mem t'.mem ∧
        t'.created = (d, name, vn) :: t.created := by
  obtain ⟨-, hlook | ⟨d, name, vn, attr, s₁, htarget, hsame, hcreate, hcreated⟩⟩ := step_calls h hs
  · exact .inl hlook
  · have hcreates := (create_spec (h.of_same hsame) hcreate).2
    exact .inr ⟨d, name, vn, attr, htarget, hcreates.of_same hsame, hcreated⟩

/-! ## Runs -/

/-- What a run of new names keeps: of what has been created there is an entry, with the vnode that was
returned. -/
structure Good (t : Sys) : Prop where
  inv : Inv t.mem
  unique : ∀ n node, t.mem.nodes.get? n = some node → (node.entries.map Tmpdirent.name).Nodup
  kept : ∀ d name vn, (d, name, vn) ∈ t.created → name ≠ dotdot ∧
    ∃ k dnode e node, t.mem.dirOf d = some (k, dnode) ∧ e ∈ dnode.entries ∧ e.name = name ∧
      t.mem.nodes.get? e.node = some node ∧ node.vn = some vn

/-- Where the names are different, each entry is the first of its name. -/
theorem tlookup_of_nodup {node : Tmpnode} {e : Tmpdirent}
    (hnodup : (node.entries.map Tmpdirent.name).Nodup) (he : e ∈ node.entries) :
    tlookup node e.name = some e := by
  unfold tlookup
  generalize node.entries = l at hnodup he
  induction l with
  | nil => cases he
  | cons x l ih =>
      rw [List.map_cons, List.nodup_cons] at hnodup
      rcases List.mem_cons.mp he with rfl | he
      · exact List.find?_cons_of_pos (by simp)
      · have hne : x.name ≠ e.name := by
          intro heq
          exact hnodup.1 (heq ▸ List.mem_map_of_mem he)
        rw [List.find?_cons_of_neg (by simpa using hne)]
        exact ih hnodup.2 he

theorem Good.namesSound {t : Sys} (h : Good t) : NamesSound t where
  unique := h.unique
  observable d name vn hmem := by
    obtain ⟨hname, k, dnode, e, node, hd, he, rfl, hnode, hvn⟩ := h.kept d name vn hmem
    have hfound := tlookup_of_nodup (h.unique k dnode (dirOf_eq_some.mp hd).2) he
    exact lookup_entry h.inv hd hname hfound hnode hvn

/-- The root that a mount makes. -/
def rootNode (garbage : Tmpnode) (vn : Option ℕ) : Tmpnode :=
  { garbage with vn := vn, attr := { garbage.attr with type := .vdir }, entries := [] }

/-- **`tmpfs_mount`** makes one node and one vnode. -/
theorem mount_spec {garbage : Tmpnode} {supply : List ℕ} {vroot : ℕ}
    (hs : tmpfsMount garbage ⟨Heap.empty, Heap.empty, supply⟩ = some (vroot, s)) :
    ∃ root, supply.head? = some root ∧
      (∀ k, s.nodes.get? k = if k = root then some (rootNode garbage (some vroot)) else none) ∧
      ∀ k, s.vnodeOf k = if k = vroot then some (.vdir, root) else none := by
  unfold tmpfsMount at hs
  obtain ⟨⟨root, s₁⟩, halloc, hs⟩ := Option.bind_eq_some_iff.mp hs
  obtain ⟨nodes, hnew, hs⟩ := Option.bind_eq_some_iff.mp hs
  obtain ⟨⟨⟨r, vroot'⟩, s₂⟩, hget, hs⟩ := Option.bind_eq_some_iff.mp hs
  obtain ⟨vnode, hvnode, hs⟩ := Option.bind_eq_some_iff.mp hs
  obtain ⟨rfl, rfl⟩ := Prod.mk.inj (Option.some.inj hs)
  obtain ⟨hn₁, hv₁⟩ := kmemAlloc_frame halloc
  dsimp only at hn₁ hv₁
  rw [hn₁] at hnew
  have hroot := Heap.get?_alloc hnew root
  rw [if_pos rfl] at hroot
  obtain ⟨-, -, hnodes, hof⟩ := vget_new hroot rfl hget
  refine ⟨root, ?_, fun k => ?_, fun k => ?_⟩
  · unfold kmemAlloc at halloc
    split at halloc
    · cases halloc
    · rename_i a rest hsup
      obtain ⟨rfl, -⟩ := Prod.mk.inj (Option.some.inj halloc)
      exact congrArg List.head? hsup
  · dsimp only
    rw [hnodes, Heap.get?_alloc hnew]
    -- the root is the only node, the vnode it gets is the only vnode
    by_cases hkr : k = root
    · rw [if_pos hkr, if_pos hkr]
      rfl
    · rw [if_neg hkr, if_neg hkr, if_neg hkr, Heap.get?_empty]
  · refine (vnodeOf_set { vnode with isroot := true } hvnode rfl rfl k).trans ((hof k).trans ?_)
    congr 1
    rw [Mem.vnodeOf, hv₁, Heap.get?_empty]
    rfl

/-- Of an empty directory. -/
theorem Mounted.good {t : Sys} (h : Mounted t) : Good t := by
  obtain ⟨garbage, supply, hmount⟩ := h.mem_eq
  obtain ⟨root, -, hnodes, hvnodeOf⟩ := mount_spec hmount
  -- after the mount the root is the one node, and it has no entries
  have hnode : ∀ k node, t.mem.nodes.get? k = some node →
      k = root ∧ node = rootNode garbage (some t.rootVnode) := by
    intro k node hk
    rw [hnodes, Option.ite_none_right_eq_some] at hk
    exact ⟨hk.1, (Option.some.inj hk.2).symm⟩
  refine ⟨⟨fun k node hk => ?_, fun w x hx => ?_, fun k node hk e he => ?_⟩, fun k node hk => ?_,
    fun d name vn hcreated => ?_⟩
  · obtain ⟨rfl, rfl⟩ := hnode k node hk
    exact ⟨t.rootVnode, rfl, by rw [hvnodeOf, if_pos rfl]; rfl⟩
  · rw [hvnodeOf] at hx
    split at hx
    · rename_i hw
      cases hx
      exact ⟨_, by rw [hnodes, if_pos rfl], congrArg some hw.symm⟩
    · cases hx
  · rw [(hnode k node hk).2] at he
    cases he
  · rw [(hnode k node hk).2]
    exact List.nodup_nil
  · rw [h.created_eq] at hcreated
    cases hcreated

/-- Of a directory in a state before a creation of a name that it does not have. -/
theorem fresh_entry {t : Sys} {a : Action} {d k : ℕ} {name : Name} {dnode : Tmpnode}
    (hfresh : fresh t a = true) (htarget : target t a = some (d, name))
    (hd : t.mem.dirOf d = some (k, dnode)) : name ≠ dotdot ∧ ∀ e ∈ dnode.entries, e.name ≠ name := by
  unfold fresh at hfresh
  rw [htarget, Option.all_some, hd, Option.all_some, Bool.and_eq_true, decide_eq_true_eq,
    Option.isNone_iff_eq_none] at hfresh
  obtain ⟨hname, hnone⟩ := hfresh
  refine ⟨hname, fun e he heq => ?_⟩
  have hne := List.find?_eq_none.mp hnone e he
  exact hne (decide_eq_true heq)

/-- **A step** that makes a name that is new. -/
theorem Good.step {t t' : Sys} {a : Action} (h : Good t) (hfresh : fresh t a = true)
    (hs : machine.step t a = some t') : Good t' := by
  rcases step_cases h.inv hs with ⟨-, hsame, hcreated⟩ | ⟨d, name, vn, attr, htarget, hc, hcreated⟩
  · refine ⟨h.inv.of_same hsame, fun n node hn => ?_, fun d name vn hmem => ?_⟩
    · rw [hsame.nodes_eq] at hn
      exact h.unique n node hn
    · rw [hcreated] at hmem
      rw [hsame.dirOf_eq, hsame.nodes_eq]
      exact h.kept d name vn hmem
  have hinv := h.inv.of_creates hc
  obtain ⟨k, dnode, n, new, hd, hnone, -, hvn, -, hentries, hnodes, -⟩ := hc.made
  obtain ⟨hname, hne⟩ := fresh_entry hfresh htarget hd
  refine ⟨hinv, fun j node hj => ?_, fun d' name' vn' hmem => ?_⟩
  · rw [hnodes] at hj
    split at hj
    · cases hj
      rw [hentries]
      exact List.nodup_nil
    split at hj
    · -- the directory: the name is not among those of before
      cases hj
      rw [List.map_append, List.map_singleton, List.nodup_append]
      refine ⟨h.unique k dnode (dirOf_eq_some.mp hd).2, List.nodup_singleton _, fun x hx y hy => ?_⟩
      obtain ⟨e, he, rfl⟩ := List.mem_map.mp hx
      rw [List.mem_singleton.mp hy]
      exact hne e he
    · exact h.unique j node hj
  · rw [hcreated] at hmem
    rcases List.mem_cons.mp hmem with heq | hmem
    · cases heq
      obtain ⟨hof, hnode⟩ := dirOf_eq_some.mp hd
      -- the new node was not on the heap, the directory was
      have hkn : k ≠ n := by
        rintro rfl
        rw [hnone] at hnode
        cases hnode
      obtain ⟨dnode', hd', -⟩ := hc.dirOf_stays hd
      have hlast : dnode' = { dnode with entries := dnode.entries ++ [⟨name, n⟩] } := by
        have hget := (dirOf_eq_some.mp hd').2
        rw [hnodes, if_neg hkn, if_pos rfl] at hget
        exact (Option.some.inj hget).symm
      refine ⟨hname, k, dnode', ⟨name, n⟩, new, hd', ?_, rfl, ?_, hvn⟩
      · rw [hlast]
        exact List.mem_append_right _ List.mem_cons_self
      · rw [hnodes, if_pos rfl]
    -- a name that was made before is still in its directory
    · obtain ⟨hname', k', dnode', e, node, hd', he, hename, hnode, hvn'⟩ := h.kept d' name' vn' hmem
      obtain ⟨dnode'', hd'', hsub⟩ := hc.dirOf_stays hd'
      obtain ⟨node', hnode', hnvn, -⟩ := hc.node_stays hnode
      exact ⟨hname', k', dnode'', e, node', hd'', hsub he, hename, hnode', hnvn.trans hvn'⟩

/-- **Names.** In every run from an empty mount in which nothing is created under a name that its
directory has, or under the name `..`, the names of each directory are different, and a lookup of what
has been created returns the vnode that the creation returned. -/
theorem names_sound {t₀ t : Sys} (h₀ : Mounted t₀)
    (h : machine.Reach (fun s a => fresh s a = true) t₀ t) : NamesSound t :=
  (h.invariant h₀.good fun _ _ _ hgood hc hs => hgood.step hc hs).namesSound

/-- A mount, with the addresses from 1 on. -/
def emptyMount : Sys :=
  match tmpfsMount default ⟨Heap.empty, Heap.empty, List.range' 1 20⟩ with
  | some (rootVnode, mem) => ⟨mem, rootVnode, none, []⟩
  | none => ⟨⟨Heap.empty, Heap.empty, []⟩, 0, none, []⟩

theorem emptyMount_mounted : Mounted emptyMount := ⟨rfl, rfl, default, List.range' 1 20, rfl⟩

/-- `"a"`. -/
def nameA : Name := [97]

/-- `"/dev/a"`. -/
def pathA : Pathname := ⟨[47, 100, 101, 118, 47, 97], by decide, by decide, by decide⟩

/-- `"console"`. -/
def console : Name := [99, 111, 110, 115, 111, 108, 101]

/-- With `dev` and a device in it. -/
def withConsole : Sys :=
  (machine.exec emptyMount [.createDev, .devfsMakeNode console]).getD emptyMount

/-- A file that is made through its path. -/
def createA : Action := .vfsLookup none pathA ⟨true, false⟩ ⟨.vreg, 0, 0⟩

theorem createA_step : ∃ t, machine.step withConsole createA = some t ∧
    t.created = [(4, nameA, 9), (4, console, 6), (2, dev, 4)] := by
  unfold machine step result createA
  dsimp only
  rw [Posix.vfsLookup_eq_last pathA (by decide) (by decide)]
  exact ⟨_, rfl, rfl⟩

/-- `dev`, a device in it, and a file that is made through its path. -/
theorem names_sound_dev : Mounted emptyMount ∧ ∃ t,
    machine.Reach (fun s a => fresh s a = true) emptyMount t ∧
      t.created = [(4, nameA, 9), (4, console, 6), (2, dev, 4)] ∧ NamesSound t := by
  have hrun : machine.exec emptyMount [.createDev, .devfsMakeNode console] = some withConsole := rfl
  have hfresh : fresh withConsole createA = true := by decide
  obtain ⟨t, hstep, hcreated⟩ := createA_step
  have hreach : machine.Reach (fun s a => fresh s a = true) emptyMount t :=
    .step (Machine.reach_of_exec (fun _ _ h => h) (by decide) hrun) hfresh hstep
  exact ⟨emptyMount_mounted, t, hreach, hcreated, names_sound emptyMount_mounted hreach⟩

/-- `a` is created twice in the root: it is there twice, and the second node is not found. -/
theorem tmp_create_twice :
    ¬ ∀ t₀ t : Sys, Mounted t₀ → machine.Reachable t₀ t → NamesSound t := by
  intro hall
  let t := (machine.exec emptyMount
    [.tmpCreate 2 nameA ⟨.vdir, 0, 0⟩, .tmpCreate 2 nameA ⟨.vdir, 0, 0⟩]).getD emptyMount
  have hrun : machine.exec emptyMount
      [.tmpCreate 2 nameA ⟨.vdir, 0, 0⟩, .tmpCreate 2 nameA ⟨.vdir, 0, 0⟩] = some t := rfl
  have hsound := hall emptyMount t emptyMount_mounted (Machine.reachable_of_exec hrun)
  have hroot : (t.mem.nodes.get? 1).map (fun node => node.entries.map Tmpdirent.name)
      = some [nameA, nameA] := rfl
  obtain ⟨node, hnode, hnames⟩ := Option.map_eq_some_iff.mp hroot
  have hnodup := hsound.unique 1 node hnode
  rw [hnames] at hnodup
  exact absurd hnodup (by decide)

end Scalux.Tmpfs
