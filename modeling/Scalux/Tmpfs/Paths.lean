import Scalux.Tmpfs.Tree

/-! # Where a path leads

`vfs_lookup` on a tmpfs, for every path.  `tmp_lookup` and `tmp_create` assert that they are called for a
directory, and the vnode of a device has neither; `vfs_lookup` calls them for whatever vnode the name
before has led to.  Nor does it look at `mustdir`: `reduce` returns what it is given.

* **`walk_spec`**: a walk by the nodes the names lead to.
* **`vfs_lookup_safe_iff`**: the paths for which a lookup returns what it should.
* **`vfs_lookup_through_device`**: a path that goes on behind a device. -/

namespace Scalux.Tmpfs

open Posix (Vattr Vtype Walk walk visit call followMounts LookupFlags Pathname Counts components
  namesBefore lastName startOf IsShortcut vfsLookup slash run_bind)

variable {s s' : Mem} {n k vn : ℕ} {c : Name} {cs : List Name} {node : Tmpnode} {type : Vtype}
  {attr : Vattr} {flags : LookupFlags}

/-! ## Nodes by names -/

/-- A node of a directory. -/
def IsDir (s : Mem) (n : ℕ) : Prop := ∃ node, s.nodes.get? n = some node ∧ node.attr.type = .vdir

/-- A directory is a node whose type is that of directories. -/
theorem isDir_iff_map : IsDir s n ↔ (s.nodes.get? n).map (fun node => node.attr.type) = some .vdir :=
  Option.map_eq_some_iff.symm

instance (s : Mem) (n : ℕ) : Decidable (IsDir s n) := decidable_of_iff _ isDir_iff_map.symm

/-- The nodes belong together, and the parent of a directory is one. -/
structure WellFormed (s : Mem) : Prop where
  inv : Inv s
  parent : ∀ n node, s.nodes.get? n = some node → node.attr.type = .vdir →
    ∀ p ∈ node.parent, IsDir s p

/-- The node that a name leads to from a directory. -/
def stepNode (s : Mem) (n : ℕ) (c : Name) : Option ℕ := do
  let node ← s.nodes.get? n
  if c = dotdot then some (node.parent.getD n) else (tlookup node c).map Tmpdirent.node

/-- The node that names lead to. -/
def endNode (s : Mem) (n : ℕ) (cs : List Name) : Option ℕ := cs.foldlM (stepNode s) n

/-- Names are followed from directories only. -/
def Passes (s : Mem) : ℕ → List Name → Prop
  | _, [] => True
  | n, c :: cs => IsDir s n ∧ ∀ k ∈ stepNode s n c, Passes s k cs

instance decidablePasses (s : Mem) : (n : ℕ) → (cs : List Name) → Decidable (Passes s n cs)
  | _, [] => isTrue trivial
  | n, c :: cs =>
      have : ∀ k, Decidable (Passes s k cs) := fun k => decidablePasses s k cs
      inferInstanceAs (Decidable (IsDir s n ∧ ∀ k ∈ stepNode s n c, Passes s k cs))

/-- One component, then the rest. -/
theorem endNode_cons (s : Mem) (n : ℕ) (c : Name) (cs : List Name) :
    endNode s n (c :: cs) = (stepNode s n c).bind fun k => endNode s k cs := List.foldlM_cons

/-- A path, then the rest of it. -/
theorem endNode_append (s : Mem) (n : ℕ) (cs cs' : List Name) :
    endNode s n (cs ++ cs') = (endNode s n cs).bind fun k => endNode s k cs' := List.foldlM_append

/-- The last of the names is followed from a directory too. -/
theorem passes_append {cs' : List Name} :
    Passes s n (cs ++ cs') ↔ Passes s n cs ∧ ∀ k ∈ endNode s n cs, Passes s k cs' := by
  induction cs generalizing n with
  | nil =>
      constructor
      · intro h
        exact ⟨trivial, fun k hk => Option.some.inj hk ▸ h⟩
      · intro h
        exact h.2 n rfl
  | cons c cs ih =>
      rw [List.cons_append, Passes, Passes, endNode_cons, and_assoc]
      refine and_congr_right fun _ => ?_
      cases stepNode s n c with
      | none => simp
      | some k => simp [ih]

/-- A directory stays one across a lookup. -/
theorem IsDir.of_same (hs : Same s s') (h : IsDir s n) : IsDir s' n := by
  unfold IsDir
  rwa [hs.nodes_eq]

/-- The tree stays well formed across a lookup. -/
theorem WellFormed.of_same (h : WellFormed s) (hs : Same s s') : WellFormed s' where
  inv := h.inv.of_same hs
  parent n node hn htype p hp := by
    rw [hs.nodes_eq] at hn
    exact (h.parent n node hn htype p hp).of_same hs

/-- Each component leads where it did before a lookup. -/
theorem stepNode_of_same (hs : Same s s') : stepNode s' = stepNode s := by
  funext n c
  rw [stepNode, stepNode, hs.nodes_eq]

/-- Each path leads where it did before a lookup. -/
theorem endNode_of_same (hs : Same s s') : endNode s' n cs = endNode s n cs := by
  rw [endNode, endNode, stepNode_of_same hs]

/-- Each path passes what it did before a lookup. -/
theorem passes_of_same (hs : Same s s') : Passes s' n cs ↔ Passes s n cs := by
  induction cs generalizing n with
  | nil => exact Iff.rfl
  | cons c cs ih =>
      rw [Passes, Passes, stepNode_of_same hs]
      unfold IsDir
      rw [hs.nodes_eq]
      exact and_congr_right fun _ => forall₂_congr fun k _ => ih

/-! ## One name -/

/-- The node of a vnode, and its type. -/
theorem WellFormed.node_of (h : WellFormed s) (hof : s.vnodeOf vn = some (type, n)) :
    ∃ v node, s.vnodes.get? vn = some v ∧ v.data = n ∧ v.type = type ∧ s.nodes.get? n = some node ∧
      node.vn = some vn ∧ node.attr.type = type := by
  obtain ⟨v, hv, hvn⟩ := Option.map_eq_some_iff.mp hof
  obtain ⟨htype, hdata⟩ := Prod.mk.inj hvn
  obtain ⟨node, hnode, hnvn⟩ := h.inv.of_vnode vn _ hof
  exact ⟨v, node, hv, hdata, htype, hnode, hnvn, (h.inv.vnode_type hof hnode).symm⟩

/-- The vnode of a node tells whether it is a directory. -/
theorem WellFormed.isDir_iff (h : WellFormed s) (hof : s.vnodeOf vn = some (type, n)) :
    IsDir s n ↔ type = .vdir := by
  obtain ⟨v, node, -, -, -, hnode, -, htype⟩ := h.node_of hof
  constructor
  · rintro ⟨node', hnode', hdir⟩
    obtain rfl := Option.some.inj (hnode.symm.trans hnode')
    exact htype.symm.trans hdir
  · intro hdir
    exact ⟨node, hnode, htype.trans hdir⟩

/-- `tmp_lookup` of a vnode that is not of a directory trips the assertion. -/
theorem lookup_not_dir (h : WellFormed s) (hof : s.vnodeOf vn = some (type, n)) (hdir : ¬ IsDir s n) :
    tmpLookup vn c s = none := by
  obtain ⟨v, node, hv, rfl, -, hnode, -, htype⟩ := h.node_of hof
  rw [h.isDir_iff hof, ← htype] at hdir
  rw [tmpLookup, hv, Option.bind_eq_bind, Option.bind_some, hnode, Option.bind_eq_bind,
    Option.bind_some, if_neg hdir]

/-- `tmp_lookup` of a name that a directory does not have. -/
theorem lookup_missing (h : WellFormed s) (hof : s.vnodeOf vn = some (type, n)) (hdir : IsDir s n)
    (hstep : stepNode s n c = none) : tmpLookup vn c s = some ((-enoent, vn), s) := by
  obtain ⟨v, node, hv, rfl, -, hnode, -, htype⟩ := h.node_of hof
  rw [h.isDir_iff hof, ← htype] at hdir
  rw [stepNode, hnode, Option.bind_eq_bind, Option.bind_some] at hstep
  split at hstep
  · cases hstep
  · rename_i hc
    rw [tmpLookup, hv, Option.bind_eq_bind, Option.bind_some, hnode, Option.bind_eq_bind,
      Option.bind_some, if_pos hdir, if_neg hc, Option.map_eq_none_iff.mp hstep]
    rfl

/-- `tmp_lookup` of a name that leads somewhere returns the vnode of the node. -/
theorem lookup_found (h : WellFormed s) (hof : s.vnodeOf vn = some (type, n)) (hdir : IsDir s n)
    (hstep : stepNode s n c = some k) :
    ∃ w s' type', tmpLookup vn c s = some ((0, w), s') ∧ s.vnodeOf w = some (type', k) := by
  obtain ⟨v, node, hv, rfl, -, hnode, -, htype⟩ := h.node_of hof
  have hdir' : node.attr.type = .vdir := htype.trans ((h.isDir_iff hof).mp hdir)
  rw [stepNode, hnode, Option.bind_eq_bind, Option.bind_some] at hstep
  split at hstep
  · rename_i hc
    -- `..`: a directory without a parent is its own, otherwise the vnode of the parent is returned
    cases hp : node.parent with
    | none =>
        rw [hp] at hstep
        refine ⟨vn, s, type, ?_, Option.some.inj hstep ▸ hof⟩
        rw [tmpLookup, hv, Option.bind_eq_bind, Option.bind_some, hnode, Option.bind_eq_bind,
          Option.bind_some, if_pos hdir', if_pos hc, hp]
        rfl
    | some parent =>
        rw [hp] at hstep
        obtain rfl : parent = k := Option.some.inj hstep
        obtain ⟨dn, hdn, -⟩ := h.parent _ node hnode hdir' parent hp
        obtain ⟨w, hw, hofw⟩ := h.inv.of_node parent dn hdn
        refine ⟨w, s, _, ?_, hofw⟩
        rw [tmpLookup, hv, Option.bind_eq_bind, Option.bind_some, hnode, Option.bind_eq_bind,
          Option.bind_some, if_pos hdir', if_pos hc, hp]
        dsimp only
        rw [hdn, Option.bind_eq_bind, Option.bind_some, hw]
        rfl
  · rename_i hc
    -- another name is searched among the entries, and `vget` gives the vnode of the node
    obtain ⟨e, hfound, rfl⟩ := Option.map_eq_some_iff.mp hstep
    obtain ⟨enode, henode⟩ := Option.ne_none_iff_exists'.mp
      (h.inv.entry _ node hnode e (List.mem_of_find?_eq_some hfound))
    obtain ⟨w, hw, hofw⟩ := h.inv.of_node _ enode henode
    obtain ⟨s', hget, -⟩ := vget_spec h.inv henode hw
    refine ⟨w, s', _, ?_, hofw⟩
    rw [tmpLookup, hv, Option.bind_eq_bind, Option.bind_some, hnode, Option.bind_eq_bind,
      Option.bind_some, if_pos hdir', if_neg hc, hfound]
    exact hget

/-! ## Walks -/

/-- **A walk** stops at an assertion if a name is followed from a node that is no directory, and otherwise
returns the vnode of the node that the names lead to, or an error. -/
theorem walk_spec (h : WellFormed s) (hof : s.vnodeOf vn = some (type, n)) (cs : List Name) :
    (¬ Passes s n cs ∧ (walk tmpfsVnops 1 vn cs).run.run s = none) ∨
      Passes s n cs ∧ ∃ s', Same s s' ∧
        ((endNode s n cs = none ∧ (walk tmpfsVnops 1 vn cs).run.run s = some (.error (-enoent), s')) ∨
          ∃ k w type', endNode s n cs = some k ∧ s.vnodeOf w = some (type', k) ∧
            (walk tmpfsVnops 1 vn cs).run.run s = some (.ok w, s')) := by
  -- by the names of the path; a node that is no directory stops the kernel
  induction cs generalizing s vn type n with
  | nil => exact .inr ⟨trivial, s, .refl s, .inr ⟨n, vn, type, rfl, hof, rfl⟩⟩
  | cons c cs ih =>
      have hops : tmpfsVnops.lookup vn c s = tmpLookup vn c s := rfl
      rw [Posix.walk_cons, run_bind, run_call_mounts, hops, Passes, endNode_cons]
      by_cases hdir : IsDir s n
      swap
      · exact .inl ⟨fun hpass => hdir hpass.1, by rw [lookup_not_dir h hof hdir]; rfl⟩
      cases hstep : stepNode s n c with
      | none =>
          refine .inr ⟨⟨hdir, nofun⟩, s, .refl s, .inl ⟨rfl, ?_⟩⟩
          rw [lookup_missing h hof hdir hstep]
          rfl
      | some k =>
          obtain ⟨w, s₁, type', hlook, hofw⟩ := lookup_found h hof hdir hstep
          have hsame : Same s s₁ := lookup_same h.inv hlook
          have hpasses : (IsDir s n ∧ ∀ k' ∈ some k, Passes s k' cs) ↔ Passes s k cs :=
            ⟨fun hpass => hpass.2 k rfl, fun hpass => ⟨hdir, fun k' hk' => Option.some.inj hk' ▸ hpass⟩⟩
          rw [hlook, hpasses]
          have hrest := ih (h.of_same hsame) ((hsame.vnodeOf_eq w).trans hofw)
          rw [passes_of_same hsame, endNode_of_same hsame] at hrest
          rcases hrest with ⟨hno, hrun⟩ | ⟨hpass, s₂, hsame₂, hrun⟩
          · exact .inl ⟨hno, hrun⟩
          · refine .inr ⟨hpass, s₂, hsame.trans hsame₂, ?_⟩
            rcases hrun with ⟨hend, hrun⟩ | ⟨k', w', type'', hend, hofw', hrun⟩
            · exact .inl ⟨hend, hrun⟩
            · exact .inr ⟨k', w', type'', hend, (hsame.vnodeOf_eq w').symm.trans hofw', hrun⟩

/-- The names of a path, and the last of them. -/
theorem components_eq (path : Pathname) (hname : ∃ c ∈ path.chars, c ≠ slash) :
    components path.chars = namesBefore path.chars
      ++ if Counts (lastName path.chars) then [lastName path.chars] else [] := by
  obtain ⟨q, j, heq, hq, hlast⟩ := Posix.exists_replicate hname
  have hzero : 0 ∉ q := fun hmem => path.nonzero (heq ▸ List.mem_append_left _ hmem)
  obtain ⟨ws, w, rfl, hws, hw⟩ := Posix.exists_joined q hzero
  have hsplit := Posix.splitOn_joined (fun x hx => (hws x hx).2) hw.2
  have hall : Posix.allNames path.chars = ws ++ [w] := by
    rw [heq, Posix.allNames, Posix.rdropWhile_replicate hlast, hsplit]
  rw [namesBefore, lastName, hall, List.dropLast_concat, List.getLastD_concat, heq,
    Posix.components_replicate, components, hsplit, List.filter_append, List.filter_singleton,
    Bool.cond_decide]

/-! ## `vfs_lookup` -/

/-- `vfs_lookup` is asked for a directory. -/
def WantsDir (flags : LookupFlags) (path : Name) : Prop :=
  flags.mustDir = true ∨ path.getLast? = some slash

/-- `vfs_lookup` creates the last name. -/
def MakesLast (flags : LookupFlags) (path : Name) : Prop :=
  flags.creat = true ∧ Counts (lastName path)

/-- `vfs_lookup` returns zero or a negative number, and a directory if it is asked for one. -/
def LookupSafe (s : Mem) (rootVnode : ℕ) (cwd : Option ℕ) (path : Pathname) (flags : LookupFlags)
    (attr : Vattr) : Prop :=
  ∃ x s', (vfsLookup tmpfsVnops 1 rootVnode cwd path.chars flags attr).run.run s = some (x, s') ∧
    (∀ r, x = .error r → r < 0) ∧
    (WantsDir flags path.chars → ∀ vn, x = .ok vn → ∃ n, s'.vnodeOf vn = some (.vdir, n))

/-- The paths, from the node `start` on, for which it does. -/
structure PathOk (s : Mem) (start : ℕ) (path : Name) (flags : LookupFlags) (attr : Vattr) : Prop where
  /-- Not all of it are slashes. -/
  has_name : ∃ c ∈ path, c ≠ slash
  /-- No name follows one that leads to a file or a device. -/
  passes : Passes s start (components path)
  /-- If a directory is wanted, what is looked up is one. -/
  dir_of_lookup : WantsDir flags path → ¬ MakesLast flags path →
    ∀ k ∈ endNode s start (components path), IsDir s k
  /-- If a directory is wanted, what is created is one. -/
  dir_of_create : WantsDir flags path → MakesLast flags path →
    ∀ d ∈ endNode s start (namesBefore path), attr.type = .vdir

/-! ## Creations -/

/-- `tmp_create` in a vnode that is not of a directory trips the assertion. -/
theorem create_not_dir (h : WellFormed s) (hof : s.vnodeOf vn = some (type, n)) (hdir : ¬ IsDir s n) :
    tmpCreate vn c attr s = none := by
  obtain ⟨v, node, hv, -, htype, -⟩ := h.node_of hof
  rw [h.isDir_iff hof, ← htype] at hdir
  rw [tmpCreate, hv, Option.bind_eq_bind, Option.bind_some, if_neg hdir]

/-- `tmp_create` in a directory returns a vnode of the type asked for. -/
theorem create_in_dir (h : WellFormed s) (hf : Fresh s) (hlen : 3 ≤ s.supply.length)
    (hof : s.vnodeOf vn = some (type, n)) (hdir : IsDir s n) (c : Name) (attr : Vattr) :
    ∃ w s' k, tmpCreate vn c attr s = some ((0, w), s') ∧ s'.vnodeOf w = some (attr.type, k) := by
  obtain ⟨v, node, -, -, -, hnode, -⟩ := h.node_of hof
  have hd : s.dirOf vn = some (n, node) :=
    dirOf_eq_some.mpr ⟨(h.isDir_iff hof).mp hdir ▸ hof, hnode⟩
  obtain ⟨k, vmobj, w, rest, hsup, hv, -⟩ := exists_supply s.supply hlen attr.type
  obtain ⟨s', hs, -, -, hvnodes⟩ := create_returns (c := c) hf hd hsup hv
  refine ⟨w, s', k, hs, ?_⟩
  rw [Mem.vnodeOf, hvnodes, if_pos rfl]
  rfl

/-- A lookup that creates nothing is a walk. -/
theorem vfsLookup_eq_walk {rootVnode : ℕ} {cwd : Option ℕ} {path : Pathname}
    (hname : ∃ c ∈ path.chars, c ≠ slash) (hshort : ¬ IsShortcut cwd path.chars)
    (hmake : ¬ MakesLast flags path.chars) :
    vfsLookup tmpfsVnops 1 rootVnode cwd path.chars flags attr
      = walk tmpfsVnops 1 (startOf rootVnode cwd path.chars) (components path.chars) := by
  rw [Posix.vfsLookup_eq_last path hname hshort, components_eq path hname]
  by_cases hcounts : Counts (lastName path.chars)
  · have hcreat : flags.creat = false := Bool.eq_false_iff.mpr fun hcreat => hmake ⟨hcreat, hcounts⟩
    rw [if_pos hcounts, walk, walk, List.foldlM_append]
    refine congrArg _ (funext fun w => ?_)
    rw [if_pos hcounts, List.foldlM_cons, visit, hcreat]
    exact (bind_pure _).symm
  · rw [if_neg hcounts, List.append_nil]
    simp only [if_neg hcounts, bind_pure]

/-- A lookup that creates the last name. -/
theorem vfsLookup_eq_create {rootVnode : ℕ} {cwd : Option ℕ} {path : Pathname}
    (hname : ∃ c ∈ path.chars, c ≠ slash) (hshort : ¬ IsShortcut cwd path.chars)
    (hmake : MakesLast flags path.chars) (s : Mem) :
    (vfsLookup tmpfsVnops 1 rootVnode cwd path.chars flags attr).run.run s
      = ((walk tmpfsVnops 1 (startOf rootVnode cwd path.chars) (namesBefore path.chars)).run.run s).bind
          fun x => match x.1 with
            | .error r => some (.error r, x.2)
            | .ok dvn => (tmpCreate dvn (lastName path.chars) attr x.2).map fun y =>
                (if y.1.1 < 0 then .error y.1.1 else .ok y.1.2, y.2) := by
  rw [Posix.vfsLookup_eq_last path hname hshort, run_bind]
  refine congrArg _ (funext fun x => ?_)
  cases x.1 with
  | error r => rfl
  | ok dvn =>
      dsimp only
      rw [if_pos hmake.2, visit, hmake.1]
      exact run_call_mounts _ _

/-! ## The result -/

section Result

variable {rootVnode start : ℕ} {cwd : Option ℕ} {path : Pathname}

/-- A lookup that creates nothing. -/
theorem lookupSafe_iff_of_walk (h : WellFormed s)
    (hstart : s.vnodeOf (startOf rootVnode cwd path.chars) = some (type, start))
    (hname : ∃ c ∈ path.chars, c ≠ slash) (hshort : ¬ IsShortcut cwd path.chars)
    (hmake : ¬ MakesLast flags path.chars) :
    LookupSafe s rootVnode cwd path flags attr ↔ PathOk s start path.chars flags attr := by
  rw [LookupSafe, vfsLookup_eq_walk hname hshort hmake]
  rcases walk_spec h hstart (components path.chars) with
    ⟨hno, hrun⟩ | ⟨hpass, s', hsame, ⟨hend, hrun⟩ | ⟨k, w, type', hend, hof, hrun⟩⟩
  · refine iff_of_false ?_ fun hok => hno hok.passes
    rintro ⟨x, s', hx, -⟩
    rw [hrun] at hx
    cases hx
  · -- a name is missing
    refine iff_of_true ⟨_, s', hrun, fun r hr => ?_, fun _ vn hvn => nomatch hvn⟩
      ⟨hname, hpass, fun _ _ k hk => ?_, fun _ hm => absurd hm hmake⟩
    · obtain rfl := Except.error.inj hr
      decide
    · rw [hend] at hk
      cases hk
  -- a look-up that asks for a directory is safe when it ends at one
  · have hdir : (∃ n, s'.vnodeOf w = some (.vdir, n)) ↔ IsDir s k := by
      rw [h.isDir_iff hof, hsame.vnodeOf_eq, hof]
      constructor
      · rintro ⟨n, hn⟩
        exact congrArg Prod.fst (Option.some.inj hn)
      · rintro rfl
        exact ⟨k, rfl⟩
    constructor
    · rintro ⟨x, s'', hx, -, hwant⟩
      rw [hrun] at hx
      obtain ⟨rfl, rfl⟩ := Prod.mk.inj (Option.some.inj hx)
      refine ⟨hname, hpass, fun hw _ k' hk' => ?_, fun _ hm => absurd hm hmake⟩
      obtain rfl := Option.some.inj (hend.symm.trans hk')
      exact hdir.mp (hwant hw w rfl)
    · intro hok
      refine ⟨_, s', hrun, nofun, fun hw vn hvn => ?_⟩
      obtain rfl := Except.ok.inj hvn
      exact hdir.mpr (hok.dir_of_lookup hw hmake k hend)

/-- A lookup that creates the last name. -/
theorem lookupSafe_iff_of_create (h : WellFormed s) (hf : Fresh s) (hlen : 3 ≤ s.supply.length)
    (hstart : s.vnodeOf (startOf rootVnode cwd path.chars) = some (type, start))
    (hname : ∃ c ∈ path.chars, c ≠ slash) (hshort : ¬ IsShortcut cwd path.chars)
    (hmake : MakesLast flags path.chars) :
    LookupSafe s rootVnode cwd path flags attr ↔ PathOk s start path.chars flags attr := by
  rw [LookupSafe, vfsLookup_eq_create hname hshort hmake]
  have hcomps := components_eq path hname
  rw [if_pos hmake.2] at hcomps
  -- the last name is followed from a directory, too
  have hpasses : Passes s start (components path.chars) ↔
      Passes s start (namesBefore path.chars) ∧
        ∀ d ∈ endNode s start (namesBefore path.chars), IsDir s d := by
    rw [hcomps, passes_append]
    refine and_congr_right fun _ => forall₂_congr fun d _ => ?_
    exact ⟨fun hd => hd.1, fun hd => ⟨hd, fun _ _ => trivial⟩⟩
  rcases walk_spec h hstart (namesBefore path.chars) with
    ⟨hno, hrun⟩ | ⟨hpass, s₁, hsame, ⟨hend, hrun⟩ | ⟨d, w, type', hend, hof, hrun⟩⟩
  · refine iff_of_false ?_ fun hok => hno (hpasses.mp hok.passes).1
    rintro ⟨x, s', hx, -⟩
    rw [hrun] at hx
    cases hx
  · -- a name before the last is missing
    have hno : ∀ d, d ∉ endNode s start (namesBefore path.chars) := by
      intro d hd
      rw [hend] at hd
      cases hd
    rw [hrun]
    refine iff_of_true ⟨_, s₁, rfl, fun r hr => ?_, fun _ vn hvn => nomatch hvn⟩
      ⟨hname, hpasses.mpr ⟨hpass, fun d hd => absurd hd (hno d)⟩, fun _ hm => absurd hmake hm,
        fun _ _ d hd => absurd hd (hno d)⟩
    obtain rfl := Except.error.inj hr
    decide
  · rw [hrun, Option.bind_some]
    have h₁ := h.of_same hsame
    have hof₁ : s₁.vnodeOf w = some (type', d) := (hsame.vnodeOf_eq w).trans hof
    by_cases hdir : IsDir s d
    swap
    · refine iff_of_false ?_ fun hok => hdir ((hpasses.mp hok.passes).2 d hend)
      rintro ⟨x, s', hx, -⟩
      have hdir₁ : ¬ IsDir s₁ d := by
        unfold IsDir
        rwa [hsame.nodes_eq]
      dsimp only at hx
      rw [create_not_dir h₁ hof₁ hdir₁] at hx
      cases hx
    have hf₁ := hf.of_unused hsame (walk_unused h.inv hrun)
    have hlen₁ : 3 ≤ s₁.supply.length := (walk_unused h.inv hrun).supply_eq ▸ hlen
    obtain ⟨v, s', k, hcreate, hofv⟩ := create_in_dir h₁ hf₁ hlen₁ hof₁ (hdir.of_same hsame)
      (lastName path.chars) attr
    have hpass' := hpasses.mpr ⟨hpass, fun d' hd' => Option.some.inj (hend.symm.trans hd') ▸ hdir⟩
    dsimp only
    rw [hcreate]
    constructor
    · rintro ⟨x, s'', hx, -, hwant⟩
      obtain ⟨rfl, rfl⟩ := Prod.mk.inj (Option.some.inj hx)
      refine ⟨hname, hpass', fun _ hm => absurd hmake hm, fun hw _ d' _ => ?_⟩
      obtain ⟨n, hn⟩ := hwant hw v rfl
      exact congrArg Prod.fst (Option.some.inj (hofv.symm.trans hn))
    · intro hok
      refine ⟨.ok v, s', rfl, nofun, fun hw vn hvn => ?_⟩
      obtain rfl := Except.ok.inj hvn
      exact ⟨k, hofv.trans (by rw [hok.dir_of_create hw hmake d hend])⟩

/-- **The lookups that return what they should.** On a tree with memory left, from any vnode, for any path
and flags: `vfs_lookup` returns zero or a negative number, and a directory if it is asked for one, if and
only if it returns the root at once, or the path has a name, no name follows one that leads to a file or a
device, and what is looked up or created is a directory if one is wanted. -/
theorem vfs_lookup_safe_iff (h : WellFormed s) (hf : Fresh s) (hlen : 3 ≤ s.supply.length) {root : ℕ}
    (hroot : s.vnodeOf rootVnode = some (.vdir, root))
    (hstart : s.vnodeOf (startOf rootVnode cwd path.chars) = some (type, start)) :
    LookupSafe s rootVnode cwd path flags attr ↔
      IsShortcut cwd path.chars ∨ PathOk s start path.chars flags attr := by
  by_cases hshort : IsShortcut cwd path.chars
  · refine iff_of_true ⟨.ok rootVnode, s, ?_, nofun, fun _ vn hvn => ?_⟩ (.inl hshort)
    · rw [Posix.vfsLookup_shortcut hshort]
      rfl
    · obtain rfl := Except.ok.inj hvn
      exact ⟨root, hroot⟩
  · rw [or_iff_right hshort]
    by_cases hname : ∃ c ∈ path.chars, c ≠ slash
    · by_cases hmake : MakesLast flags path.chars
      · exact lookupSafe_iff_of_create h hf hlen hstart hname hshort hmake
      · exact lookupSafe_iff_of_walk h hstart hname hshort hmake
    · refine iff_of_false ?_ fun hok => hname hok.has_name
      rintro ⟨x, s', hx, -⟩
      rw [Posix.vfsLookup_no_name path hname hshort] at hx
      cases hx

end Result

/-! ## A device on the way -/

/-- With `dev` and a device in it, the tree is well-formed. -/
theorem wellFormed_withConsole : WellFormed withConsole.mem := by
  have hrun : machine.exec emptyMount [.createDev, .devfsMakeNode console] = some withConsole := rfl
  have hreach : machine.Reach (fun s a => fresh s a = true) emptyMount withConsole :=
    Machine.reach_of_exec (fun _ _ h => h) (by decide) hrun
  refine ⟨(hreach.invariant emptyMount_mounted.good fun _ _ _ hgood hc hs => hgood.step hc hs).inv, ?_⟩
  rw [Heap.forall_get?]
  decide

/-- What the example has left to allocate is not in use. -/
theorem fresh_withConsole : Fresh withConsole.mem := by
  refine ⟨by decide, by decide, by decide, fun n node o hn htype ho => ?_⟩
  have hreg : ∀ n node, withConsole.mem.nodes.get? n = some node → node.attr.type ≠ .vreg := by
    rw [Heap.forall_get?]
    decide
  exact absurd htype (hreg n node hn)

/-- `"/dev/console/a"`. -/
def pathConsoleA : Pathname :=
  ⟨slash :: dev ++ slash :: console ++ slash :: nameA, by decide, by decide, by decide⟩

/-- A file that is made in `dev`. -/
theorem vfs_lookup_safe_dev :
    LookupSafe withConsole.mem 2 none pathA ⟨true, false⟩ ⟨.vreg, 0, 0⟩ := by
  have hwant : ¬ WantsDir ⟨true, false⟩ pathA.chars := by
    rintro (h | h)
    · cases h
    · revert h
      decide
  have hok : PathOk withConsole.mem 1 pathA.chars ⟨true, false⟩ ⟨.vreg, 0, 0⟩ :=
    ⟨by decide, by decide, fun hw => absurd hw hwant, fun hw => absurd hw hwant⟩
  have hroot : withConsole.mem.vnodeOf 2 = some (.vdir, 1) := rfl
  have hstart : withConsole.mem.vnodeOf (startOf 2 none pathA.chars) = some (.vdir, 1) := rfl
  exact (vfs_lookup_safe_iff wellFormed_withConsole fresh_withConsole (by decide) hroot hstart).mpr
    (.inr hok)

/-- **A device on the way.** For `/dev/console/a` the kernel calls the operation `lookup` of a device,
which is null. -/
theorem vfs_lookup_through_device :
    ¬ ∀ (s : Mem) (rootVnode root : ℕ) (path : Pathname) (flags : LookupFlags) (attr : Vattr),
      WellFormed s → Fresh s → 3 ≤ s.supply.length → s.vnodeOf rootVnode = some (.vdir, root) →
      LookupSafe s rootVnode none path flags attr := by
  intro h
  have hsafe := h withConsole.mem 2 1 pathConsoleA ⟨false, false⟩ ⟨.vnon, 0, 0⟩ wellFormed_withConsole
    fresh_withConsole (by decide) rfl
  have hstart : withConsole.mem.vnodeOf (startOf 2 none pathConsoleA.chars) = some (.vdir, 1) := rfl
  have hok := (lookupSafe_iff_of_walk wellFormed_withConsole hstart (by decide) (by decide)
    fun hmake => Bool.false_ne_true hmake.1).mp hsafe
  have hpass := hok.passes
  revert hpass
  decide

end Scalux.Tmpfs
