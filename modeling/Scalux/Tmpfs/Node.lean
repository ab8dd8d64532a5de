import Scalux.Lib.Heap
import Scalux.Posix.Vfs
import Scalux.Tmpfs.Readdir

/-! # The nodes of a tmpfs

`tlookup`, `tmakenode`, `tmp_create` and `tmp_lookup` (`tmpfs/tmpfs.c`), `tmpfs_mount` and `tmpfs_vget`
(`tmpfs/tmp_vfsops.c`).  A directory is a list of entries, each a name and a node; a node has at most one
vnode, which is made when it is asked for.

* `kmem_alloc` returns the next address of a list that is given; no result stands for a failed assertion,
  for the dereference of a null pointer, and for an address that is in use or a list that is at its end.
* Left out are the device number, which only `spec_setup_vnode` reads, and the contents of files.
* **`Inv`**: nodes and vnodes belong together, and the entries of a directory are of nodes.
* **`Same`**: what a lookup leaves alone; **`Creates`**: what a creation changes. -/

namespace Scalux.Tmpfs

open Posix (Vattr Vtype Kernel Vnops)

instance : Inhabited Vattr := ⟨⟨.vnon, 0, 0⟩⟩

/-- `tmpnode_t`; the fields of the union are read for their own type of node only. -/
structure Tmpnode where
  /-- The address of the vnode. -/
  vn : Option ℕ
  attr : Vattr
  entries : List Tmpdirent
  /-- The node of the parent directory. -/
  parent : Option ℕ
  /-- The address of the object of a regular file. -/
  vmobj : Option ℕ
  deriving DecidableEq, Repr, Inhabited

instance : Inhabited Vtype := ⟨.vnon⟩

/-- `vnode_t` of a node. -/
structure Vnode where
  refcnt : ℕ
  isroot : Bool
  type : Vtype
  vmobj : Option ℕ
  /-- The address of the node. -/
  data : ℕ
  deriving DecidableEq, Repr, Inhabited

/-- The nodes and vnodes of a file system, and the addresses that `kmem_alloc` is going to return. -/
structure Mem where
  nodes : Heap Tmpnode
  vnodes : Heap Vnode
  supply : List ℕ

/-- `ENOENT`. -/
def enoent : ℤ := 2

/-- `".."`. -/
def dotdot : Name := [Posix.dot, Posix.dot]

/-- `kmem_alloc`. -/
def kmemAlloc : Kernel Mem ℕ := fun s =>
  match s.supply with
  | [] => none
  | a :: rest => some (a, { s with supply := rest })

/-- `tlookup`. -/
def tlookup (node : Tmpnode) (filename : Name) : Option Tmpdirent :=
  node.entries.find? fun dent => dent.name = filename

/-- The object `tmakenode` makes for a regular file. -/
def makeObj (type : Vtype) : Kernel Mem (Option ℕ) := fun s =>
  if type = .vreg then (kmemAlloc s).map fun x => (some x.1, x.2) else some (none, s)

/-- `tmakenode`. -/
def tmakenode (dn : ℕ) (name : Name) (attr : Vattr) : Kernel Mem ℕ := fun s => do
  let (n, s) ← kmemAlloc s
  let (vmobj, s) ← makeObj attr.type s
  let parent := if attr.type = .vdir then some dn else none
  let nodes ← s.nodes.alloc n ⟨none, { attr with size := 0 }, [], parent, vmobj⟩
  let dnode ← nodes.get? dn
  let nodes := nodes.set dn { dnode with entries := dnode.entries ++ [⟨name, n⟩] }
  return (n, { s with nodes := nodes })

/-- `tmpfs_vget`. -/
def tmpfsVget (ino : ℕ) : Kernel Mem (ℤ × ℕ) := fun s => do
  let node ← s.nodes.get? ino
  match node.vn with
  | some vn => do
      let vnode ← s.vnodes.get? vn
      let vnodes := s.vnodes.set vn { vnode with refcnt := (vnode.refcnt + 1) % 2 ^ 64 }
      return ((0, vn), { s with vnodes := vnodes })
  -- the first vnode of a node has one reference
  | none => do
      let (vn, s) ← kmemAlloc s
      let vnodes ← s.vnodes.alloc vn ⟨1, false, node.attr.type, node.vmobj, ino⟩
      let nodes := s.nodes.set ino { node with vn := some vn }
      return ((0, vn), { s with nodes := nodes, vnodes := vnodes })

/-- `tmpfs_mount`: the vnode of the root.  The fields of the root that are not set are those of the
memory, `garbage`. -/
def tmpfsMount (garbage : Tmpnode) : Kernel Mem ℕ := fun s => do
  let (root, s) ← kmemAlloc s
  let node := { garbage with vn := none, attr := { garbage.attr with type := .vdir }, entries := [] }
  let nodes ← s.nodes.alloc root node
  let ((_, vroot), s) ← tmpfsVget root { s with nodes := nodes }
  let vnode ← s.vnodes.get? vroot
  return (vroot, { s with vnodes := s.vnodes.set vroot { vnode with isroot := true } })

/-- `tmp_create`. -/
def tmpCreate (dvn : ℕ) (pathname : Name) (attr : Vattr) : Kernel Mem (ℤ × ℕ) := fun s => do
  let dv ← s.vnodes.get? dvn
  if dv.type = .vdir then
    let (n, s) ← tmakenode dv.data pathname attr s
    tmpfsVget n s
  else none

/-- `tmp_lookup`. -/
def tmpLookup (vn : ℕ) (pathname : Name) : Kernel Mem (ℤ × ℕ) := fun s => do
  let v ← s.vnodes.get? vn
  let node ← s.nodes.get? v.data
  if node.attr.type = .vdir then
    -- `..` at the root is the root
    if pathname = dotdot then
      match node.parent with
      | none => return ((0, vn), s)
      | some parent => do
          let dn ← s.nodes.get? parent
          let out ← dn.vn
          return ((0, out), s)
    else
      match tlookup node pathname with
      | none => return ((-enoent, vn), s)
      | some tdent => tmpfsVget tdent.node s
  else none

/-- `tmpfs_vnops`; nothing is mounted on a vnode of a tmpfs.  Neither `tmpfs_spec_vnops`, where these are
null, nor the assertions of these let a vnode pass that is not of a directory. -/
def tmpfsVnops : Vnops Mem ℕ Empty where
  lookup := tmpLookup
  create := tmpCreate
  vfsmountedhere _ _ := none
  root vfs := vfs.elim

/-! ## The invariant -/

variable {s s' : Mem} {n k vn dvn : ℕ} {name : Name} {attr : Vattr} {node : Tmpnode} {r : ℤ}

/-- The type and the node of a vnode. -/
def Mem.vnodeOf (s : Mem) (vn : ℕ) : Option (Vtype × ℕ) :=
  (s.vnodes.get? vn).map fun v => (v.type, v.data)

/-- Every node has a vnode, which is its own, and the entries of a directory are of nodes. -/
structure Inv (s : Mem) : Prop where
  of_node : ∀ n node, s.nodes.get? n = some node → ∃ vn, node.vn = some vn ∧
    s.vnodeOf vn = some (node.attr.type, n)
  of_vnode : ∀ vn x, s.vnodeOf vn = some x → ∃ node, s.nodes.get? x.2 = some node ∧ node.vn = some vn
  entry : ∀ n node, s.nodes.get? n = some node → ∀ e ∈ node.entries, s.nodes.get? e.node ≠ none

/-- A lookup changes reference counts only. -/
structure Same (s s' : Mem) : Prop where
  nodes_eq : s'.nodes = s.nodes
  vnodeOf_eq : ∀ vn, s'.vnodeOf vn = s.vnodeOf vn

/-- Nothing has changed. -/
theorem Same.refl (s : Mem) : Same s s := ⟨rfl, fun _ => rfl⟩

/-- Two lookups. -/
theorem Same.trans {t : Mem} (h : Same s s') (h' : Same s' t) : Same s t :=
  ⟨h'.nodes_eq.trans h.nodes_eq, fun vn => (h'.vnodeOf_eq vn).trans (h.vnodeOf_eq vn)⟩

/-- A lookup keeps the invariant. -/
theorem Inv.of_same (h : Inv s) (hs : Same s s') : Inv s' where
  of_node n node hn := by
    rw [hs.nodes_eq] at hn
    obtain ⟨vn, hvn, hof⟩ := h.of_node n node hn
    exact ⟨vn, hvn, (hs.vnodeOf_eq vn).trans hof⟩
  of_vnode vn x hx := by
    rw [hs.vnodeOf_eq] at hx
    rw [hs.nodes_eq]
    exact h.of_vnode vn x hx
  entry n node hn e he := by
    rw [hs.nodes_eq] at hn ⊢
    exact h.entry n node hn e he

/-- Changing a vnode and neither its type nor its node. -/
theorem vnodeOf_set {v : Vnode} (v' : Vnode) (hv : s.vnodes.get? vn = some v) (htype : v'.type = v.type)
    (hdata : v'.data = v.data) (k : ℕ) :
    ((s.vnodes.set vn v').get? k).map (fun v => (v.type, v.data)) = s.vnodeOf k := by
  rw [Heap.get?_set hv]
  split
  · rename_i hk
    rw [hk, Mem.vnodeOf, hv, Option.map_some, Option.map_some, htype, hdata]
  · rfl

/-! ## `tmpfs_vget` -/

/-- Taking a block leaves nodes and vnodes. -/
theorem kmemAlloc_frame {a : ℕ} (hs : kmemAlloc s = some (a, s')) :
    s'.nodes = s.nodes ∧ s'.vnodes = s.vnodes := by
  unfold kmemAlloc at hs
  split at hs
  · cases hs
  · cases hs
    exact ⟨rfl, rfl⟩

/-- **`tmpfs_vget`** of a node that has a vnode returns it. -/
theorem vget_spec (h : Inv s) (hn : s.nodes.get? n = some node) (hvn : node.vn = some vn) :
    ∃ s', tmpfsVget n s = some ((0, vn), s') ∧ Same s s' := by
  obtain ⟨vn', hvn', hof⟩ := h.of_node n node hn
  obtain rfl := Option.some.inj (hvn.symm.trans hvn')
  obtain ⟨v, hv, -⟩ := Option.map_eq_some_iff.mp hof
  refine ⟨{ s with vnodes := s.vnodes.set vn { v with refcnt := (v.refcnt + 1) % 2 ^ 64 } }, ?_, rfl, ?_⟩
  · unfold tmpfsVget
    rw [hn, Option.bind_eq_bind, Option.bind_some, hvn]
    dsimp only
    rw [hv]
    rfl
  · exact vnodeOf_set _ hv rfl rfl

/-- **`tmpfs_vget`** of a node that has none makes one. -/
theorem vget_new {s' : Mem} {x : ℤ × ℕ} (hn : s.nodes.get? n = some node) (hvn : node.vn = none)
    (hs : tmpfsVget n s = some (x, s')) :
    x.1 = 0 ∧ s.vnodes.get? x.2 = none ∧
      (∀ k, s'.nodes.get? k = if k = n then some { node with vn := some x.2 } else s.nodes.get? k) ∧
      ∀ k, s'.vnodeOf k = if k = x.2 then some (node.attr.type, n) else s.vnodeOf k := by
  unfold tmpfsVget at hs
  rw [hn, Option.bind_eq_bind, Option.bind_some, hvn] at hs
  dsimp only at hs
  obtain ⟨⟨vn, s₁⟩, halloc, hs⟩ := Option.bind_eq_some_iff.mp hs
  obtain ⟨vnodes, hv, hs⟩ := Option.bind_eq_some_iff.mp hs
  cases hs
  obtain ⟨hnodes, hvnodes⟩ := kmemAlloc_frame halloc
  rw [hvnodes] at hv
  refine ⟨rfl, Heap.get?_of_alloc hv, fun k => ?_, fun k => ?_⟩
  · show (s₁.nodes.set n _).get? k = _
    rw [hnodes, Heap.get?_set hn]
  · show (vnodes.get? k).map _ = _
    rw [Heap.get?_alloc hv]
    split <;> rfl

/-! ## `tmp_lookup` -/

/-- What `tmp_lookup` does: nothing, or `tmpfs_vget` of the node of an entry. -/
theorem tmpLookup_cases {x : ℤ × ℕ} (hs : tmpLookup vn name s = some (x, s')) :
    s' = s ∨ ∃ d node tdent, s.nodes.get? d = some node ∧ tdent ∈ node.entries ∧
      tmpfsVget tdent.node s = some (x, s') := by
  unfold tmpLookup at hs
  obtain ⟨v, -, hs⟩ := Option.bind_eq_some_iff.mp hs
  obtain ⟨node, hn, hs⟩ := Option.bind_eq_some_iff.mp hs
  split at hs
  swap
  · cases hs
  split at hs
  -- `..` answers the vnode of the parent, which exists already
  · cases hp : node.parent with
    | none =>
        rw [hp] at hs
        cases hs
        exact .inl rfl
    | some parent =>
        rw [hp] at hs
        obtain ⟨dn, -, hs⟩ := Option.bind_eq_some_iff.mp hs
        obtain ⟨out, -, hs⟩ := Option.bind_eq_some_iff.mp hs
        cases hs
        exact .inl rfl
  · cases hfound : tlookup node name with
    | none =>
        rw [hfound] at hs
        cases hs
        exact .inl rfl
    | some tdent =>
        rw [hfound] at hs
        exact .inr ⟨v.data, node, tdent, hn, List.mem_of_find?_eq_some hfound, hs⟩

/-- **`tmp_lookup`** changes reference counts only. -/
theorem lookup_same {x : ℤ × ℕ} (h : Inv s) (hs : tmpLookup vn name s = some (x, s')) : Same s s' := by
  rcases tmpLookup_cases hs with rfl | ⟨d, node, tdent, hn, hmem, hs⟩
  · exact .refl s'
  · obtain ⟨node', hn'⟩ := Option.ne_none_iff_exists'.mp (h.entry _ _ hn tdent hmem)
    obtain ⟨vn', hvn', -⟩ := h.of_node _ _ hn'
    obtain ⟨s₁, hget, hsame⟩ := vget_spec h hn' hvn'
    rw [hget] at hs
    cases hs
    exact hsame

/-- The directory of a vnode, as far as it is one. -/
def Mem.dirOf (s : Mem) (dvn : ℕ) : Option (ℕ × Tmpnode) := do
  let (type, n) ← s.vnodeOf dvn
  if type = .vdir then
    let node ← s.nodes.get? n
    return (n, node)
  else none

/-- A vnode is of the directory it was of before a lookup. -/
theorem Same.dirOf_eq (h : Same s s') (dvn : ℕ) : s'.dirOf dvn = s.dirOf dvn := by
  unfold Mem.dirOf
  rw [h.vnodeOf_eq, h.nodes_eq]

/-- The directory of a vnode is the node it is of, when that is a directory. -/
theorem dirOf_eq_some {d : ℕ} {dnode : Tmpnode} :
    s.dirOf dvn = some (d, dnode) ↔ s.vnodeOf dvn = some (.vdir, d) ∧ s.nodes.get? d = some dnode := by
  unfold Mem.dirOf
  constructor
  · intro hd
    obtain ⟨⟨type, n⟩, hof, hd⟩ := Option.bind_eq_some_iff.mp hd
    dsimp only at hd
    split at hd
    · rename_i htype
      obtain ⟨node, hnode, hd⟩ := Option.bind_eq_some_iff.mp hd
      cases hd
      exact ⟨htype ▸ hof, hnode⟩
    · cases hd
  · rintro ⟨hof, hnode⟩
    rw [hof, Option.bind_eq_bind, Option.bind_some]
    dsimp only
    rw [if_pos rfl, hnode]
    rfl

/-- The node of a directory is one. -/
theorem Inv.dir_type {d : ℕ} {dnode : Tmpnode} (h : Inv s) (hd : s.dirOf dvn = some (d, dnode)) :
    dnode.attr.type = .vdir := by
  obtain ⟨hof, hnode⟩ := dirOf_eq_some.mp hd
  obtain ⟨node, hnode', hvn⟩ := h.of_vnode dvn _ hof
  obtain rfl := Option.some.inj (hnode.symm.trans hnode')
  obtain ⟨vn, hvn', hof'⟩ := h.of_node d dnode hnode
  obtain rfl := Option.some.inj (hvn.symm.trans hvn')
  rw [hof] at hof'
  exact (congrArg Prod.fst (Option.some.inj hof')).symm

/-- **`tmp_lookup`** of the name of an entry returns the vnode of its node, if no entry before it has the
same name. -/
theorem lookup_entry {d : ℕ} {dnode : Tmpnode} {e : Tmpdirent} (h : Inv s)
    (hd : s.dirOf dvn = some (d, dnode)) (hname : e.name ≠ dotdot)
    (hfound : tlookup dnode e.name = some e) (hn : s.nodes.get? e.node = some node)
    (hvn : node.vn = some vn) : ∃ s', tmpLookup dvn e.name s = some ((0, vn), s') := by
  have htype := h.dir_type hd
  obtain ⟨hof, hnode⟩ := dirOf_eq_some.mp hd
  obtain ⟨v, hv, hvd⟩ := Option.map_eq_some_iff.mp hof
  obtain ⟨-, rfl⟩ := Prod.mk.inj hvd
  obtain ⟨s', hget, -⟩ := vget_spec h hn hvn
  refine ⟨s', ?_⟩
  unfold tmpLookup
  rw [hv, Option.bind_eq_bind, Option.bind_some, hnode, Option.bind_eq_bind, Option.bind_some,
    if_pos htype, if_neg hname, hfound]
  exact hget

/-! ## `tmp_create` -/

/-- What a creation changes: the directory has a new entry at its end, for a new node with a new
vnode. -/
structure Creates (dvn : ℕ) (name : Name) (attr : Vattr) (vn : ℕ) (s s' : Mem) : Prop where
  made : ∃ d dnode n new, s.dirOf dvn = some (d, dnode) ∧ s.nodes.get? n = none ∧
    s.vnodeOf vn = none ∧ new.vn = some vn ∧ new.attr.type = attr.type ∧ new.entries = [] ∧
    (∀ k, s'.nodes.get? k = if k = n then some new
      else if k = d then some { dnode with entries := dnode.entries ++ [⟨name, n⟩] }
      else s.nodes.get? k) ∧
    ∀ k, s'.vnodeOf k = if k = vn then some (attr.type, n) else s.vnodeOf k

/-- Making the object of a file leaves nodes and vnodes. -/
theorem makeObj_frame {type : Vtype} {o : Option ℕ} (hs : makeObj type s = some (o, s')) :
    s'.nodes = s.nodes ∧ s'.vnodes = s.vnodes := by
  unfold makeObj at hs
  split at hs
  · obtain ⟨⟨a, s₁⟩, halloc, hs⟩ := Option.map_eq_some_iff.mp hs
    cases hs
    exact kmemAlloc_frame halloc
  · cases hs
    exact ⟨rfl, rfl⟩

/-- `tmakenode` adds an entry for a new node. -/
theorem tmakenode_spec {d : ℕ} {dnode : Tmpnode} (hd : s.nodes.get? d = some dnode)
    (hs : tmakenode d name attr s = some (n, s')) :
    s'.vnodes = s.vnodes ∧ s.nodes.get? n = none ∧ ∃ new : Tmpnode,
      new.vn = none ∧ new.attr.type = attr.type ∧ new.entries = [] ∧
      new.parent = (if attr.type = .vdir then some d else none) ∧
      ∀ k, s'.nodes.get? k = if k = n then some new
        else if k = d then some { dnode with entries := dnode.entries ++ [⟨name, n⟩] }
        else s.nodes.get? k := by
  unfold tmakenode at hs
  obtain ⟨⟨a, s₁⟩, halloc, hs⟩ := Option.bind_eq_some_iff.mp hs
  obtain ⟨⟨vmobj, s₂⟩, hobj, hs⟩ := Option.bind_eq_some_iff.mp hs
  obtain ⟨nodes, hnew, hs⟩ := Option.bind_eq_some_iff.mp hs
  obtain ⟨dnode', hd', hs⟩ := Option.bind_eq_some_iff.mp hs
  cases hs
  obtain ⟨hn₁, hv₁⟩ := kmemAlloc_frame halloc
  obtain ⟨hn₂, hv₂⟩ := makeObj_frame hobj
  rw [hn₂, hn₁] at hnew
  have hfresh := Heap.get?_of_alloc hnew
  -- the directory was on the heap before the node was allocated
  have hne : d ≠ n := by
    rintro rfl
    rw [hd] at hfresh
    cases hfresh
  have hget : nodes.get? d = some dnode := by rw [Heap.get?_alloc hnew, if_neg hne, hd]
  obtain rfl := Option.some.inj (hget.symm.trans hd')
  refine ⟨hv₂.trans hv₁, hfresh, ⟨none, { attr with size := 0 }, [],
    if attr.type = .vdir then some d else none, vmobj⟩, rfl, rfl, rfl, rfl, fun k => ?_⟩
  show (nodes.set d _).get? k = _
  rw [Heap.get?_set hget, Heap.get?_alloc hnew]
  by_cases hk : k = d
  · subst hk
    rw [if_pos rfl, if_neg hne, if_pos rfl]
  · rw [if_neg hk, if_neg hk]

/-- **`tmp_create`** makes a node, whose parent is the directory if it is one itself, and its vnode. -/
theorem create_made {x : ℤ × ℕ} (h : Inv s) (hs : tmpCreate dvn name attr s = some (x, s')) :
    x.1 = 0 ∧ ∃ d dnode n new, s.dirOf dvn = some (d, dnode) ∧ s.nodes.get? n = none ∧
      s.vnodeOf x.2 = none ∧ new.vn = some x.2 ∧ new.attr.type = attr.type ∧ new.entries = [] ∧
      new.parent = (if attr.type = .vdir then some d else none) ∧
      (∀ k, s'.nodes.get? k = if k = n then some new
        else if k = d then some { dnode with entries := dnode.entries ++ [⟨name, n⟩] }
        else s.nodes.get? k) ∧
      ∀ k, s'.vnodeOf k = if k = x.2 then some (attr.type, n) else s.vnodeOf k := by
  unfold tmpCreate at hs
  obtain ⟨dv, hdv, hs⟩ := Option.bind_eq_some_iff.mp hs
  split at hs
  swap
  · cases hs
  rename_i hdir
  obtain ⟨⟨n, s₁⟩, hmake, hget⟩ := Option.bind_eq_some_iff.mp hs
  obtain ⟨dnode, hd, -⟩ := h.of_vnode dvn (dv.type, dv.data) (by rw [Mem.vnodeOf, hdv]; rfl)
  obtain ⟨hvnodes, hfresh, new, hvn, htype, hentries, hparent, hnodes⟩ := tmakenode_spec hd hmake
  have hnew : s₁.nodes.get? n = some new := by rw [hnodes, if_pos rfl]
  -- the node is made first, `vget` then gives it its vnode
  obtain ⟨hzero, hvfresh, hnodes', hof⟩ := vget_new hnew hvn hget
  have hvfresh : s.vnodeOf x.2 = none := by
    rw [hvnodes] at hvfresh
    rw [Mem.vnodeOf, hvfresh]
    rfl
  refine ⟨hzero, dv.data, dnode, n, { new with vn := some x.2 }, ?_, hfresh, hvfresh, rfl, htype,
    hentries, hparent, fun k => ?_, fun k => ?_⟩
  · refine dirOf_eq_some.mpr ⟨?_, hd⟩
    rw [Mem.vnodeOf, hdv, ← hdir]
    rfl
  · rw [hnodes' k, hnodes k]
    by_cases hk : k = n
    · rw [if_pos hk, if_pos hk]
    · rw [if_neg hk, if_neg hk, if_neg hk]
  · rw [hof k, htype]
    unfold Mem.vnodeOf
    rw [hvnodes]

/-- A node that is there before a creation is there after it, with the entries it had. -/
theorem node_kept {d j : ℕ} {dnode new : Tmpnode} (hfresh : s.nodes.get? n = none)
    (hd : s.nodes.get? d = some dnode)
    (hnodes : ∀ k, s'.nodes.get? k = if k = n then some new
      else if k = d then some { dnode with entries := dnode.entries ++ [⟨name, n⟩] }
      else s.nodes.get? k) (hj : s.nodes.get? j = some node) :
    ∃ node', s'.nodes.get? j = some node' ∧ node'.parent = node.parent ∧ node'.attr = node.attr ∧
      ∀ e ∈ node.entries, e ∈ node'.entries := by
  have hjn : j ≠ n := by
    rintro rfl
    rw [hfresh] at hj
    cases hj
  rw [hnodes, if_neg hjn]
  by_cases hjd : j = d
  · subst hjd
    obtain rfl := Option.some.inj (hd.symm.trans hj)
    exact ⟨_, if_pos rfl, rfl, rfl, fun e he => List.mem_append_left _ he⟩
  · exact ⟨node, by rw [if_neg hjd, hj], rfl, rfl, fun e he => he⟩

/-- A node that is there after a creation is the new one, or was there before, and the only new entry is
that of the new node in its directory. -/
theorem node_of_created {d j : ℕ} {dnode new node' : Tmpnode} (hd : s.nodes.get? d = some dnode)
    (hnodes : ∀ k, s'.nodes.get? k = if k = n then some new
      else if k = d then some { dnode with entries := dnode.entries ++ [⟨name, n⟩] }
      else s.nodes.get? k) (hj : s'.nodes.get? j = some node') :
    (j = n ∧ node' = new) ∨ ∃ node, s.nodes.get? j = some node ∧ node'.parent = node.parent ∧
      node'.attr = node.attr ∧ ∀ e ∈ node'.entries, e ∈ node.entries ∨ (j = d ∧ e = ⟨name, n⟩) := by
  rw [hnodes] at hj
  split at hj
  · rename_i hjn
    exact .inl ⟨hjn, (Option.some.inj hj).symm⟩
  · split at hj
    · rename_i hjd
      obtain rfl := Option.some.inj hj
      refine .inr ⟨dnode, hjd ▸ hd, rfl, rfl, fun e he => ?_⟩
      rcases List.mem_append.mp he with he | he
      · exact .inl he
      · exact .inr ⟨hjd, List.mem_singleton.mp he⟩
    · exact .inr ⟨node', hj, rfl, rfl, fun e he => .inl he⟩

/-- What `tmp_create` changes. -/
theorem create_spec {x : ℤ × ℕ} (h : Inv s) (hs : tmpCreate dvn name attr s = some (x, s')) :
    x.1 = 0 ∧ Creates dvn name attr x.2 s s' := by
  obtain ⟨hzero, d, dnode, n, new, hd, hfresh, hvfresh, hvn, htype, hentries, -, hnodes, hof⟩ :=
    create_made h hs
  exact ⟨hzero, d, dnode, n, new, hd, hfresh, hvfresh, hvn, htype, hentries, hnodes, hof⟩

/-- A lookup before it. -/
theorem Creates.of_same {t : Mem} (h : Same s s') (hc : Creates dvn name attr vn s' t) :
    Creates dvn name attr vn s t := by
  obtain ⟨d, dnode, n, new, hd, hfresh, hvfresh, hvn, htype, hentries, hnodes, hof⟩ := hc.made
  rw [h.dirOf_eq] at hd
  rw [h.nodes_eq] at hfresh hnodes
  rw [h.vnodeOf_eq] at hvfresh
  refine ⟨d, dnode, n, new, hd, hfresh, hvfresh, hvn, htype, hentries, hnodes, fun k => ?_⟩
  rw [hof, h.vnodeOf_eq]

/-- A creation leaves every node its vnode and its entries. -/
theorem Creates.node_stays (hc : Creates dvn name attr vn s s') (hk : s.nodes.get? k = some node) :
    ∃ node', s'.nodes.get? k = some node' ∧ node'.vn = node.vn ∧ node.entries ⊆ node'.entries := by
  obtain ⟨d, dnode, n, new, hd, hfresh, -, -, -, -, hnodes, -⟩ := hc.made
  have hkn : k ≠ n := by
    rintro rfl
    rw [hfresh] at hk
    cases hk
  rw [hnodes, if_neg hkn]
  by_cases hkd : k = d
  · subst hkd
    obtain rfl := Option.some.inj ((dirOf_eq_some.mp hd).2.symm.trans hk)
    exact ⟨_, if_pos rfl, rfl, List.subset_append_left _ _⟩
  · exact ⟨node, by rw [if_neg hkd, hk], rfl, List.Subset.refl _⟩

/-- A creation leaves every directory its entries. -/
theorem Creates.dirOf_stays {w d : ℕ} {dnode : Tmpnode} (hc : Creates dvn name attr vn s s')
    (hd : s.dirOf w = some (d, dnode)) :
    ∃ dnode', s'.dirOf w = some (d, dnode') ∧ dnode.entries ⊆ dnode'.entries := by
  obtain ⟨hof, hnode⟩ := dirOf_eq_some.mp hd
  obtain ⟨dnode', hnode', -, hsub⟩ := hc.node_stays hnode
  refine ⟨dnode', dirOf_eq_some.mpr ⟨?_, hnode'⟩, hsub⟩
  obtain ⟨_, _, _, _, _, -, hvfresh, -, -, -, -, hof'⟩ := hc.made
  have hne : w ≠ vn := by
    rintro rfl
    rw [hvfresh] at hof
    cases hof
  rw [hof', if_neg hne, hof]

/-- A creation keeps the invariant. -/
theorem Inv.of_creates (h : Inv s) (hc : Creates dvn name attr vn s s') : Inv s' := by
  obtain ⟨d, dnode, n, new, hd, hfresh, hvfresh, hvn, htype, hentries, hnodes, hof⟩ := hc.made
  obtain ⟨-, hdn⟩ := dirOf_eq_some.mp hd
  -- a vnode in use is not the new one
  have hvne : ∀ {k x}, s.vnodeOf k = some x → k ≠ vn := by
    rintro k x hx rfl
    rw [hvfresh] at hx
    cases hx
  constructor
  case of_node =>
    intro k node hk
    rw [hnodes] at hk
    split at hk
    · rename_i hkn
      cases hk
      exact ⟨vn, hvn, by rw [hof, if_pos rfl, htype, hkn]⟩
    · split at hk
      · rename_i hkd
        cases hk
        obtain ⟨w, hw, hofw⟩ := h.of_node d dnode hdn
        exact ⟨w, hw, by rw [hof, if_neg (hvne hofw), hofw, hkd]⟩
      · obtain ⟨w, hw, hofw⟩ := h.of_node k node hk
        exact ⟨w, hw, by rw [hof, if_neg (hvne hofw), hofw]⟩
  case of_vnode =>
    intro w x hx
    rw [hof] at hx
    split at hx
    · rename_i hw
      cases hx
      exact ⟨new, by rw [hnodes, if_pos rfl], hw ▸ hvn⟩
    · obtain ⟨node, hnode, hnvn⟩ := h.of_vnode w x hx
      obtain ⟨node', hnode', hvn', -⟩ := hc.node_stays hnode
      exact ⟨node', hnode', hvn'.trans hnvn⟩
  case entry =>
    -- no node disappears
    have hkeep : ∀ {k}, s.nodes.get? k ≠ none → s'.nodes.get? k ≠ none := by
      intro k hk
      obtain ⟨node, hnode⟩ := Option.ne_none_iff_exists'.mp hk
      obtain ⟨node', hnode', -⟩ := hc.node_stays hnode
      rw [hnode']
      simp
    intro k node hk e he
    rw [hnodes] at hk
    split at hk
    · cases hk
      rw [hentries] at he
      cases he
    · split at hk
      · cases hk
        rcases List.mem_append.mp he with he | he
        · exact hkeep (h.entry d dnode hdn e he)
        · rw [List.mem_singleton.mp he, hnodes, if_pos rfl]
          simp
      · exact hkeep (h.entry k node hk e he)

end Scalux.Tmpfs
