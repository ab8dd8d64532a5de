import Scalux.Posix.Ramdisk

/-! # Unpacking the initial ramdisk reproduces the archive

The loop of `unpack_ramdisk` adds the entries of a well-formed archive to the tree of the file system one
by one.  The entry `./` is passed over: its type is that of the root, and its mode is lost.

* **`Holds`**: what the file system holds after a part of the archive.
* **`Holds.entry`**, **`unpackLoop_returns`**: one header, and the loop.
* **`ramdisk_reproduces`**: for every well-formed archive `unpack_ramdisk` returns; each path resolves to a
  node of its type, mode and contents, and there are no other nodes. -/

namespace Scalux.Posix.Ramdisk

open Tmpfs (Mem Tmpnode Vnode tmpfsVnops tmpfsMount tmpCreate dev devattr dotdot intOf Tree Fresh Made
  Same run_call_mounts)
/-! ## What is reproduced -/

/-- A lookup of the path from the root returns the vnode of the node `n`. -/
def Resolves (s : Fs) (rootVnode : ℕ) (path : Name) (n : ℕ) : Prop :=
  ∃ vn mem type, (vfsLookup tmpfsVnops 1 rootVnode (some rootVnode) path ⟨false, false⟩
      ⟨.vnon, 0, 0⟩).run.run s.mem = some (.ok vn, mem) ∧ s.mem.vnodeOf vn = some (type, n)

/-- The node is of the archived type, and a file has the archived size and bytes. -/
def SameContents (s : Fs) (node : Tmpnode) (e : Entry) : Prop :=
  some node.attr.type = e.kind.vtype ∧ (e.kind = .normal → node.attr.size = e.data.length ∧
    ∃ o, node.vmobj = some o ∧ ∀ i < e.data.length, some (s.objs o i) = e.data[i]?)

/-- The node has the archived permission bits. -/
def SameMode (node : Tmpnode) (e : Entry) : Prop := node.attr.mode % 0o10000 = e.mode % 0o10000

/-- Every node is the root, `dev`, or that of an entry which is a directory or a file. -/
def NothingElse (es : List Entry) (rootVnode : ℕ) (s : Fs) : Prop :=
  ∀ n node, s.mem.nodes.get? n = some node → ∃ path, Resolves s rootVnode path n ∧
    (path = [dot, slash] ∨ path = [dot, slash] ++ dev ∨
      ∃ e ∈ es, e.kind.vtype ≠ none ∧ path = e.name)

/-! ## What holds after a part of the archive -/

variable {s s' : Fs} {root rootVnode n d i size : ℕ} {place : List Name → Option ℕ} {es : List Entry}
  {e : Entry} {p : List Name} {c : Name} {img : ℕ → UInt8}

/-- The tree of the file system after the entries `es`. -/
structure Holds (es : List Entry) (root rootVnode : ℕ) (place : List Name → Option ℕ) (s : Fs) : Prop where
  tree : Tree s.mem root place
  fresh : Fresh s.mem
  rootVnode_eq : s.mem.vnodeOf rootVnode = some (.vdir, root)
  places : ∀ p, place p ≠ none ↔ p = [] ∨ p = [dev] ∨ ∃ e ∈ es, e.kind.vtype ≠ none ∧ e.path = p
  made : ∀ e ∈ es, e.kind.vtype ≠ none → e.path ≠ [] → ∃ n node, place e.path = some n ∧
    s.mem.nodes.get? n = some node ∧ SameContents s node e ∧ SameMode node e

/-- A directory of the tree. -/
theorem Holds.directory (h : Holds es root rootVnode place s)
    (hp : p = [] ∨ ∃ e ∈ es, e.kind = .directory ∧ e.path = p) :
    ∃ d dnode, place p = some d ∧ s.mem.nodes.get? d = some dnode ∧ dnode.attr.type = .vdir := by
  by_cases hnil : p = []
  · subst hnil
    obtain ⟨dnode, hdnode⟩ := h.tree.live [] root h.tree.root_eq
    refine ⟨root, dnode, h.tree.root_eq, hdnode, ?_⟩
    exact h.tree.inv.dir_type (Tmpfs.dirOf_eq_some.mpr ⟨h.rootVnode_eq, hdnode⟩)
  · obtain ⟨e, he, hkind, rfl⟩ := hp.resolve_left hnil
    have hmade : e.kind.vtype ≠ none := by
      rw [hkind]
      simp [Kind.vtype]
    obtain ⟨n, node, hplace, hnode, ⟨htype, -⟩, -⟩ := h.made e he hmade hnil
    refine ⟨n, node, hplace, hnode, ?_⟩
    rw [hkind] at htype
    exact Option.some.inj htype

/-- A lookup, along the tree. -/
theorem Holds.resolves (h : Holds es root rootVnode place s) (path : Pathname)
    (hhead : path.chars.head? ≠ some slash) (hnames : ∀ c ∈ components path.chars, c ≠ dotdot)
    (hname : ∃ c ∈ path.chars, c ≠ slash) (hn : place (components path.chars) = some n) :
    Resolves s rootVnode path.chars n := by
  obtain ⟨vn, mem, type, hwalk, -, hof⟩ := h.tree.walk (p := []) hnames h.tree.root_eq hn
    ⟨.vdir, h.rootVnode_eq⟩
  refine ⟨vn, mem, type, ?_, hof⟩
  rw [vfsLookup_of_name path.nonzero path.length_le hname, walkPath, if_neg hhead]
  exact hwalk

/-! ## Creations -/

/-- The name of an entry as a pathname. -/
def pathnameOf (e : Entry) (hok : PathOk e.path) (hlen : e.name.length < 100) : Pathname where
  chars := e.name
  nonzero := zero_notMem_name hok
  ne_nil := by
    obtain ⟨rest, hname, -⟩ := name_head e
    rw [hname]
    exact List.cons_ne_nil _ _
  length_le := by omega

/-- A name begins with a dot. -/
theorem name_dot (e : Entry) : e.name.head? ≠ some slash ∧ ∃ c ∈ e.name, c ≠ slash := by
  obtain ⟨rest, hname, -⟩ := name_head e
  rw [hname]
  exact ⟨by simp [slash, dot], dot, List.mem_cons_self, by decide⟩

/-- **`vfs_lookup` with `kLookupCreat`** makes the entry in its directory. -/
theorem Holds.lookupCreat (h : Holds es root rootVnode place s) (hok : PathOk e.path)
    (hlen : e.name.length < 100) (hp : e.path = p ++ [c])
    (hdir : p = [] ∨ ∃ e ∈ es, e.kind = .directory ∧ e.path = p) (hnew : place e.path = none)
    (hsup : 3 ≤ s.mem.supply.length) (type : Vtype) (mode : ℕ) :
    ∃ n vn vmobj mem, lookupCreat rootVnode e.name type mode s = some (.ok vn, { s with mem := mem }) ∧
      Made s.mem mem n vn ⟨type, mode, 0⟩ vmobj ∧
      Tree mem root (Function.update place e.path (some n)) ∧ Fresh mem ∧
      mem.vnodeOf rootVnode = some (.vdir, root) := by
  obtain ⟨hbefore, hlast, -, -⟩ := names_of_entry hok hp
  have hc := hok c (by rw [hp]; simp)
  have hpok : ∀ x ∈ p, x ≠ dotdot := fun x hx => (hok x (by rw [hp]; simp [hx])).2.2
  obtain ⟨d, dnode, hd, hdnode, hdtype⟩ := h.directory hdir
  -- the names before the last one lead to the directory
  obtain ⟨dvn, mem₁, type', hwalk, hsame, hof⟩ := h.tree.walk (p := []) hpok h.tree.root_eq
    (by rwa [List.nil_append]) ⟨.vdir, h.rootVnode_eq⟩
  have hunused := Tmpfs.walk_unused h.tree.inv hwalk
  have htree := h.tree.of_same hsame
  have hfresh := h.fresh.of_unused hsame hunused
  have hof₁ : mem₁.vnodeOf dvn = some (.vdir, d) := by
    rw [hsame.vnodeOf_eq, hof, h.tree.inv.vnode_type hof hdnode, hdtype]
  obtain ⟨n, vn, vmobj, mem, hcreate, hmade, htree', hfresh', hvnodes⟩ := htree.create hfresh
    (by rwa [hunused.supply_eq]) hd (by rwa [hsame.nodes_eq]) hdtype (by rwa [← hp]) hof₁ ⟨type, mode, 0⟩
  refine ⟨n, vn, vmobj, mem, ?_, hmade.of_same hsame hunused, hp ▸ htree', hfresh',
    hvnodes rootVnode _ ((hsame.vnodeOf_eq _).trans h.rootVnode_eq)⟩
  have hshort : ¬ IsShortcut (some rootVnode) (pathnameOf e hok hlen).chars := by
    rintro ⟨hhead | hcwd, -⟩
    · exact (name_dot e).1 hhead
    · cases hcwd
  have hstart : startOf rootVnode (some rootVnode) e.name = rootVnode := ite_self _
  have hvisit : visit tmpfsVnops 1 ⟨true, false⟩ ⟨type, mode, 0⟩ true dvn c
      = call (tmpCreate dvn c ⟨type, mode, 0⟩) >>= followMounts tmpfsVnops 1 := rfl
  have hlookup : vfsLookup tmpfsVnops 1 rootVnode (some rootVnode) e.name ⟨true, false⟩ ⟨type, mode, 0⟩
      = walk tmpfsVnops 1 (startOf rootVnode (some rootVnode) e.name) (namesBefore e.name) >>= fun vn =>
          if Counts (lastName e.name) then
            visit tmpfsVnops 1 ⟨true, false⟩ ⟨type, mode, 0⟩ true vn (lastName e.name)
          else pure vn :=
    vfsLookup_eq_last (pathnameOf e hok hlen) (name_dot e).2 hshort
  rw [hstart, hbefore, hlast] at hlookup
  rw [Ramdisk.lookupCreat, hlookup, run_bind, hwalk, Option.bind_some]
  dsimp only
  rw [if_pos hc.2.1, hvisit, run_call_mounts, hcreate]
  rfl

/-- **`tmp_write`** to a file that has just been made. -/
theorem write_returns {mem mem' : Mem} {vn mode : ℕ} {vmobj : Option ℕ} (objs : ℕ → ℕ → UInt8)
    {data : List UInt8} (hmade : Made mem mem' n vn ⟨.vreg, mode, 0⟩ vmobj)
    (hlen : data.length < 2 ^ 31) :
    ∃ r s, tmpWrite vn data 0 ⟨mem', objs⟩ = some (r, s) ∧ Tmpfs.Resized mem' s.mem ∧
      (∀ k, k ≠ n → s.mem.nodes.get? k = mem'.nodes.get? k) ∧
      ∃ o ∈ mem.supply, (∀ o', o' ≠ o → s.objs o' = objs o') ∧
        (∀ i < data.length, some (s.objs o i) = data[i]?) ∧
        ∃ node, s.mem.nodes.get? n = some node ∧ node.attr = ⟨.vreg, mode, data.length⟩ ∧
          node.vmobj = some o := by
  obtain ⟨d, hnode⟩ := hmade.node
  obtain ⟨o, ho, rfl⟩ := hmade.obj rfl
  unfold tmpWrite
  dsimp only
  rw [hmade.vnode, Option.bind_eq_bind, Option.bind_some, hnode, Option.bind_eq_bind, Option.bind_some]
  -- an empty file is not written at all
  by_cases hnil : data.length = 0
  · rw [if_pos hnil]
    refine ⟨_, _, rfl, ⟨rfl, rfl, fun _ => rfl⟩, fun _ _ => rfl, o, ho, fun _ _ => rfl, ?_, _, hnode, ?_,
      rfl⟩
    · intro i hi
      omega
    · rw [hnil]
      rfl
  · have hadd : add64 0 data.length = data.length := by rw [add64_eq (by omega), Nat.zero_add]
    -- the size grows from 0 to the length of the data
    have hgrow : (Tmpfs.madeNode d vn ⟨.vreg, mode, 0⟩ (some o)).attr.size < add64 0 data.length := by
      rw [hadd]
      exact Nat.pos_of_ne_zero hnil
    rw [if_neg hnil, if_pos hgrow, hadd]
    refine ⟨_, _, rfl, ⟨rfl, rfl, fun k => ?_⟩, fun k hk => ?_, o, ho, fun o' ho' => ?_, fun i hi => ?_,
      { Tmpfs.madeNode d vn ⟨.vreg, mode, 0⟩ (some o) with attr := ⟨.vreg, mode, data.length⟩ }, ?_, rfl,
      rfl⟩
    · show ((Heap.set _ n _).get? k).map _ = _
      rw [Heap.get?_set hnode]
      split
      · rename_i hk
        rw [hk, hnode]
        rfl
      · rfl
    · show (Heap.set _ n _).get? k = _
      rw [Heap.get?_set hnode, if_neg hk]
    · exact Function.update_of_ne ho' _ _
    · show some (Function.update objs o _ o i) = _
      rw [Function.update_self, writeObj, if_pos ⟨Nat.zero_le i, by omega⟩, Nat.sub_zero,
        List.getD_eq_getElem _ _ hi, List.getElem?_eq_getElem hi]
    · exact (Heap.get?_set hnode _ n).trans (if_pos rfl)

/-! ## One header -/

/-- A path that was made is one of the entries before or of the last. -/
theorem exists_made_append {p : List Name} :
    (∃ x ∈ es ++ [e], x.kind.vtype ≠ none ∧ x.path = p) ↔
      (∃ x ∈ es, x.kind.vtype ≠ none ∧ x.path = p) ∨ (e.kind.vtype ≠ none ∧ e.path = p) := by
  simp [or_and_right, exists_or]

/-- A header that makes nothing. -/
theorem Holds.skip (h : Holds es root rootVnode place s) (hskip : e.kind.vtype = none ∨ e.path = []) :
    Holds (es ++ [e]) root rootVnode place s where
  tree := h.tree
  fresh := h.fresh
  rootVnode_eq := h.rootVnode_eq
  places p := by
    rw [h.places p, exists_made_append]
    constructor
    · rintro (hp | hp | hp)
      · exact .inl hp
      · exact .inr (.inl hp)
      · exact .inr (.inr (.inl hp))
    · rintro (hp | hp | hp | ⟨hmade, hp⟩)
      · exact .inl hp
      · exact .inr (.inl hp)
      · exact .inr (.inr hp)
      -- an entry that is skipped is the root, whose place is there already
      · exact .inl (hp ▸ hskip.resolve_left hmade)
  made x hx hmade hpath := by
    rcases List.mem_append.mp hx with hx | hx
    · exact h.made x hx hmade hpath
    · obtain rfl := List.mem_singleton.mp hx
      exact absurd hskip (not_or.mpr ⟨hmade, hpath⟩)

/-- A header that makes a node: what was made before is as it was. -/
theorem Holds.add (h : Holds es root rootVnode place s) (hnew : place e.path = none)
    (hkind : e.kind.vtype ≠ none) (htree : Tree s'.mem root (Function.update place e.path (some n)))
    (hfresh : Fresh s'.mem) (hroot : s'.mem.vnodeOf rootVnode = some (.vdir, root))
    (hkept : ∀ k node, s.mem.nodes.get? k = some node → ∃ node', s'.mem.nodes.get? k = some node' ∧
      node'.attr = node.attr ∧ node'.vmobj = node.vmobj)
    (hobjs : ∀ o, o ∉ s.mem.supply → s'.objs o = s.objs o)
    (hmade : ∃ node, s'.mem.nodes.get? n = some node ∧ SameContents s' node e ∧ SameMode node e) :
    Holds (es ++ [e]) root rootVnode (Function.update place e.path (some n)) s' where
  tree := htree
  fresh := hfresh
  rootVnode_eq := hroot
  places p := by
    rw [exists_made_append, and_iff_right hkind, ← or_assoc, ← or_assoc, or_assoc (b := p = [dev]), ← h.places p]
    by_cases hp : p = e.path
    · subst hp
      simp
    · rw [Function.update_of_ne hp]
      simp [Ne.symm hp]
  made x hx hxmade hpath := by
    rcases List.mem_append.mp hx with hx | hx
    · obtain ⟨k, node, hplace, hnode, ⟨htype, hfile⟩, hmode⟩ := h.made x hx hxmade hpath
      obtain ⟨node', hnode', hattr, hobj⟩ := hkept k node hnode
      have hne : x.path ≠ e.path := by
        intro heq
        rw [heq, hnew] at hplace
        cases hplace
      refine ⟨k, node', by rw [Function.update_of_ne hne, hplace], hnode', ⟨by rw [hattr, htype], ?_⟩,
        by rw [SameMode, hattr]; exact hmode⟩
      intro hnormal
      obtain ⟨hsize, o, ho, hbytes⟩ := hfile hnormal
      -- the object of an older file is not that of a new one
      have hreg : node.attr.type = .vreg := by
        rw [hnormal] at htype
        exact Option.some.inj htype
      have hold := h.fresh.objs k node o hnode hreg ho
      refine ⟨by rw [hattr, hsize], o, hobj.trans ho, fun i hi => ?_⟩
      rw [hobjs o hold]
      exact hbytes i hi
    · obtain rfl := List.mem_singleton.mp hx
      obtain ⟨node, hnode, hsame⟩ := hmade
      exact ⟨n, node, Function.update_self .., hnode, hsame⟩

/-- The place of an entry is free until its header is read. -/
theorem Holds.place_eq_none {rest : List Entry} (h : Holds es root rootVnode place s)
    (hwf : WellFormed (es ++ e :: rest)) (hpath : e.path ≠ []) : place e.path = none := by
  by_contra hne
  rcases (h.places e.path).mp hne with hnil | hdev | ⟨x, hx, -, heq⟩
  · exact hpath hnil
  · exact hwf.not_dev e (by simp) hdev
  · have hnd := hwf.nodup
    rw [List.map_append, List.map_cons, List.nodup_append] at hnd
    exact hnd.2.2 x.path (List.mem_map_of_mem hx) e.path List.mem_cons_self heq

/-- **One header.** The body of the loop returns, as long as there is memory, and the entry is there. -/
theorem Holds.entry {rest : List Entry} (h : Holds es root rootVnode place s)
    (hwf : WellFormed (es ++ e :: rest)) (hat : HeaderAt img i e) (hpath : e.path ≠ [])
    (hsup : 3 ≤ s.mem.supply.length) :
    ∃ place' s', unpackEntry rootVnode img i (oct2i (field img (i + 124) 11)) s = some s' ∧
      Holds (es ++ [e]) root rootVnode place' s' ∧ s.mem.supply.length ≤ s'.mem.supply.length + 3 := by
  have hmem : e ∈ es ++ e :: rest := by simp
  have hok : PathOk e.path := hwf.names e hmem
  obtain ⟨p, c, hp⟩ : ∃ p c, e.path = p ++ [c] :=
    ⟨_, _, (List.dropLast_append_getLast hpath).symm⟩
  have hdrop : e.path.dropLast = p := by rw [hp, List.dropLast_concat]
  -- the directory of the entry is the root or an entry before it
  have hdir : p = [] ∨ ∃ x ∈ es, x.kind = .directory ∧ x.path = p := by
    by_cases hnil : p = []
    · exact .inl hnil
    · exact .inr (hdrop ▸ hwf.parents es e rest rfl hpath (hdrop ▸ hnil))
  have hnew := h.place_eq_none hwf hpath
  have hperm := hat.permissions
  unfold unpackEntry
  dsimp only
  rw [hat.type, hat.stringAt hok, hat.fsize]
  generalize permissions (oct2i (field img (i + 100) 7)) = mode at hperm ⊢
  cases hkind : e.kind with
  | directory =>
      have hflag : Kind.flag .directory = kUStarDirectory := rfl
      obtain ⟨n, vn, vmobj, mem, hlook, hmade, htree, hfresh, hroot⟩ :=
        h.lookupCreat hok hat.name_lt hp hdir hnew hsup .vdir mode
      rw [hflag, if_pos rfl, hlook]
      obtain ⟨d, hnode⟩ := hmade.node
      refine ⟨_, _, rfl, h.add hnew (by simp [hkind, Kind.vtype]) htree hfresh hroot hmade.kept
        (fun _ _ => rfl) ⟨_, hnode, ⟨?_, ?_⟩, ?_⟩, hmade.supply_le⟩
      · rw [hkind]
        rfl
      · rw [hkind]
        exact fun hnormal => by cases hnormal
      · exact hperm
  -- a regular file is created and then written with its data
  | normal =>
      have hflag : Kind.flag .normal = kUStarNormal := rfl
      have hne : kUStarNormal ≠ kUStarDirectory := by decide
      obtain ⟨n, vn, vmobj, mem, hlook, hmade, htree, hfresh, hroot⟩ :=
        h.lookupCreat hok hat.name_lt hp hdir hnew hsup .vreg mode
      have hbytes : (((e.data.length : ℕ) : ℤ) % 2 ^ 64).toNat = e.data.length := by
        have := hat.size_lt
        omega
      obtain ⟨r, s', hwrite, hresized, hothers, o, ho, hobjs, hdata, node, hnode, hattr, hobj⟩ :=
        write_returns s.objs hmade hat.size_lt
      rw [hflag, if_neg hne, if_pos rfl, hlook, hbytes, hat.data]
      refine ⟨_, s', ?_, h.add (n := n) hnew (by simp [hkind, Kind.vtype]) (htree.of_resized hresized)
        (hfresh.of_resized hresized) (by rw [hresized.vnodeOf_eq, hroot]) ?_ ?_ ⟨node, hnode, ⟨?_, ?_⟩, ?_⟩,
        ?_⟩
      · show (tmpWrite vn e.data 0 ⟨mem, s.objs⟩).bind _ = _
        rw [hwrite]
        rfl
      · intro k node' hk
        have hkn : k ≠ n := by
          rintro rfl
          rw [hmade.fresh] at hk
          cases hk
        rw [hothers k hkn]
        exact hmade.kept k node' hk
      · intro o' ho'
        exact hobjs o' fun heq => ho' (heq ▸ ho)
      · rw [hattr, hkind]
        rfl
      · exact fun _ => ⟨by rw [hattr], o, hobj, hdata⟩
      · rw [SameMode, hattr]
        exact hperm
      · rw [hresized.supply_eq]
        exact hmade.supply_le
  -- an entry of another type is passed over
  | other flag =>
      obtain ⟨hdirectory, hnormal⟩ := hwf.other e hmem flag hkind
      have hflag : Kind.flag (.other flag) = flag := rfl
      rw [hflag, if_neg hdirectory, if_neg hnormal]
      exact ⟨place, s, rfl, h.skip (.inl (by rw [hkind]; rfl)), by omega⟩

/-! ## The loop -/

/-- The end of an archive. -/
theorem archive_le (h : ArchiveAt img size i es) : i + 512 ≤ size := by
  induction es generalizing i with
  | nil => exact h.1
  | cons e es ih =>
      have hle := ih h.2
      omega

/-- **The loop** reads one header after the other, and returns at the block of zeroes. -/
theorem unpackLoop_returns {rest : List Entry} {fuel : ℕ} (hsize : size < 2 ^ 64)
    (h : Holds es root rootVnode place s) (hwf : WellFormed (es ++ rest))
    (hat : ArchiveAt img size i rest) (hsup : 3 * rest.length ≤ s.mem.supply.length)
    (hfuel : rest.length < fuel) :
    ∃ place' s', unpackLoop rootVnode img size fuel i s = some s' ∧
      Holds (es ++ rest) root rootVnode place' s' := by
  induction rest generalizing es i s place fuel with
  -- the archive ends with a block of zeros
  | nil =>
      obtain ⟨hle, hzero⟩ := hat
      obtain ⟨fuel, rfl⟩ := Nat.exists_eq_succ_of_ne_zero (Nat.ne_zero_of_lt hfuel)
      refine ⟨place, s, ?_, by rwa [List.append_nil]⟩
      have hfirst : img i = 0 := hzero 0 (by omega)
      rw [unpackLoop, if_pos (by omega)]
      exact if_pos hfirst
  | cons e rest ih =>
      obtain ⟨hhead, hrest⟩ := hat
      obtain ⟨fuel, rfl⟩ := Nat.exists_eq_succ_of_ne_zero (Nat.ne_zero_of_lt hfuel)
      have hle := archive_le hrest
      have hok : PathOk e.path := hwf.names e (by simp)
      obtain ⟨hfirst, htwo⟩ := hhead.first hok
      -- the next header is behind the data, rounded up to blocks of 512 bytes
      have hnext : (i + (512 + blocksSize (oct2i (field img (i + 124) 11)))) % 2 ^ 64
          = i + (512 + (e.data.length + 511) / 512 * 512) := by
        rw [hhead.fsize, blocksSize_natCast hhead.size_lt]
        exact Nat.mod_eq_of_lt (by omega)
      have hassoc : es ++ e :: rest = (es ++ [e]) ++ rest := by rw [List.append_assoc]; rfl
      rw [List.length_cons] at hsup hfuel
      rw [unpackLoop, if_pos (by omega)]
      dsimp only
      rw [hnext, if_neg hfirst, hassoc]
      rw [hassoc] at hwf
      -- the entry of the root itself is skipped
      by_cases hpath : e.path = []
      · rw [if_pos (htwo.mpr hpath)]
        exact ih (h.skip (.inr hpath)) hwf hrest (by omega) (by omega)
      · rw [if_neg fun hz => hpath (htwo.mp hz)]
        obtain ⟨place', s', hstep, h', hsup'⟩ := h.entry (hassoc ▸ hwf) hhead hpath (by omega)
        rw [hstep, Option.bind_some]
        exact ih h' hwf hrest (by omega) (by omega)

/-- `dev` and the root. -/
theorem holds_nil (garbage : Tmpnode) {supply : List ℕ} (hnd : supply.Nodup) (hlen : 5 ≤ supply.length) :
    ∃ root rootVnode mem devVnode mem' place, tmpfsMount garbage ⟨Heap.empty, Heap.empty, supply⟩
        = some (rootVnode, mem) ∧ tmpCreate rootVnode dev devattr mem = some ((0, devVnode), mem') ∧
      Holds [] root rootVnode place ⟨mem', fun _ _ => 0⟩ ∧ supply.length ≤ mem'.supply.length + 5 := by
  match supply, hlen with
  | a :: b :: rest, hlen =>
      obtain ⟨mem, hmount, htree, hfresh, hsup, hof⟩ := Tmpfs.mount_tree garbage hnd
      rw [List.length_cons, List.length_cons] at hlen
      obtain ⟨node, hnode⟩ := htree.live [] a rfl
      have htype := htree.inv.vnode_type hof hnode
      -- the file system holds the root and the device directory made at boot
      obtain ⟨n, vn, vmobj, mem', hcreate, hmade, htree', hfresh', hvnodes⟩ :=
        htree.create hfresh (by rw [hsup]; omega) (p := []) (c := dev) rfl hnode htype.symm rfl hof devattr
      refine ⟨a, b, mem, vn, mem', _, hmount, hcreate, ⟨htree', hfresh', hvnodes b _ hof, fun p => ?_, ?_⟩,
        ?_⟩
      · by_cases hp : p = [dev]
        · subst hp
          simp
        · have hne : p ≠ [] ++ [dev] := hp
          rw [Function.update_of_ne hne]
          simp [hp]
      · intro e he
        cases he
      · have hle := hmade.supply_le
        rw [hsup] at hle
        rw [List.length_cons, List.length_cons]
        omega

/-! ## The whole archive -/

/-- The components of the name of an entry are its path. -/
theorem components_name (hok : PathOk e.path) : components e.name = e.path := by
  by_cases hpath : e.path = []
  · have hname : e.name = [dot, slash] := by rw [Entry.name, hpath]
    rw [hname, hpath]
    decide
  · exact (names_of_entry hok (List.dropLast_append_getLast hpath).symm).2.2.1

/-- The name of an entry resolves to its node. -/
theorem Holds.resolves_entry (h : Holds es root rootVnode place s) (hok : PathOk e.path)
    (hlen : e.name.length < 100) (hn : place e.path = some n) : Resolves s rootVnode e.name n := by
  have hcomponents := components_name hok
  refine h.resolves (pathnameOf e hok hlen) (name_dot e).1 ?_ (name_dot e).2 ?_
  · show ∀ c ∈ components e.name, c ≠ dotdot
    rw [hcomponents]
    exact fun c hc => (hok c hc).2.2
  · show place (components e.name) = some n
    rw [hcomponents]
    exact hn

/-- The names of an archive fit. -/
theorem name_lt_of_archive (h : ArchiveAt img size i es) (he : e ∈ es) : e.name.length < 100 := by
  induction es generalizing i with
  | nil => cases he
  | cons x es ih =>
      rcases List.mem_cons.mp he with rfl | he
      · exact h.1.name_lt
      · exact ih h.2 he

/-- **The archive.** For every well-formed archive, and as long as `kmem_alloc` has memory,
`unpack_ramdisk` returns; every path resolves to a node of the archived type and contents and, unless it
is `./`, with the archived permission bits; and there are no other nodes than the root and `dev`. -/
theorem ramdisk_reproduces (es : List Entry) (img : ℕ → UInt8) (size : ℕ) (garbage : Tmpnode)
    (supply : List ℕ) (fuel : ℕ) (hwf : WellFormed es) (hat : ArchiveAt img size 0 es)
    (hsize : size < 2 ^ 64) (hnd : supply.Nodup) (hsup : 3 * es.length + 5 ≤ supply.length)
    (hfuel : es.length < fuel) :
    ∃ rootVnode s, unpackRamdisk garbage supply img size fuel = some (rootVnode, s) ∧
      (∀ e ∈ es, e.kind.vtype ≠ none → ∃ n node, Resolves s rootVnode e.name n ∧
        s.mem.nodes.get? n = some node ∧ SameContents s node e ∧ (e.path ≠ [] → SameMode node e)) ∧
      NothingElse es rootVnode s := by
  obtain ⟨root, rootVnode, mem, devVnode, mem', place₀, hmount, hdev, h₀, hlen⟩ :=
    holds_nil garbage hnd (by omega)
  obtain ⟨place, s, hloop, h⟩ := unpackLoop_returns hsize h₀ (by rwa [List.nil_append]) hat
    (by dsimp only; omega) hfuel
  rw [List.nil_append] at h
  have hok : ∀ e ∈ es, PathOk e.path := fun e he => hwf.names e he
  have hfits : ∀ e ∈ es, e.name.length < 100 := fun e he => name_lt_of_archive hat he
  refine ⟨rootVnode, s, ?_, fun e he hkind => ?_, fun n node hnode => ?_⟩
  · unfold unpackRamdisk
    rw [hmount, Option.bind_eq_bind, Option.bind_some]
    dsimp only
    rw [hdev, Option.bind_eq_bind, Option.bind_some]
    dsimp only
    rw [if_neg (by decide), hloop]
    rfl
  · by_cases hpath : e.path = []
    -- the root is there from the mount, its mode is not that of the archive
    · have hplace : place e.path = some root := hpath ▸ h.tree.root_eq
      obtain ⟨node, hnode⟩ := h.tree.live e.path root hplace
      have hkind' := hwf.root e he hpath
      have htype := h.tree.inv.vnode_type h.rootVnode_eq hnode
      refine ⟨root, node, h.resolves_entry (hok e he) (hfits e he) hplace, hnode, ⟨?_, ?_⟩, ?_⟩
      · rw [← htype, hkind']
        rfl
      · rw [hkind']
        exact fun hnormal => by cases hnormal
      · exact fun hne => absurd hpath hne
    · obtain ⟨n, node, hplace, hnode, hcontents, hmode⟩ := h.made e he hkind hpath
      exact ⟨n, node, h.resolves_entry (hok e he) (hfits e he) hplace, hnode, hcontents, fun _ => hmode⟩
  -- nothing else: every node is the root, `dev` or made for an entry
  · obtain ⟨p, hp⟩ := h.tree.onto n node hnode
    rcases (h.places p).mp (by rw [hp]; simp) with rfl | rfl | ⟨e, he, hkind, rfl⟩
    · refine ⟨[dot, slash], ?_, .inl rfl⟩
      exact h.resolves ⟨[dot, slash], by decide, by decide, by decide⟩ (by decide) (by decide) (by decide) hp
    · refine ⟨[dot, slash] ++ dev, ?_, .inr (.inl rfl)⟩
      exact h.resolves ⟨[dot, slash] ++ dev, by decide, by decide, by decide⟩ (by decide) (by decide)
        (by decide) hp
    · exact ⟨e.name, h.resolves_entry (hok e he) (hfits e he) hp, .inr (.inr ⟨e, he, hkind, rfl⟩)⟩

/-! ## An archive -/

/-- The memory that has these bytes at these addresses, and zeroes elsewhere. -/
def imageOf (parts : List (ℕ × List UInt8)) (k : ℕ) : UInt8 :=
  (parts.findSome? fun part => if part.1 ≤ k then part.2[k - part.1]? else none).getD 0

/-- What `unpack_ramdisk` reads of a header and its data. -/
def partsOf (i : ℕ) (e : Entry) : List (ℕ × List UInt8) :=
  [(i, e.name), (i + 100, octal 7 e.mode), (i + 124, octal 11 e.data.length), (i + 156, [e.kind.flag]),
    (i + 512, e.data)]

/-- `./`, with the mode `0755`. -/
def rootEntry : Entry := ⟨[], .directory, 0o755, []⟩

/-- `./a/`. -/
def dirEntry : Entry := ⟨[[97]], .directory, 0o755, []⟩

/-- `./a/b`, with two bytes. -/
def fileEntry : Entry := ⟨[[97], [98]], .normal, 0o644, [104, 105]⟩

/-- `./c`, a symbolic link. -/
def linkEntry : Entry := ⟨[[99]], .other 50, 0o777, []⟩

/-- An archive of these. -/
def fourEntries : ℕ → UInt8 :=
  imageOf (partsOf 0 rootEntry ++ partsOf 512 dirEntry ++ partsOf 1024 fileEntry ++
    partsOf 2048 linkEntry)

/-- The archive of the example is well formed. -/
theorem fourEntries_wellFormed : WellFormed [rootEntry, dirEntry, fileEntry, linkEntry] where
  names := by decide
  root := by decide
  other e he flag hkind := by
    simp only [List.mem_cons, List.not_mem_nil, or_false] at he
    rcases he with rfl | rfl | rfl | rfl
    · cases hkind
    · cases hkind
    · cases hkind
    · cases hkind
      decide
  nodup := by decide
  not_dev := by decide
  -- only the file has a parent in the list, which stands before it
  parents l e r heq hpath hdrop := by
    rcases l with _ | ⟨x, _ | ⟨y, _ | ⟨z, _ | ⟨w, l⟩⟩⟩⟩
    · cases heq
      exact absurd rfl hpath
    · cases heq
      exact absurd rfl hdrop
    · cases heq
      exact ⟨dirEntry, by simp, rfl, rfl⟩
    · cases heq
      exact absurd rfl hdrop
    · simp at heq

/-- The image of the example holds the archive. -/
theorem fourEntries_archive :
    ArchiveAt fourEntries 3072 0 [rootEntry, dirEntry, fileEntry, linkEntry] := by
  have header : ∀ i ∈ [(0, rootEntry), (512, dirEntry), (1024, fileEntry), (2048, linkEntry)],
      HeaderAt fourEntries i.1 i.2 := by
    intro i hi
    simp only [List.mem_cons, List.not_mem_nil, or_false] at hi
    rcases hi with rfl | rfl | rfl | rfl <;>
      exact ⟨by decide, by decide +kernel, by decide, by decide +kernel, by decide, by decide +kernel,
        by decide +kernel, by decide +kernel, by decide +kernel⟩
  refine ⟨header (0, rootEntry) (by simp), header (512, dirEntry) (by simp),
    header (1024, fileEntry) (by simp), header (2048, linkEntry) (by simp), by decide, ?_⟩
  decide +kernel

/-- The four entries are unpacked. -/
theorem ramdisk_reproduces_four :
    ∃ rootVnode s, unpackRamdisk default (List.range 20) fourEntries 3072 5 = some (rootVnode, s) ∧
      (∀ e ∈ [rootEntry, dirEntry, fileEntry, linkEntry], e.kind.vtype ≠ none → ∃ n node,
        Resolves s rootVnode e.name n ∧ s.mem.nodes.get? n = some node ∧ SameContents s node e ∧
          (e.path ≠ [] → SameMode node e)) ∧
      NothingElse [rootEntry, dirEntry, fileEntry, linkEntry] rootVnode s :=
  ramdisk_reproduces _ _ _ _ _ _ fourEntries_wellFormed fourEntries_archive (by decide) List.nodup_range
    (by decide) (by decide)

/-- **The mode of `./` is lost.** The root keeps what was in its memory. -/
theorem root_mode_lost :
    ¬ ∀ (es : List Entry) (img : ℕ → UInt8) (size : ℕ) (garbage : Tmpnode) (supply : List ℕ) (fuel : ℕ),
      WellFormed es → ArchiveAt img size 0 es → size < 2 ^ 64 → supply.Nodup →
      3 * es.length + 5 ≤ supply.length → es.length < fuel →
      ∃ rootVnode s, unpackRamdisk garbage supply img size fuel = some (rootVnode, s) ∧
        (∀ e ∈ es, e.kind.vtype ≠ none → ∃ n node, Resolves s rootVnode e.name n ∧
          s.mem.nodes.get? n = some node ∧ SameContents s node e ∧ SameMode node e) ∧
        NothingElse es rootVnode s := by
  intro hall
  have hwf : WellFormed [rootEntry] := by
    refine ⟨by decide, by decide, fun e he flag hkind => ?_, by decide, by decide,
      fun l e r heq hpath => ?_⟩
    · obtain rfl := List.mem_singleton.mp he
      cases hkind
    · rcases l with _ | ⟨x, l⟩
      · cases heq
        exact absurd rfl hpath
      · simp at heq
  have hat : ArchiveAt (imageOf (partsOf 0 rootEntry)) 1024 0 [rootEntry] :=
    ⟨⟨by decide, by decide +kernel, by decide, by decide +kernel, by decide, by decide +kernel,
      by decide +kernel, by decide +kernel, by decide +kernel⟩, by decide, by decide +kernel⟩
  obtain ⟨rootVnode, s, hs, hmade, -⟩ := hall [rootEntry] _ 1024 default (List.range 8) 2 hwf hat
    (by decide) List.nodup_range (by decide) (by decide)
  obtain ⟨n, node, ⟨vn, mem, type, hlook, hof⟩, hnode, -, hmode⟩ := hmade rootEntry List.mem_cons_self
    (by decide)
  have hrun : (unpackRamdisk default (List.range 8) (imageOf (partsOf 0 rootEntry)) 1024 2).map
      (fun x => (x.1, x.2.mem.vnodeOf x.1, (x.2.mem.nodes.get? 0).map fun node => node.attr.mode))
      = some (1, some (.vdir, 0), some 0) := by decide +kernel
  rw [hs, Option.map_some, Option.some_inj] at hrun
  obtain ⟨rfl, hrun⟩ := Prod.mk.inj hrun
  obtain ⟨hroot, hzero⟩ := Prod.mk.inj hrun
  -- `./` resolves to the root
  have hwalk : vfsLookup tmpfsVnops 1 1 (some 1) rootEntry.name ⟨false, false⟩ ⟨.vnon, 0, 0⟩
      = (pure 1 : Walk Mem ℕ) := vfsLookup_of_name (by decide) (by decide) (by decide)
  rw [hwalk] at hlook
  cases hlook
  rw [hroot] at hof
  cases hof
  rw [hnode] at hzero
  have hzero : node.attr.mode = 0 := Option.some.inj hzero
  rw [SameMode, hzero] at hmode
  exact absurd hmode (by decide)

end Scalux.Posix.Ramdisk
