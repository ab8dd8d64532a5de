import Scalux.Tmpfs.Paths

/-! # Parent links

`tmakenode` sets the parent of a directory to the one it is made in; `tmpfs_mount` makes the root by
itself and does not set its parent, which is then what `kmem_alloc` has found in memory.  `tmp_lookup`
takes a null parent for that of the root.

* **`linked_reach`**: in every run the directories are linked to those they were created in, and the root
  to what the mount has left there.
* **`parent_links_iff`**: `..` leads where it should if and only if that is null or the root itself. -/

namespace Scalux.Tmpfs

open Posix (Vattr Vtype Pathname Counts components startOf vfsLookup walkPath slash IsName)

variable {s s' : Mem} {t t' : Sys} {root k n d vn : ℕ} {parent : Option ℕ} {node : Tmpnode}
  {name : Name} {attr : Vattr}

/-! ## The links -/

/-- The directories are linked to those they are in, and those they have been created in. -/
structure Linked (t : Sys) (root : ℕ) (parent : Option ℕ) : Prop where
  inv : Inv t.mem
  rootVnode_eq : t.mem.vnodeOf t.rootVnode = some (.vdir, root)
  root_parent : ∀ node, t.mem.nodes.get? root = some node → node.parent = parent
  entry : ∀ d dnode e node, t.mem.nodes.get? d = some dnode → e ∈ dnode.entries →
    t.mem.nodes.get? e.node = some node → node.attr.type = .vdir → node.parent = some d
  up : ∀ n node, t.mem.nodes.get? n = some node → node.attr.type = .vdir → n ≠ root →
    ∃ d, node.parent = some d ∧ IsDir t.mem d
  created : ∀ d name vn, (d, name, vn) ∈ t.created → ∃ k type n node,
    t.mem.vnodeOf d = some (.vdir, k) ∧ t.mem.vnodeOf vn = some (type, n) ∧
      t.mem.nodes.get? n = some node ∧ (type = .vdir → node.parent = some k)
  all_created : ∀ vn x, t.mem.vnodeOf vn = some x →
    vn = t.rootVnode ∨ ∃ d name, (d, name, vn) ∈ t.created

/-- Of an empty directory. -/
theorem linked_mount {garbage : Tmpnode} {supply : List ℕ}
    (hmount : tmpfsMount garbage ⟨Heap.empty, Heap.empty, supply⟩ = some (t.rootVnode, t.mem))
    (hcreated : t.created = []) (hinv : Inv t.mem) :
    ∃ root, supply.head? = some root ∧ Linked t root garbage.parent := by
  obtain ⟨root, hhead, hnodes, hvnodeOf⟩ := mount_spec hmount
  -- the root is the one node; its parent field is what the memory held before
  have hnode : ∀ {k node}, t.mem.nodes.get? k = some node →
      k = root ∧ node = rootNode garbage (some t.rootVnode) := by
    intro k node hk
    rw [hnodes, Option.ite_none_right_eq_some] at hk
    exact ⟨hk.1, (Option.some.inj hk.2).symm⟩
  refine ⟨root, hhead, hinv, by rw [hvnodeOf, if_pos rfl], ?_, ?_, ?_, ?_, ?_⟩
  · intro node hn
    rw [(hnode hn).2]
    rfl
  · intro d dnode e node hd he
    rw [(hnode hd).2] at he
    cases he
  · intro n node hn _ hne
    exact absurd (hnode hn).1 hne
  · intro d name vn hmem
    rw [hcreated] at hmem
    cases hmem
  · intro vn x hx
    rw [hvnodeOf, Option.ite_none_right_eq_some] at hx
    exact .inl hx.1

/-- A lookup keeps the links. -/
theorem Linked.of_same (h : Linked t root parent) (hroot : t'.rootVnode = t.rootVnode)
    (hs : Same t.mem t'.mem) (hcreated : t'.created = t.created) : Linked t' root parent where
  inv := h.inv.of_same hs
  rootVnode_eq := by rw [hroot, hs.vnodeOf_eq, h.rootVnode_eq]
  root_parent := by rw [hs.nodes_eq]; exact h.root_parent
  entry := by rw [hs.nodes_eq]; exact h.entry
  up n node hn htype hne := by
    rw [hs.nodes_eq] at hn
    obtain ⟨d, hd, hdir⟩ := h.up n node hn htype hne
    exact ⟨d, hd, hdir.of_same hs⟩
  created d name vn hmem := by
    rw [hcreated] at hmem
    rw [hs.vnodeOf_eq, hs.vnodeOf_eq, hs.nodes_eq]
    exact h.created d name vn hmem
  all_created vn x hx := by
    rw [hs.vnodeOf_eq] at hx
    rw [hroot, hcreated]
    exact h.all_created vn x hx

/-- A creation keeps the links. -/
theorem Linked.of_create (h : Linked t root parent) {r : ℤ}
    (hs : tmpCreate d name attr t.mem = some ((r, vn), t'.mem)) (hroot : t'.rootVnode = t.rootVnode)
    (hcreated : t'.created = (d, name, vn) :: t.created) : Linked t' root parent := by
  obtain ⟨-, k, dnode, n, new, hd, hfresh, hvfresh, hvn, htype, hentries, hparent, hnodes, hof⟩ :=
    create_made h.inv hs
  obtain ⟨hofd, hdnode⟩ := dirOf_eq_some.mp hd
  have hkdir : dnode.attr.type = .vdir := h.inv.dir_type hd
  -- nodes and vnodes in use are not the new ones, so what was linked stays linked
  have hlive : ∀ {j node}, t.mem.nodes.get? j = some node → j ≠ n := by
    rintro j node hj rfl
    rw [hfresh] at hj
    cases hj
  have hkn : k ≠ n := hlive hdnode
  have hvne : ∀ {w x}, t.mem.vnodeOf w = some x → w ≠ vn := by
    rintro w x hw rfl
    rw [hvfresh] at hw
    cases hw
  have hofold : ∀ {w x}, t.mem.vnodeOf w = some x → t'.mem.vnodeOf w = some x := by
    intro w x hw
    rw [hof, if_neg (hvne hw), hw]
  have hkeeps : ∀ {j node}, t.mem.nodes.get? j = some node → _ := fun hj => node_kept hfresh hdnode hnodes hj
  have hcomes : ∀ {j node'}, t'.mem.nodes.get? j = some node' → _ := fun hj => node_of_created hdnode hnodes hj
  have hdirs : ∀ {j}, IsDir t.mem j → IsDir t'.mem j := by
    rintro j ⟨node, hj, hdir⟩
    obtain ⟨node', hj', -, hattr, -⟩ := hkeeps hj
    exact ⟨node', hj', by rw [hattr, hdir]⟩
  obtain ⟨rnode, hrnode, -⟩ := h.inv.of_vnode _ _ h.rootVnode_eq
  constructor
  case inv => exact h.inv.of_creates (create_spec h.inv hs).2
  case rootVnode_eq => rw [hroot, hofold h.rootVnode_eq]
  case root_parent =>
    intro node' hn
    rcases hcomes hn with ⟨hrn, -⟩ | ⟨node, hn, hp, -⟩
    · exact absurd hrn (hlive hrnode)
    · rw [hp, h.root_parent node hn]
  case entry =>
    intro j jnode e node' hj he hn hdir
    rcases hcomes hj with ⟨-, rfl⟩ | ⟨jnode₀, hj₀, -, -, hents⟩
    · rw [hentries] at he
      cases he
    rcases hents e he with he | ⟨rfl, rfl⟩
    · -- an entry of before is of a node of before
      have hne := h.inv.entry j jnode₀ hj₀ e he
      rcases hcomes hn with ⟨hen, -⟩ | ⟨node, hn₀, hp, hattr, -⟩
      · rw [hen, hfresh] at hne
        exact absurd rfl hne
      · rw [hp]
        exact h.entry j jnode₀ e node hj₀ he hn₀ (hattr ▸ hdir)
    · rcases hcomes hn with ⟨-, rfl⟩ | ⟨node, hn₀, -⟩
      · rw [hparent, if_pos (htype ▸ hdir)]
      · exact absurd rfl (hlive hn₀)
  -- a new directory has its parent set; one of before keeps its own
  case up =>
    intro j node' hj hdir hne
    rcases hcomes hj with ⟨-, rfl⟩ | ⟨node, hj₀, hp, hattr, -⟩
    · exact ⟨k, by rw [hparent, if_pos (htype ▸ hdir)], hdirs ⟨dnode, hdnode, hkdir⟩⟩
    · obtain ⟨p, hpar, hpdir⟩ := h.up j node hj₀ (hattr ▸ hdir) hne
      exact ⟨p, hp.trans hpar, hdirs hpdir⟩
  case created =>
    intro d' name' vn' hmem
    rw [hcreated] at hmem
    rcases List.mem_cons.mp hmem with heq | hmem
    · cases heq
      exact ⟨k, attr.type, n, new, hofold hofd, by rw [hof, if_pos rfl], by rw [hnodes, if_pos rfl],
        fun hdir => by rw [hparent, if_pos hdir]⟩
    · obtain ⟨k', type, n', node, hofd', hofn', hn', hp'⟩ := h.created d' name' vn' hmem
      obtain ⟨node', hnode', hpar, -⟩ := hkeeps hn'
      exact ⟨k', type, n', node', hofold hofd', hofold hofn', hnode', fun hdir => hpar.trans (hp' hdir)⟩
  case all_created =>
    intro w x hw
    rw [hroot, hcreated]
    rw [hof] at hw
    split at hw
    · rename_i hwvn
      exact .inr ⟨d, name, hwvn ▸ List.mem_cons_self⟩
    · rcases h.all_created w x hw with hw | ⟨d', name', hmem⟩
      · exact .inl hw
      · exact .inr ⟨d', name', List.mem_cons_of_mem _ hmem⟩

/-- **The links** in every run. -/
theorem linked_reach {t₀ : Sys} (h₀ : Linked t₀ root parent) (hrun : machine.Reachable t₀ t) :
    Linked t root parent := by
  refine hrun.invariant (I := fun t => Linked t root parent) h₀ ?_
  intro t a t' h _ hs
  obtain ⟨hroot, ⟨-, hsame, hcreated⟩ | ⟨d, name, vn, attr, s₁, -, hsame, hcreate, hcreated⟩⟩ :=
    step_calls h.inv hs
  · exact h.of_same hroot hsame hcreated
  · have h₁ : Linked { t with mem := s₁ } root parent := h.of_same rfl hsame rfl
    exact h₁.of_create hcreate hroot hcreated

/-! ## Paths -/

/-- A path leads to a vnode, from the current directory `cwd`. -/
def Resolves (t : Sys) (cwd : ℕ) (path : Pathname) (vn : ℕ) : Prop :=
  ∃ mem, (vfsLookup tmpfsVnops 1 t.rootVnode (some cwd) path.chars ⟨false, false⟩ default).run.run t.mem
    = some (.ok vn, mem)

/-- `..` leads where it should. -/
structure ParentLinks (t : Sys) : Prop where
  /-- From the root, to the root. -/
  root : ∃ mem, tmpLookup t.rootVnode dotdot t.mem = some ((0, t.rootVnode), mem)
  /-- From a directory that has been created, to the directory it was created in. -/
  dir : ∀ d name vn n, (d, name, vn) ∈ t.created → t.mem.vnodeOf vn = some (.vdir, n) →
    ∃ mem, tmpLookup vn dotdot t.mem = some ((0, d), mem)
  /-- These are all directories. -/
  all_dirs : ∀ vn n, t.mem.vnodeOf vn = some (.vdir, n) →
    vn = t.rootVnode ∨ ∃ d name, (d, name, vn) ∈ t.created
  /-- `p/n/..` is `p`, for a directory `p/n`. -/
  back : ∀ cwd x (p r q : Pathname) name v w n, t.mem.vnodeOf cwd = some x → IsName name →
    Counts name → name ≠ dotdot → r.chars = p.chars ++ slash :: name →
    q.chars = p.chars ++ slash :: name ++ slash :: dotdot → Resolves t cwd p v → Resolves t cwd r w →
    t.mem.vnodeOf w = some (.vdir, n) → Resolves t cwd q v
  /-- A path of `..` from the root on stays at the root. -/
  stays : ∀ cwd (p : Pathname), startOf t.rootVnode (some cwd) p.chars = t.rootVnode →
    components p.chars ≠ [] → (∀ c ∈ components p.chars, c = dotdot) → Resolves t cwd p t.rootVnode

/-- A node has one vnode. -/
theorem Inv.vnode_unique {v w : ℕ} {type type' : Vtype} (h : Inv s) (hv : s.vnodeOf v = some (type, n))
    (hw : s.vnodeOf w = some (type', n)) : v = w := by
  obtain ⟨node, hn, hv'⟩ := h.of_vnode v _ hv
  obtain ⟨node', hn', hw'⟩ := h.of_vnode w _ hw
  obtain rfl := Option.some.inj (hn.symm.trans hn')
  exact Option.some.inj (hv'.symm.trans hw')

/-- A path that leads somewhere is a walk. -/
theorem run_vfsLookup {cwd : ℕ} {path : Pathname}
    (hpath : path.chars = [slash] ∨ ∃ c ∈ path.chars, c ≠ slash) :
    (vfsLookup tmpfsVnops 1 t.rootVnode (some cwd) path.chars ⟨false, false⟩ default).run.run t.mem
      = (Posix.walk tmpfsVnops 1 (startOf t.rootVnode (some cwd) path.chars)
          (components path.chars)).run.run t.mem :=
  (Posix.vfsLookup_eq_walkPath_iff tmpfsVnops 1 t.rootVnode cwd path false default t.mem).mpr hpath

/-- A path leads to the vnode of the node that its names lead to. -/
theorem resolves_iff {cwd start : ℕ} {path : Pathname} {type : Vtype} (h : WellFormed t.mem)
    (hstart : t.mem.vnodeOf (startOf t.rootVnode (some cwd) path.chars) = some (type, start))
    (hpath : path.chars = [slash] ∨ ∃ c ∈ path.chars, c ≠ slash) :
    Resolves t cwd path vn ↔ Passes t.mem start (components path.chars) ∧
      ∃ k type', endNode t.mem start (components path.chars) = some k ∧
        t.mem.vnodeOf vn = some (type', k) := by
  rw [Resolves, run_vfsLookup hpath]
  -- the walk stops at something that is no directory, or ends at no node, or at one
  rcases walk_spec h hstart (components path.chars) with
    ⟨hno, hrun⟩ | ⟨hpass, s', -, ⟨hend, hrun⟩ | ⟨k, w, type', hend, hof, hrun⟩⟩
  · rw [hrun]
    exact iff_of_false nofun fun hpass => hno hpass.1
  · rw [hrun, hend]
    exact iff_of_false nofun nofun
  · rw [hrun, hend]
    constructor
    · rintro ⟨mem, hmem⟩
      obtain ⟨hok, -⟩ := Prod.mk.inj (Option.some.inj hmem)
      obtain rfl := Except.ok.inj hok
      exact ⟨hpass, k, type', rfl, hof⟩
    · rintro ⟨-, k', type'', hk', hof'⟩
      obtain rfl := Option.some.inj hk'
      exact ⟨s', by rw [h.inv.vnode_unique hof hof']⟩

/-- A path that leads somewhere has a name, or is `/`. -/
theorem Resolves.has_name {cwd : ℕ} {path : Pathname} (h : Resolves t cwd path vn) :
    path.chars = [slash] ∨ ∃ c ∈ path.chars, c ≠ slash := by
  by_contra hno
  rw [not_or] at hno
  obtain ⟨mem, hmem⟩ := h
  rw [Posix.vfsLookup_no_name path hno.2] at hmem
  · cases hmem
  · rintro ⟨hstart, hlen⟩
    obtain ⟨c, hc⟩ := List.length_eq_one_iff.mp hlen
    rw [hc] at hstart hno
    rcases hstart with hhead | hcwd
    · exact hno.1 (congrArg (· :: []) (Option.some.inj hhead))
    · cases hcwd

/-- A name more. -/
theorem components_concat (p : Name) (hname : IsName name) (hcounts : Counts name) :
    components (p ++ slash :: name) = components p ++ [name] := by
  have hnames := List.splitOnP_append_cons (p := (· == slash)) p name
    (BEq.rfl : (slash == slash) = true)
  have hlast : List.splitOnP (· == slash) name = [name] := by
    refine List.splitOnP_eq_singleton fun c hc => ?_
    have hne : c ≠ slash := ne_of_mem_of_not_mem hc hname.2
    simpa using hne
  rw [components, List.splitOn, hnames, List.filter_append, hlast, ← List.splitOn,
    List.filter_cons_of_pos (by simpa using hcounts), List.filter_nil]
  rfl

/-! ## The result -/

/-- The tree is well-formed, if the root has no parent but itself. -/
theorem Linked.wellFormed (h : Linked t root parent) (hparent : parent = none ∨ parent = some root) :
    WellFormed t.mem := by
  refine ⟨h.inv, fun n node hn hdir p hp => ?_⟩
  by_cases hroot : n = root
  · subst hroot
    rcases hparent with hnone | hself
    · rw [h.root_parent node hn, hnone] at hp
      cases hp
    · rw [h.root_parent node hn, hself] at hp
      obtain rfl := Option.some.inj hp
      exact ⟨node, hn, hdir⟩
  · obtain ⟨d, hd, hddir⟩ := h.up n node hn hdir hroot
    obtain rfl := Option.some.inj (hd.symm.trans hp)
    exact hddir

/-- `..` from a directory leads to the vnode of its parent. -/
theorem lookup_dotdot (h : WellFormed t.mem) {p v : ℕ} {type : Vtype}
    (hof : t.mem.vnodeOf vn = some (.vdir, n)) (hn : t.mem.nodes.get? n = some node)
    (hp : node.parent.getD n = p) (hv : t.mem.vnodeOf v = some (type, p)) :
    ∃ mem, tmpLookup vn dotdot t.mem = some ((0, v), mem) := by
  have hstep : stepNode t.mem n dotdot = some p := by
    rw [stepNode, hn, Option.bind_eq_bind, Option.bind_some, if_pos rfl, hp]
  obtain ⟨w, mem, type', hlook, hofw⟩ := lookup_found h hof ((h.isDir_iff hof).mpr rfl) hstep
  exact ⟨mem, by rw [hlook, h.inv.vnode_unique hofw hv]⟩

/-- `..` from the root on. -/
theorem endNode_dotdot {cs : List Name} (hdir : IsDir s root)
    (hstep : stepNode s root dotdot = some root) (hcs : ∀ c ∈ cs, c = dotdot) :
    Passes s root cs ∧ endNode s root cs = some root := by
  induction cs with
  | nil => exact ⟨trivial, rfl⟩
  | cons c cs ih =>
      obtain ⟨hpass, hend⟩ := ih fun x hx => hcs x (List.mem_cons_of_mem c hx)
      rw [hcs c List.mem_cons_self, endNode_cons, Passes, hstep]
      exact ⟨⟨hdir, fun k hk => Option.some.inj hk ▸ hpass⟩, hend⟩

/-- A directory that an entry leads to has the directory of the entry as its parent. -/
theorem Linked.stepNode_parent (h : Linked t root parent) {c : Name} (hc : c ≠ dotdot)
    (hstep : stepNode t.mem d c = some k) (hdir : IsDir t.mem k) :
    stepNode t.mem k dotdot = some d := by
  obtain ⟨dnode, hd, hstep⟩ := Option.bind_eq_some_iff.mp hstep
  rw [if_neg hc] at hstep
  obtain ⟨e, hfound, rfl⟩ := Option.map_eq_some_iff.mp hstep
  obtain ⟨node, hn, htype⟩ := hdir
  have hparent := h.entry d dnode e node hd (List.mem_of_find?_eq_some hfound) hn htype
  rw [stepNode, hn, Option.bind_eq_bind, Option.bind_some, if_pos rfl, hparent, Option.getD_some]

/-- **`p/n/..`** leads back to `p`. -/
theorem Linked.back (h : Linked t root parent) (hw : WellFormed t.mem) {cwd v w : ℕ} {x : Vtype × ℕ}
    {p r q : Pathname} (hcwd : t.mem.vnodeOf cwd = some x) (hname : IsName name)
    (hcounts : Counts name) (hdots : name ≠ dotdot) (hr : r.chars = p.chars ++ slash :: name)
    (hq : q.chars = p.chars ++ slash :: name ++ slash :: dotdot) (hpv : Resolves t cwd p v)
    (hrw : Resolves t cwd r w) (hdir : t.mem.vnodeOf w = some (.vdir, n)) : Resolves t cwd q v := by
  -- the three paths begin alike, hence at the same vnode
  have hhead : ∀ y : Name, (p.chars ++ y).head? = p.chars.head? := fun y =>
    List.head?_append_of_ne_nil _ p.ne_nil
  have hstarts : ∀ y : Name, startOf t.rootVnode (some cwd) (p.chars ++ y)
      = startOf t.rootVnode (some cwd) p.chars := by
    intro y
    rw [startOf, startOf, hhead]
  obtain ⟨type, start, hstart⟩ : ∃ type start,
      t.mem.vnodeOf (startOf t.rootVnode (some cwd) p.chars) = some (type, start) := by
    unfold startOf
    split
    · exact ⟨_, _, h.rootVnode_eq⟩
    · exact ⟨_, _, hcwd⟩
  have hstartr : t.mem.vnodeOf (startOf t.rootVnode (some cwd) r.chars) = some (type, start) := by
    rw [hr, hstarts, hstart]
  have hstartq : t.mem.vnodeOf (startOf t.rootVnode (some cwd) q.chars) = some (type, start) := by
    rw [hq, List.append_assoc, hstarts, hstart]
  have hcompr : components r.chars = components p.chars ++ [name] := by
    rw [hr, components_concat p.chars hname hcounts]
  have hcompq : components q.chars = components p.chars ++ [name, dotdot] := by
    rw [hq, components_concat _ ⟨by decide, by decide⟩ (by decide), components_concat _ hname hcounts,
      List.append_assoc]
    rfl
  have hqname : ∃ c ∈ q.chars, c ≠ slash := by
    refine ⟨Posix.dot, ?_, by decide⟩
    rw [hq]
    exact List.mem_append_right _ (by decide)
  obtain ⟨hpass, kp, typep, hendp, hofv⟩ := (resolves_iff hw hstart hpv.has_name).mp hpv
  obtain ⟨hpassr, kw, typew, hendr, hofw⟩ := (resolves_iff hw hstartr hrw.has_name).mp hrw
  rw [hcompr, passes_append] at hpassr
  rw [hcompr, endNode_append, hendp, Option.bind_some, endNode_cons] at hendr
  obtain ⟨k, hstep, hk⟩ := Option.bind_eq_some_iff.mp hendr
  obtain rfl : k = kw := Option.some.inj hk
  have hkdir : IsDir t.mem k := by
    rw [hdir] at hofw
    obtain ⟨rfl, rfl⟩ := Prod.mk.inj (Option.some.inj hofw)
    exact (hw.isDir_iff hdir).mpr rfl
  -- a step down by a name and a step up by `..` cancel
  have hup := h.stepNode_parent hdots hstep hkdir
  refine (resolves_iff hw hstartq (.inr hqname)).mpr ⟨?_, kp, typep, ?_, hofv⟩
  · rw [hcompq, passes_append]
    refine ⟨hpass, fun j hj => ?_⟩
    obtain rfl := Option.some.inj (hendp.symm.trans hj)
    refine ⟨(hpassr.2 kp hendp).1, fun j' hj' => ?_⟩
    obtain rfl := Option.some.inj (hstep.symm.trans hj')
    exact ⟨hkdir, fun _ _ => trivial⟩
  · rw [hcompq, endNode_append, hendp, Option.bind_some, endNode_cons, hstep, Option.bind_some,
      endNode_cons, hup]
    rfl

/-- The links are as they should be if the root has no parent but itself. -/
theorem Linked.parentLinks (h : Linked t root parent) (hparent : parent = none ∨ parent = some root) :
    ParentLinks t := by
  have hw := h.wellFormed hparent
  obtain ⟨rnode, hrnode, hrvn⟩ := h.inv.of_vnode _ _ h.rootVnode_eq
  have hrdir : IsDir t.mem root := (hw.isDir_iff h.rootVnode_eq).mpr rfl
  have hrp : rnode.parent.getD root = root := by
    rw [h.root_parent rnode hrnode]
    rcases hparent with rfl | rfl
    · rfl
    · rfl
  -- at the root `..` leads back to the root, whether its parent is set or not
  have hrstep : stepNode t.mem root dotdot = some root := by
    rw [stepNode, hrnode, Option.bind_eq_bind, Option.bind_some, if_pos rfl, hrp]
  constructor
  case root => exact lookup_dotdot hw h.rootVnode_eq hrnode hrp h.rootVnode_eq
  case dir =>
    intro d name vn n hmem hvn
    obtain ⟨k, type, n', node, hofd, hofn, hn, hp⟩ := h.created d name vn hmem
    obtain ⟨rfl, rfl⟩ := Prod.mk.inj (Option.some.inj (hvn.symm.trans hofn))
    exact lookup_dotdot hw hvn hn (by rw [hp rfl, Option.getD_some]) hofd
  case all_dirs => exact fun vn n hvn => h.all_created vn _ hvn
  case back =>
    intro cwd x p r q name v w n hcwd hname hcounts hdots hr hq hpv hrw hdir
    exact h.back hw hcwd hname hcounts hdots hr hq hpv hrw hdir
  case stays =>
    intro cwd p hstart hne hall
    have hofstart : t.mem.vnodeOf (startOf t.rootVnode (some cwd) p.chars) = some (.vdir, root) := by
      rw [hstart, h.rootVnode_eq]
    obtain ⟨hpass, hend⟩ := endNode_dotdot hrdir hrstep hall
    have hname : ∃ c ∈ p.chars, c ≠ slash := by
      by_contra hno
      exact hne (Posix.components_of_no_name hno)
    exact (resolves_iff hw hofstart (.inr hname)).mpr ⟨hpass, root, .vdir, hend, h.rootVnode_eq⟩

/-- **Parent links.** For every mount, whatever the memory of its root contains, and every run of calls
after it: `..` leads from the root to the root and from every other directory to the one it was created
in, `p/n/..` leads where `p` does, and no path of `..` leaves the root, if and only if the memory has null
or the address of the root where the root's parent is. -/
theorem parent_links_iff {t₀ : Sys} {garbage : Tmpnode} {supply : List ℕ}
    (hmount : tmpfsMount garbage ⟨Heap.empty, Heap.empty, supply⟩ = some (t₀.rootVnode, t₀.mem))
    (hdev : t₀.devVnode = none) (hcreated : t₀.created = []) (hrun : machine.Reachable t₀ t) :
    ParentLinks t ↔ garbage.parent = none ∨ garbage.parent = supply.head? := by
  have hmounted : Mounted t₀ := ⟨hdev, hcreated, garbage, supply, hmount⟩
  obtain ⟨root, hhead, h₀⟩ := linked_mount hmount hcreated hmounted.good.inv
  have h := linked_reach h₀ hrun
  rw [hhead]
  constructor
  · intro hlinks
    cases hp : garbage.parent with
    | none => exact .inl rfl
    | some p =>
        obtain ⟨mem, hlook⟩ := hlinks.root
        obtain ⟨v, hv, hlook⟩ := Option.bind_eq_some_iff.mp hlook
        obtain ⟨node, hn, hlook⟩ := Option.bind_eq_some_iff.mp hlook
        have hdata : v.data = root := by
          have hof := h.rootVnode_eq
          rw [Mem.vnodeOf, hv] at hof
          exact (Prod.mk.inj (Option.some.inj hof)).2
        rw [hdata] at hn
        split at hlook
        swap
        · cases hlook
        rw [if_pos rfl, h.root_parent node hn, hp] at hlook
        obtain ⟨dn, hdn, hlook⟩ := Option.bind_eq_some_iff.mp hlook
        obtain ⟨out, hout, hlook⟩ := Option.bind_eq_some_iff.mp hlook
        cases hlook
        -- the parent has the vnode of the root, so it is the root
        obtain ⟨w, hw, hofw⟩ := h.inv.of_node p dn hdn
        obtain rfl := Option.some.inj (hout.symm.trans hw)
        obtain ⟨-, hpr⟩ := Prod.mk.inj (Option.some.inj (h.rootVnode_eq.symm.trans hofw))
        exact .inr (congrArg some hpr.symm)
  · exact h.parentLinks

/-- A mount in cleared memory, with a directory in it. -/
theorem parent_links_console : ParentLinks withConsole := by
  have hrun : machine.exec emptyMount [.createDev, .devfsMakeNode console] = some withConsole := rfl
  have hmount : tmpfsMount default ⟨Heap.empty, Heap.empty, List.range' 1 20⟩
      = some (emptyMount.rootVnode, emptyMount.mem) := rfl
  exact (parent_links_iff hmount rfl rfl (Machine.reachable_of_exec hrun)).mpr (.inl rfl)

/-- Memory that has been used. -/
def usedMemory : Tmpnode := { (default : Tmpnode) with parent := some 64 }

/-- A mount in it. -/
def usedMount : Sys :=
  match tmpfsMount usedMemory ⟨Heap.empty, Heap.empty, List.range' 1 20⟩ with
  | some (rootVnode, mem) => ⟨mem, rootVnode, none, []⟩
  | none => emptyMount

/-- **The parent of the root** is what has been in its memory: `..` from the root dereferences it. -/
theorem parent_links_garbage :
    ¬ ∀ (t₀ t : Sys), Mounted t₀ → machine.Reachable t₀ t → ParentLinks t := by
  intro h
  have hlinks := h usedMount usedMount
    ⟨rfl, rfl, usedMemory, List.range' 1 20, rfl⟩ .init
  obtain ⟨mem, hlook⟩ := hlinks.root
  have hstuck : tmpLookup usedMount.rootVnode dotdot usedMount.mem = none := rfl
  rw [hstuck] at hlook
  cases hlook

end Scalux.Tmpfs
