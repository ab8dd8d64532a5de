import Scalux.Tmpfs.Names

/-! # The tree of a tmpfs

A file system seen as a tree: `place p` is the node that the names `p` lead to from the root.  Creations
of names that are new keep it one, and a walk follows it.

* **`Tree.walk`**: the walk along a path of the tree returns the vnode of the node at its end.
* **`Tree.create`**: `tmp_create` in a directory of the tree returns, as long as `kmem_alloc` does, and adds
  one node. -/

namespace Scalux.Tmpfs

open Posix (Vattr Vtype Walk walk run_bind)

variable {s s' : Mem} {root n d k dvn vn : ℕ} {place : List Name → Option ℕ} {p q : List Name} {c : Name}
  {attr : Vattr} {node dnode : Tmpnode}

/-- The nodes are those that paths lead to, each at its own path, and the entries of a directory are the
names that lead on from it. -/
structure Tree (s : Mem) (root : ℕ) (place : List Name → Option ℕ) : Prop where
  inv : Inv s
  root_eq : place [] = some root
  inj : ∀ p q n, place p = some n → place q = some n → p = q
  onto : ∀ n node, s.nodes.get? n = some node → ∃ p, place p = some n
  live : ∀ p n, place p = some n → ∃ node, s.nodes.get? n = some node
  entry : ∀ p d dnode c k, place p = some d → s.nodes.get? d = some dnode → ⟨c, k⟩ ∈ dnode.entries →
    place (p ++ [c]) = some k
  parent : ∀ p c k, place (p ++ [c]) = some k → ∃ d dnode, place p = some d ∧
    s.nodes.get? d = some dnode ∧ dnode.attr.type = .vdir ∧ ⟨c, k⟩ ∈ dnode.entries

/-- A lookup keeps the tree. -/
theorem Tree.of_same (h : Tree s root place) (hs : Same s s') : Tree s' root place := by
  have hnodes := hs.nodes_eq
  refine ⟨h.inv.of_same hs, h.root_eq, h.inj, ?_, ?_, ?_, ?_⟩ <;> rw [hnodes]
  · exact h.onto
  · exact h.live
  · exact h.entry
  · exact h.parent

/-- The names before one that leads somewhere lead somewhere. -/
theorem Tree.place_append (h : Tree s root place) {p q : List Name} (hn : place (p ++ q) = some n) :
    ∃ d, place p = some d := by
  induction q using List.reverseRecOn generalizing n with
  | nil => exact ⟨n, by rwa [List.append_nil] at hn⟩
  | append_singleton q c ih =>
      rw [← List.append_assoc] at hn
      obtain ⟨d, -, hd, -⟩ := h.parent (p ++ q) c n hn
      exact ih hd

/-- The vnode of a node of the tree. -/
theorem Tree.vnode (h : Tree s root place) (hp : place p = some n) :
    ∃ vn node, s.nodes.get? n = some node ∧ node.vn = some vn ∧
      s.vnodeOf vn = some (node.attr.type, n) := by
  obtain ⟨node, hnode⟩ := h.live p n hp
  obtain ⟨vn, hvn, hof⟩ := h.inv.of_node n node hnode
  exact ⟨vn, node, hnode, hvn, hof⟩

/-- The type of a vnode is that of its node. -/
theorem Inv.vnode_type {type : Vtype} (h : Inv s) (hof : s.vnodeOf vn = some (type, n))
    (hnode : s.nodes.get? n = some node) : type = node.attr.type := by
  obtain ⟨node', hnode', hvn⟩ := h.of_vnode vn (type, n) hof
  obtain rfl := Option.some.inj (hnode.symm.trans hnode')
  obtain ⟨w, hw, hofw⟩ := h.of_node n node hnode
  obtain rfl := Option.some.inj (hvn.symm.trans hw)
  exact congrArg Prod.fst (Option.some.inj (hof.symm.trans hofw))

/-- **A lookup in the tree.** -/
theorem Tree.lookup (h : Tree s root place) (hc : c ≠ dotdot) (hd : place p = some d)
    (hk : place (p ++ [c]) = some k) (hdvn : ∃ type, s.vnodeOf dvn = some (type, d)) :
    ∃ vn s' type, tmpLookup dvn c s = some ((0, vn), s') ∧ s.vnodeOf vn = some (type, k) := by
  obtain ⟨d', dnode, hd', hdnode, htype, hmem⟩ := h.parent p c k hk
  obtain rfl := Option.some.inj (hd.symm.trans hd')
  obtain ⟨type, hof⟩ := hdvn
  rw [h.inv.vnode_type hof hdnode, htype] at hof
  -- the first entry of the name leads to the same node
  have hfound : tlookup dnode c = some ⟨c, k⟩ := by
    unfold tlookup
    cases hfind : dnode.entries.find? fun dent => dent.name = c with
    | none =>
        have hne := List.find?_eq_none.mp hfind _ hmem
        exact absurd (decide_eq_true rfl) hne
    | some e =>
        obtain ⟨name, j⟩ := e
        have hname := List.find?_some hfind
        replace hname : name = c := of_decide_eq_true hname
        subst hname
        have hj := h.entry p d dnode name j hd hdnode (List.mem_of_find?_eq_some hfind)
        rw [hj] at hk
        rw [Option.some.inj hk]
  obtain ⟨vn, knode, hknode, hkvn, hofk⟩ := h.vnode hk
  obtain ⟨s', hs⟩ := lookup_entry h.inv (dirOf_eq_some.mpr ⟨hof, hdnode⟩) (e := ⟨c, k⟩) hc hfound hknode
    hkvn
  exact ⟨vn, s', knode.attr.type, hs, hofk⟩

/-- **A walk in the tree.** -/
theorem Tree.walk {cs : List Name} (h : Tree s root place) (hcs : ∀ c ∈ cs, c ≠ dotdot)
    (hd : place p = some d) (hn : place (p ++ cs) = some n)
    (hdvn : ∃ type, s.vnodeOf dvn = some (type, d)) :
    ∃ vn s' type, (walk tmpfsVnops 1 dvn cs).run.run s = some (.ok vn, s') ∧ Same s s' ∧
      s.vnodeOf vn = some (type, n) := by
  induction cs generalizing s p d dvn with
  | nil =>
      rw [List.append_nil, hd] at hn
      obtain rfl := Option.some.inj hn
      obtain ⟨type, hof⟩ := hdvn
      exact ⟨dvn, s, type, rfl, .refl s, hof⟩
  | cons c cs ih =>
      -- one component is looked up from where the path so far ends
      have hsplit : p ++ c :: cs = (p ++ [c]) ++ cs := by rw [List.append_assoc]; rfl
      rw [hsplit] at hn
      obtain ⟨k, hk⟩ := h.place_append hn
      obtain ⟨w, s₁, type, hlook, hof⟩ := h.lookup (hcs c List.mem_cons_self) hd hk hdvn
      have hsame := lookup_same h.inv hlook
      obtain ⟨vn, s₂, type', hwalk, hsame', hof'⟩ := ih (h.of_same hsame)
        (fun x hx => hcs x (List.mem_cons_of_mem c hx)) hk hn
        ⟨type, (hsame.vnodeOf_eq w).trans hof⟩
      refine ⟨vn, s₂, type', ?_, hsame.trans hsame', (hsame.vnodeOf_eq vn).symm.trans hof'⟩
      have hone : tmpfsVnops.lookup dvn c s = some ((0, w), s₁) := hlook
      rw [Posix.walk_cons, run_bind, run_call_mounts, hone]
      exact hwalk

/-- Only sizes have changed. -/
structure Resized (s s' : Mem) : Prop where
  vnodes_eq : s'.vnodes = s.vnodes
  supply_eq : s'.supply = s.supply
  nodes_eq : ∀ k, (s'.nodes.get? k).map (fun node => (node.vn, node.attr.type, node.entries, node.vmobj))
    = (s.nodes.get? k).map fun node => (node.vn, node.attr.type, node.entries, node.vmobj)

/-- Resizing changes nothing of a node but the sizes. -/
theorem Resized.get (h : Resized s s') (hk : s'.nodes.get? k = some node) :
    ∃ node', s.nodes.get? k = some node' ∧ node'.vn = node.vn ∧ node'.attr.type = node.attr.type ∧
      node'.entries = node.entries ∧ node'.vmobj = node.vmobj := by
  have heq := h.nodes_eq k
  rw [hk, Option.map_some] at heq
  obtain ⟨node', hnode', hfields⟩ := Option.map_eq_some_iff.mp heq.symm
  simp only [Prod.mk.injEq] at hfields
  exact ⟨node', hnode', hfields⟩

/-- Resizing back. -/
theorem Resized.symm (h : Resized s s') : Resized s' s :=
  ⟨h.vnodes_eq.symm, h.supply_eq.symm, fun k => (h.nodes_eq k).symm⟩

/-- Resizing leaves the vnodes. -/
theorem Resized.vnodeOf_eq (h : Resized s s') (vn : ℕ) : s'.vnodeOf vn = s.vnodeOf vn := by
  rw [Mem.vnodeOf, h.vnodes_eq]
  rfl

/-- The invariant stays where files are resized. -/
theorem Inv.of_resized (hi : Inv s) (h : Resized s s') : Inv s' where
  of_node n node hn := by
    obtain ⟨node', hnode', hvn, htype, -⟩ := h.get hn
    obtain ⟨vn, hvn', hof⟩ := hi.of_node n node' hnode'
    exact ⟨vn, hvn.symm.trans hvn', by rw [h.vnodeOf_eq, hof, htype]⟩
  of_vnode vn x hx := by
    rw [h.vnodeOf_eq] at hx
    obtain ⟨node, hnode, hvn⟩ := hi.of_vnode vn x hx
    obtain ⟨node', hnode', hvn', -⟩ := h.symm.get hnode
    exact ⟨node', hnode', hvn'.trans hvn⟩
  entry n node hn e he := by
    obtain ⟨node', hnode', -, -, hentries, -⟩ := h.get hn
    obtain ⟨enode, henode⟩ := Option.ne_none_iff_exists'.mp
      (hi.entry n node' hnode' e (hentries ▸ he))
    obtain ⟨enode', henode', -⟩ := h.symm.get henode
    rw [henode']
    simp

/-- **A file that grows** keeps the tree. -/
theorem Tree.of_resized (ht : Tree s root place) (h : Resized s s') : Tree s' root place where
  inv := ht.inv.of_resized h
  root_eq := ht.root_eq
  inj := ht.inj
  onto n node hn := by
    obtain ⟨node', hnode', -⟩ := h.get hn
    exact ht.onto n node' hnode'
  live p n hp := by
    obtain ⟨node, hnode⟩ := ht.live p n hp
    obtain ⟨node', hnode', -⟩ := h.symm.get hnode
    exact ⟨node', hnode'⟩
  entry p d dnode c k hp hd hmem := by
    obtain ⟨node', hnode', -, -, hentries, -⟩ := h.get hd
    exact ht.entry p d node' c k hp hnode' (hentries ▸ hmem)
  parent p c k hp := by
    obtain ⟨d, dnode, hd, hdnode, htype, hmem⟩ := ht.parent p c k hp
    obtain ⟨node', hnode', -, htype', hentries, -⟩ := h.symm.get hdnode
    exact ⟨d, node', hd, hnode', htype'.trans htype, hentries ▸ hmem⟩

/-! ## Creations -/

/-- What `kmem_alloc` is going to return is not in use. -/
structure Fresh (s : Mem) : Prop where
  nodup : s.supply.Nodup
  nodes : ∀ a ∈ s.supply, s.nodes.get? a = none
  vnodes : ∀ a ∈ s.supply, s.vnodes.get? a = none
  objs : ∀ n node o, s.nodes.get? n = some node → node.attr.type = .vreg → node.vmobj = some o →
    o ∉ s.supply

/-- What is looked up needs no memory. -/
structure Unused (s s' : Mem) : Prop where
  supply_eq : s'.supply = s.supply
  vnodes_eq : ∀ k, s.vnodes.get? k = none → s'.vnodes.get? k = none

/-- Nothing has changed. -/
theorem Unused.refl (s : Mem) : Unused s s := ⟨rfl, fun _ hk => hk⟩

/-- Two lookups that need no memory. -/
theorem Unused.trans {t : Mem} (h : Unused s s') (h' : Unused s' t) : Unused s t :=
  ⟨h'.supply_eq.trans h.supply_eq, fun k hk => h'.vnodes_eq k (h.vnodes_eq k hk)⟩

/-- `tmpfs_vget` of a node that has a vnode. -/
theorem vget_unused {x : ℤ × ℕ} (h : Inv s) (hn : s.nodes.get? n = some node)
    (hs : tmpfsVget n s = some (x, s')) : Unused s s' := by
  obtain ⟨w, hw, -⟩ := h.of_node n node hn
  unfold tmpfsVget at hs
  rw [hn, Option.bind_eq_bind, Option.bind_some, hw] at hs
  obtain ⟨v, hv, hs⟩ := Option.bind_eq_some_iff.mp hs
  cases hs
  exact ⟨rfl, fun k hk => (Heap.get?_set_eq_none _ _ _ _).mpr hk⟩

/-- `tmp_lookup` needs no memory. -/
theorem lookup_unused {x : ℤ × ℕ} (h : Inv s) (hs : tmpLookup vn c s = some (x, s')) : Unused s s' := by
  rcases tmpLookup_cases hs with rfl | ⟨d, node, tdent, hn, hmem, hs⟩
  · exact .refl s'
  · obtain ⟨node', hn'⟩ := Option.ne_none_iff_exists'.mp (h.entry _ _ hn tdent hmem)
    exact vget_unused h hn' hs

/-- A walk needs no memory. -/
theorem walk_unused {names : List Name} {x : Except ℤ ℕ} (h : Inv s)
    (hs : (walk tmpfsVnops 1 vn names).run.run s = some (x, s')) : Unused s s' :=
  walk_keeps Unused.refl (fun _ _ _ h h' => h.trans h') (fun _ _ _ _ _ h hs => lookup_unused h hs) h hs

/-- A lookup uses nothing that is not in use. -/
theorem Fresh.of_unused (hf : Fresh s) (hsame : Same s s') (hunused : Unused s s') : Fresh s' where
  nodup := hunused.supply_eq ▸ hf.nodup
  nodes a ha := by
    rw [hsame.nodes_eq]
    exact hf.nodes a (hunused.supply_eq ▸ ha)
  vnodes a ha := hunused.vnodes_eq a (hf.vnodes a (hunused.supply_eq ▸ ha))
  objs n node o hn htype ho := by
    rw [hsame.nodes_eq] at hn
    rw [hunused.supply_eq]
    exact hf.objs n node o hn htype ho

/-- The supply stays fresh where files are resized. -/
theorem Fresh.of_resized (hf : Fresh s) (h : Resized s s') : Fresh s' where
  nodup := h.supply_eq ▸ hf.nodup
  nodes a ha := by
    have heq := h.nodes_eq a
    rw [hf.nodes a (h.supply_eq ▸ ha), Option.map_none] at heq
    exact Option.map_eq_none_iff.mp heq
  vnodes a ha := by
    rw [h.vnodes_eq]
    exact hf.vnodes a (h.supply_eq ▸ ha)
  objs n node o hn htype ho := by
    obtain ⟨node', hnode', -, htype', -, hobj⟩ := h.get hn
    rw [h.supply_eq]
    exact hf.objs n node' o hnode' (htype'.trans htype) (hobj.trans ho)

/-- The addresses of a node, of its object if it has one, and of its vnode. -/
theorem exists_supply (supply : List ℕ) (hlen : 3 ≤ supply.length) (type : Vtype) :
    ∃ n vmobj vn rest, supply = n :: (Option.toList vmobj ++ vn :: rest) ∧
      (vmobj.isSome = true ↔ type = .vreg) ∧ supply.length ≤ rest.length + 3 := by
  match supply, hlen with
  | a :: b :: c :: rest, _ =>
      by_cases htype : type = .vreg
      · exact ⟨a, some b, c, rest, rfl, by simp [htype], by simp⟩
      · exact ⟨a, none, b, c :: rest, rfl, by simp [htype], by simp⟩

/-- The object of a file is the next of the supply, and another type takes none. -/
theorem makeObj_returns {type : Vtype} {vmobj : Option ℕ} {rest : List ℕ}
    (hv : vmobj.isSome = true ↔ type = .vreg) :
    makeObj type { s with supply := vmobj.toList ++ rest } = some (vmobj, { s with supply := rest }) := by
  unfold makeObj
  cases vmobj with
  | none =>
      rw [if_neg fun htype => by simpa using hv.mpr htype]
      rfl
  | some o =>
      rw [if_pos (hv.mp rfl)]
      rfl

/-- The node that a creation makes. -/
def madeNode (d vn : ℕ) (attr : Vattr) (vmobj : Option ℕ) : Tmpnode :=
  ⟨some vn, { attr with size := 0 }, [], if attr.type = .vdir then some d else none, vmobj⟩

/-- **`tmp_create` returns**, with the node it has made. -/
theorem create_returns {vmobj : Option ℕ} {rest : List ℕ} (hf : Fresh s)
    (hd : s.dirOf dvn = some (d, dnode)) (hsup : s.supply = n :: (vmobj.toList ++ vn :: rest))
    (hv : vmobj.isSome = true ↔ attr.type = .vreg) :
    ∃ s', tmpCreate dvn c attr s = some ((0, vn), s') ∧ s'.supply = rest ∧
      (∀ k, s'.nodes.get? k = if k = n then some (madeNode d vn attr vmobj)
        else if k = d then some { dnode with entries := dnode.entries ++ [⟨c, n⟩] }
        else s.nodes.get? k) ∧
      ∀ k, s'.vnodes.get? k = if k = vn then some ⟨1, false, attr.type, vmobj, n⟩
        else s.vnodes.get? k := by
  obtain ⟨hof, hdnode⟩ := dirOf_eq_some.mp hd
  obtain ⟨dv, hdv, hdata⟩ := Option.map_eq_some_iff.mp hof
  obtain ⟨htype, rfl⟩ := Prod.mk.inj hdata
  have hn : s.nodes.get? n = none := hf.nodes n (hsup ▸ List.mem_cons_self)
  have hvn : s.vnodes.get? vn = none := hf.vnodes vn (by rw [hsup]; simp)
  have hdn : dv.data ≠ n := by
    rintro rfl
    rw [hn] at hdnode
    cases hdnode
  -- the node, without its vnode
  obtain ⟨nodes₁, hnodes₁⟩ := Heap.exists_alloc hn
    ⟨none, { attr with size := 0 }, [], if attr.type = .vdir then some dv.data else none, vmobj⟩
  have hget₁ : nodes₁.get? dv.data = some dnode := by rw [Heap.get?_alloc hnodes₁, if_neg hdn, hdnode]
  have hmake : tmakenode dv.data c attr s = some (n, { s with
      nodes := nodes₁.set dv.data { dnode with entries := dnode.entries ++ [⟨c, n⟩] }
      supply := vn :: rest }) := by
    have hfirst : kmemAlloc s = some (n, { s with supply := vmobj.toList ++ vn :: rest }) := by
      unfold kmemAlloc
      rw [hsup]
    unfold tmakenode
    rw [hfirst, Option.bind_eq_bind, Option.bind_some]
    dsimp only
    rw [makeObj_returns hv, Option.bind_eq_bind, Option.bind_some]
    dsimp only
    rw [hnodes₁, Option.bind_eq_bind, Option.bind_some, hget₁]
    rfl
  have hnew : (nodes₁.set dv.data { dnode with entries := dnode.entries ++ [⟨c, n⟩] }).get? n
      = some ⟨none, { attr with size := 0 }, [], if attr.type = .vdir then some dv.data else none,
          vmobj⟩ := by
    rw [Heap.get?_set hget₁, if_neg (Ne.symm hdn), Heap.get?_alloc hnodes₁, if_pos rfl]
  -- its vnode
  obtain ⟨vnodes, hvnodes⟩ := Heap.exists_alloc hvn ⟨1, false, attr.type, vmobj, n⟩
  refine ⟨⟨(nodes₁.set dv.data { dnode with entries := dnode.entries ++ [⟨c, n⟩] }).set n
    (madeNode dv.data vn attr vmobj), vnodes, rest⟩, ?_, rfl, fun k => ?_, fun k => ?_⟩
  · unfold tmpCreate
    rw [hdv, Option.bind_eq_bind, Option.bind_some, if_pos htype, hmake, Option.bind_eq_bind,
      Option.bind_some]
    unfold tmpfsVget
    dsimp only
    rw [hnew, Option.bind_eq_bind, Option.bind_some]
    show (s.vnodes.alloc vn ⟨1, false, attr.type, vmobj, n⟩).bind _ = _
    rw [hvnodes]
    rfl
  · show (Heap.set _ n _).get? k = _
    rw [Heap.get?_set hnew, Heap.get?_set hget₁, Heap.get?_alloc hnodes₁]
    by_cases hk : k = n
    · rw [if_pos hk, if_pos hk]
    · rw [if_neg hk, if_neg hk, if_neg hk]
  · exact Heap.get?_alloc hvnodes k

/-- A creation leaves what `kmem_alloc` is going to return out of use. -/
theorem Fresh.of_create {vmobj : Option ℕ} {rest : List ℕ} (hf : Fresh s)
    (hd : s.nodes.get? d = some dnode) (hsup : s.supply = n :: (vmobj.toList ++ vn :: rest))
    (hsup' : s'.supply = rest)
    (hnodes : ∀ k, s'.nodes.get? k = if k = n then some (madeNode d vn attr vmobj)
        else if k = d then some { dnode with entries := dnode.entries ++ [⟨c, n⟩] }
        else s.nodes.get? k)
    (hvnodes : ∀ k, s'.vnodes.get? k = if k = vn then some ⟨1, false, attr.type, vmobj, n⟩
        else s.vnodes.get? k) : Fresh s' := by
  have hnd := hsup ▸ hf.nodup
  have hsub : ∀ a ∈ rest, a ∈ s.supply := fun a ha => by
    rw [hsup]
    simp [ha]
  -- the addresses that are left differ from those used for the node, the object and the vnode
  have hne : ∀ a ∈ rest, a ≠ n ∧ a ≠ vn ∧ ∀ o ∈ vmobj, a ≠ o := by
    intro a ha
    cases vmobj <;> simp at hnd ⊢ <;> grind
  refine ⟨?_, fun a ha => ?_, fun a ha => ?_, fun k node o hk htype ho => ?_⟩
  · rw [hsup']
    cases vmobj <;> simp at hnd <;> grind
  · rw [hsup'] at ha
    have had : a ≠ d := by
      rintro rfl
      rw [hf.nodes a (hsub a ha)] at hd
      cases hd
    rw [hnodes, if_neg (hne a ha).1, if_neg had, hf.nodes a (hsub a ha)]
  · rw [hsup'] at ha
    rw [hvnodes, if_neg (hne a ha).2.1, hf.vnodes a (hsub a ha)]
  · rw [hsup']
    intro hmem
    rw [hnodes] at hk
    split at hk
    · cases hk
      exact (hne o hmem).2.2 o ho rfl
    · split at hk
      · cases hk
        exact hf.objs d dnode o hd htype ho (hsub o hmem)
      · exact hf.objs k node o hk htype ho (hsub o hmem)

/-- A creation of a name that is new adds it to the tree. -/
theorem Tree.of_create {vmobj : Option ℕ} (h : Tree s root place) (hd : place p = some d)
    (hdnode : s.nodes.get? d = some dnode) (htype : dnode.attr.type = .vdir)
    (hnew : place (p ++ [c]) = none) (hn : s.nodes.get? n = none) (hinv : Inv s')
    (hnodes : ∀ k, s'.nodes.get? k = if k = n then some (madeNode d vn attr vmobj)
        else if k = d then some { dnode with entries := dnode.entries ++ [⟨c, n⟩] }
        else s.nodes.get? k) :
    Tree s' root (Function.update place (p ++ [c]) (some n)) := by
  have hplace : ∀ q k, place q = some k → k ≠ n := by
    rintro q k hq rfl
    obtain ⟨node, hnode⟩ := h.live q k hq
    rw [hn] at hnode
    cases hnode
  -- one place is new, all the others are where they were
  have hupd : ∀ q k, Function.update place (p ++ [c]) (some n) q = some k ↔
      (q = p ++ [c] ∧ k = n) ∨ (q ≠ p ++ [c] ∧ place q = some k) := by
    intro q k
    by_cases hq : q = p ++ [c]
    · subst hq
      rw [Function.update_self, Option.some_inj]
      simp [eq_comm]
    · rw [Function.update_of_ne hq]
      simp [hq]
  have hold : ∀ q k, place q = some k → q ≠ p ++ [c] := by
    rintro q k hq rfl
    rw [hnew] at hq
    cases hq
  have hdn : d ≠ n := hplace p d hd
  constructor
  case inv => exact hinv
  case root_eq => exact (hupd [] root).mpr (.inr ⟨by simp, h.root_eq⟩)
  case inj =>
    intro q q' k hq hq'
    rcases (hupd q k).mp hq with ⟨rfl, rfl⟩ | ⟨-, hq⟩ <;>
      rcases (hupd q' k).mp hq' with ⟨rfl, hk⟩ | ⟨-, hq'⟩
    · rfl
    · exact absurd rfl (hplace q' _ hq')
    · exact absurd hk (hplace q k hq)
    · exact h.inj q q' k hq hq'
  case onto =>
    intro k node hk
    rcases node_of_created hdnode hnodes hk with ⟨hkn, -⟩ | ⟨node', hnode', -⟩
    · exact ⟨p ++ [c], (hupd _ k).mpr (.inl ⟨rfl, hkn⟩)⟩
    · obtain ⟨q, hq⟩ := h.onto k node' hnode'
      exact ⟨q, (hupd q k).mpr (.inr ⟨hold q k hq, hq⟩)⟩
  case live =>
    intro q k hq
    rcases (hupd q k).mp hq with ⟨-, rfl⟩ | ⟨-, hq⟩
    · exact ⟨_, (hnodes k).trans (if_pos rfl)⟩
    · obtain ⟨node, hnode⟩ := h.live q k hq
      obtain ⟨node', hnode', -⟩ := node_kept hn hdnode hnodes hnode
      exact ⟨node', hnode'⟩
  -- an entry is an old one, or the one added to the directory
  case entry =>
    intro q d' dnode' c' k hqd hd' hmem
    rcases node_of_created hdnode hnodes hd' with ⟨-, rfl⟩ | ⟨node, hnode, -, -, hents⟩
    · -- the new node has no entries
      cases hmem
    have hq : place q = some d' := by
      rcases (hupd q d').mp hqd with ⟨-, rfl⟩ | ⟨-, hq⟩
      · rw [hn] at hnode
        cases hnode
      · exact hq
    rcases hents _ hmem with hmem | ⟨rfl, heq⟩
    · have hk := h.entry q d' node c' k hq hnode hmem
      exact (hupd _ k).mpr (.inr ⟨hold _ k hk, hk⟩)
    · cases heq
      obtain rfl := h.inj q p d' hq hd
      exact (hupd _ n).mpr (.inl ⟨rfl, rfl⟩)
  case parent =>
    intro q c' k hk
    rcases (hupd (q ++ [c']) k).mp hk with ⟨heq, rfl⟩ | ⟨hne, hk⟩
    · obtain ⟨rfl, hc⟩ := List.append_inj' heq rfl
      obtain rfl : c' = c := List.singleton_inj.mp hc
      refine ⟨d, { dnode with entries := dnode.entries ++ [⟨c', k⟩] },
        (hupd q d).mpr (.inr ⟨hold q d hd, hd⟩), ?_, htype, ?_⟩
      · rw [hnodes, if_neg hdn, if_pos rfl]
      · exact List.mem_append_right _ List.mem_cons_self
    · obtain ⟨d', dnode', hq, hd', htype', hmem⟩ := h.parent q c' k hk
      obtain ⟨node', hnode', -, hattr, hents⟩ := node_kept hn hdnode hnodes hd'
      exact ⟨d', node', (hupd q d').mpr (.inr ⟨hold q d' hq, hq⟩), hnode', hattr ▸ htype', hents _ hmem⟩

/-- What a creation has made: the node `n` with the vnode `vn`, and an object that was not in use if it is
one of a regular file. -/
structure Made (s s' : Mem) (n vn : ℕ) (attr : Vattr) (vmobj : Option ℕ) : Prop where
  fresh : s.nodes.get? n = none
  node : ∃ d, s'.nodes.get? n = some (madeNode d vn attr vmobj)
  vnode : s'.vnodes.get? vn = some ⟨1, false, attr.type, vmobj, n⟩
  obj : attr.type = .vreg → ∃ o ∈ s.supply, vmobj = some o
  kept : ∀ k node, s.nodes.get? k = some node → ∃ node', s'.nodes.get? k = some node' ∧
    node'.attr = node.attr ∧ node'.vmobj = node.vmobj
  supply_le : s.supply.length ≤ s'.supply.length + 3

/-- A lookup before it. -/
theorem Made.of_same {t : Mem} {vmobj : Option ℕ} (hsame : Same s s') (hunused : Unused s s')
    (h : Made s' t n vn attr vmobj) : Made s t n vn attr vmobj where
  fresh := hsame.nodes_eq ▸ h.fresh
  node := h.node
  vnode := h.vnode
  obj hreg := by
    obtain ⟨o, ho, heq⟩ := h.obj hreg
    exact ⟨o, hunused.supply_eq ▸ ho, heq⟩
  kept k node hk := h.kept k node (by rwa [hsame.nodes_eq])
  supply_le := hunused.supply_eq ▸ h.supply_le

/-- **`tmp_create` in the tree** returns, as long as there is memory, and adds a node. -/
theorem Tree.create (h : Tree s root place) (hf : Fresh s) (hlen : 3 ≤ s.supply.length)
    (hd : place p = some d) (hdnode : s.nodes.get? d = some dnode) (htype : dnode.attr.type = .vdir)
    (hnew : place (p ++ [c]) = none) (hdvn : s.vnodeOf dvn = some (.vdir, d)) (attr : Vattr) :
    ∃ n vn vmobj s', tmpCreate dvn c attr s = some ((0, vn), s') ∧ Made s s' n vn attr vmobj ∧
      Tree s' root (Function.update place (p ++ [c]) (some n)) ∧ Fresh s' ∧
      ∀ w x, s.vnodeOf w = some x → s'.vnodeOf w = some x := by
  -- the addresses that the calls of `kmem_alloc` will get, in their order
  obtain ⟨n, vmobj, vn, rest, hsup, hv, hrest⟩ := exists_supply s.supply hlen attr.type
  obtain ⟨s', hs, hsup', hnodes, hvnodes⟩ := create_returns (c := c) hf
    (dirOf_eq_some.mpr ⟨hdvn, hdnode⟩) hsup hv
  have hn : s.nodes.get? n = none := hf.nodes n (hsup ▸ List.mem_cons_self)
  have hinv := h.inv.of_creates (create_spec h.inv hs).2
  refine ⟨n, vn, vmobj, s', hs, ⟨hn, ⟨d, by rw [hnodes, if_pos rfl]⟩, by rw [hvnodes, if_pos rfl], ?_, ?_, ?_⟩,
    h.of_create hd hdnode htype hnew hn hinv hnodes, hf.of_create hdnode hsup hsup' hnodes hvnodes, ?_⟩
  · intro hreg
    obtain ⟨o, rfl⟩ := Option.isSome_iff_exists.mp (hv.mpr hreg)
    exact ⟨o, by rw [hsup]; simp, rfl⟩
  · intro k node hk
    have hkn : k ≠ n := by
      rintro rfl
      rw [hn] at hk
      cases hk
    rw [hnodes, if_neg hkn]
    by_cases hkd : k = d
    · subst hkd
      obtain rfl := Option.some.inj (hdnode.symm.trans hk)
      exact ⟨_, if_pos rfl, rfl, rfl⟩
    · exact ⟨node, by rw [if_neg hkd, hk], rfl, rfl⟩
  · rw [hsup']
    exact hrest
  · intro w x hw
    have hwv : w ≠ vn := by
      rintro rfl
      rw [Mem.vnodeOf, hf.vnodes w (by rw [hsup]; simp)] at hw
      cases hw
    rw [Mem.vnodeOf, hvnodes, if_neg hwv]
    exact hw

/-- **`tmpfs_mount` returns** the vnode of its root. -/
theorem mount_returns (a b : ℕ) (rest : List ℕ) (garbage : Tmpnode) :
    ∃ s, tmpfsMount garbage ⟨Heap.empty, Heap.empty, a :: b :: rest⟩ = some (b, s) ∧ s.supply = rest ∧
      (∀ k, s.nodes.get? k = if k = a then some (rootNode garbage (some b)) else none) ∧
      ∀ k, s.vnodes.get? k = if k = b then some ⟨1, true, .vdir, garbage.vmobj, a⟩ else none := by
  obtain ⟨nodes, hnodes⟩ := Heap.exists_alloc (Heap.get?_empty (α := Tmpnode) a) (rootNode garbage none)
  obtain ⟨vnodes, hvnodes⟩ := Heap.exists_alloc (Heap.get?_empty (α := Vnode) b)
    ⟨1, false, .vdir, garbage.vmobj, a⟩
  have hroot : nodes.get? a = some (rootNode garbage none) := by rw [Heap.get?_alloc hnodes, if_pos rfl]
  have hvroot : vnodes.get? b = some ⟨1, false, .vdir, garbage.vmobj, a⟩ := by
    rw [Heap.get?_alloc hvnodes, if_pos rfl]
  refine ⟨⟨nodes.set a (rootNode garbage (some b)), vnodes.set b ⟨1, true, .vdir, garbage.vmobj, a⟩,
    rest⟩, ?_, rfl, fun k => ?_, fun k => ?_⟩
  · have hfirst : kmemAlloc ⟨Heap.empty, Heap.empty, a :: b :: rest⟩
        = some (a, ⟨Heap.empty, Heap.empty, b :: rest⟩) := rfl
    have hsecond : kmemAlloc ⟨nodes, Heap.empty, b :: rest⟩ = some (b, ⟨nodes, Heap.empty, rest⟩) := rfl
    have hnone : (rootNode garbage none).vn = none := rfl
    -- the root has no vnode yet, so `vget` makes one
    have hget : tmpfsVget a ⟨nodes, Heap.empty, b :: rest⟩
        = some ((0, b), ⟨nodes.set a (rootNode garbage (some b)), vnodes, rest⟩) := by
      unfold tmpfsVget
      dsimp only
      rw [hroot, Option.bind_eq_bind, Option.bind_some, hnone]
      dsimp only
      rw [hsecond, Option.bind_eq_bind, Option.bind_some]
      show (Heap.alloc Heap.empty b (⟨1, false, .vdir, garbage.vmobj, a⟩ : Vnode)).bind _ = _
      rw [hvnodes]
      rfl
    unfold tmpfsMount
    rw [hfirst, Option.bind_eq_bind, Option.bind_some]
    show (Heap.alloc Heap.empty a (rootNode garbage none)).bind _ = _
    rw [hnodes, Option.bind_some]
    dsimp only
    rw [hget, Option.bind_eq_bind, Option.bind_some]
    dsimp only
    rw [hvroot]
    rfl
  · show (Heap.set _ a _).get? k = _
    rw [Heap.get?_set hroot, Heap.get?_alloc hnodes, Heap.get?_empty]
    split <;> rfl
  · show (Heap.set _ b _).get? k = _
    rw [Heap.get?_set hvroot, Heap.get?_alloc hvnodes, Heap.get?_empty]
    split <;> rfl

/-- **An empty mount** is a tree of its root. -/
theorem mount_tree {a b : ℕ} {rest : List ℕ} (garbage : Tmpnode) (hnd : (a :: b :: rest).Nodup) :
    ∃ s, tmpfsMount garbage ⟨Heap.empty, Heap.empty, a :: b :: rest⟩ = some (b, s) ∧
      Tree s a (fun p => if p = [] then some a else none) ∧ Fresh s ∧ s.supply = rest ∧
      s.vnodeOf b = some (.vdir, a) := by
  obtain ⟨s, hs, hsup, hnodes, hvnodes⟩ := mount_returns a b rest garbage
  have hgood : Good ⟨s, b, none, []⟩ := Mounted.good ⟨rfl, rfl, garbage, a :: b :: rest, hs⟩
  -- the root is the only node, and it has no entries
  have hroot : ∀ {k node}, s.nodes.get? k = some node → k = a ∧ node = rootNode garbage (some b) := by
    intro k node hk
    rw [hnodes] at hk
    split at hk
    · rename_i hka
      exact ⟨hka, (Option.some.inj hk).symm⟩
    · cases hk
  have hplace : ∀ {p : List Name} {k}, (if p = [] then some a else none) = some k → p = [] ∧ a = k := by
    intro p k hp
    split at hp
    · rename_i hnil
      exact ⟨hnil, Option.some.inj hp⟩
    · cases hp
  rw [List.nodup_cons, List.nodup_cons, List.mem_cons, not_or] at hnd
  refine ⟨s, hs, ⟨hgood.inv, rfl, ?_, ?_, ?_, ?_, ?_⟩, ⟨?_, ?_, ?_, ?_⟩, hsup, ?_⟩
  · intro p q n hp hq
    rw [(hplace hp).1, (hplace hq).1]
  · intro n node hn
    exact ⟨[], by rw [if_pos rfl, (hroot hn).1]⟩
  · intro p n hp
    exact ⟨_, by rw [hnodes, if_pos (hplace hp).2.symm]⟩
  · intro p d dnode c k hp hd hmem
    rw [(hroot hd).2] at hmem
    cases hmem
  · intro p c k hp
    have hnil := (hplace hp).1
    simp at hnil
  · rw [hsup]
    exact hnd.2.2
  · intro x hx
    rw [hsup] at hx
    rw [hnodes, if_neg]
    rintro rfl
    exact hnd.1.2 hx
  · intro x hx
    rw [hsup] at hx
    rw [hvnodes, if_neg]
    rintro rfl
    exact hnd.2.1 hx
  · intro n node o hn htype
    rw [(hroot hn).2] at htype
    cases htype
  · rw [Mem.vnodeOf, hvnodes, if_pos rfl]
    rfl

end Scalux.Tmpfs
