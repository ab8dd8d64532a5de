import Scalux.Posix.Vfs

/-! # A lookup without a working directory

`vfs_lookup` without a working directory begins at the root, and so does one with the root as the working
directory.  The first also takes the shortcut for `/`, which looks only at the second character: every path
of one character leads to the root.

* **`working_dir_iff`**: for which paths and vnode graphs the two calls agree.
* **`working_dir_one_letter`**: a path of one letter. -/

namespace Scalux.Posix

variable {σ V F : Type} {ops : Vnops σ V F} {mounts : ℕ} {flags : LookupFlags} {attr : Vattr}
  {rootVnode : V} {s : σ}

/-- Both calls return the same and leave the same. -/
def SameLookup (ops : Vnops σ V F) (mounts : ℕ) (rootVnode : V) (p : Pathname) (flags : LookupFlags)
    (attr : Vattr) (s : σ) : Prop :=
  (vfsLookup ops mounts rootVnode none p.chars flags attr).run.run s
    = (vfsLookup ops mounts rootVnode (some rootVnode) p.chars flags attr).run.run s

/-- The graph has the root itself under a name: the operation on it, a lookup or a creation, returns a
vnode from which the mounts lead to the root, and changes nothing. -/
def RootUnder (ops : Vnops σ V F) (mounts : ℕ) (rootVnode : V) (name : Name) (flags : LookupFlags)
    (attr : Vattr) (s : σ) : Prop :=
  ∃ r vn s₁, (if flags.creat then ops.create rootVnode name attr else ops.lookup rootVnode name) s
      = some ((r, vn), s₁) ∧
    0 ≤ r ∧ (followMounts ops mounts vn).run.run s₁ = some (.ok rootVnode, s)

/-- What `vfs_lookup` does with the last name leads to the root. -/
theorem run_visit_eq_iff {name : Name} :
    (visit ops mounts flags attr true rootVnode name).run.run s = some (.ok rootVnode, s) ↔
      RootUnder ops mounts rootVnode name flags attr s := by
  -- the root vnode takes `create` or `lookup` as the flags say, and then the mounts
  have hvisit : visit ops mounts flags attr true rootVnode name
      = call (if flags.creat then ops.create rootVnode name attr else ops.lookup rootVnode name)
          >>= followMounts ops mounts := by
    unfold visit
    cases flags.creat with
    | false => rfl
    | true => rfl
  unfold RootUnder
  rw [hvisit, run_bind, run_call]
  generalize (if flags.creat then ops.create rootVnode name attr else ops.lookup rootVnode name) s = m
  cases m with
  | none => exact iff_of_false nofun nofun
  | some x =>
      obtain ⟨⟨r, vn⟩, s₁⟩ := x
      rw [Option.map_some, Option.bind_some]
      dsimp only
      by_cases hr : r < 0
      · rw [if_pos hr]
        refine iff_of_false nofun ?_
        rintro ⟨r', vn', s', heq, hr', -⟩
        cases heq
        exact absurd hr (Int.not_lt.mpr hr')
      · rw [if_neg hr]
        constructor
        · intro hrun
          exact ⟨r, vn, s₁, rfl, Int.not_lt.mp hr, hrun⟩
        · rintro ⟨r', vn', s', heq, -, hrun⟩
          cases heq
          exact hrun

/-- A path of more than one character: both calls begin at the root. -/
theorem sameLookup_of_length_ne_one {p : Pathname} (hlen : p.chars.length ≠ 1) :
    SameLookup ops mounts rootVnode p flags attr s := by
  have hshort : ∀ cwd : Option V, ¬ IsShortcut cwd p.chars := fun cwd h => hlen h.2
  unfold SameLookup
  by_cases hname : ∃ c ∈ p.chars, c ≠ slash
  · rw [vfsLookup_eq_last p hname (hshort _), vfsLookup_eq_last p hname (hshort _)]
    rfl
  · rw [vfsLookup_no_name p hname (hshort _), vfsLookup_no_name p hname (hshort _)]

/-- A path of one character: without a working directory it leads to the root, with the root as one the
character is a name. -/
theorem sameLookup_one {p : Pathname} {c : UInt8} (hp : p.chars = [c]) :
    SameLookup ops mounts rootVnode p flags attr s ↔
      c = slash ∨ c = dot ∨ RootUnder ops mounts rootVnode [c] flags attr s := by
  have hnone : IsShortcut (none : Option V) p.chars := ⟨.inr rfl, congrArg List.length hp⟩
  unfold SameLookup
  rw [vfsLookup_shortcut hnone]
  by_cases hslash : c = slash
  · have hsome : IsShortcut (some rootVnode) p.chars :=
      ⟨.inl (by rw [hp, hslash]; rfl), congrArg List.length hp⟩
    rw [vfsLookup_shortcut hsome]
    exact iff_of_true rfl (.inl hslash)
  · have hsome : ¬ IsShortcut (some rootVnode) p.chars := by
      rintro ⟨hhead | hcwd, -⟩
      · rw [hp] at hhead
        exact hslash (Option.some.inj hhead)
      · cases hcwd
    have hname : ∃ c ∈ p.chars, c ≠ slash := ⟨c, by rw [hp]; exact List.mem_cons_self, hslash⟩
    -- a path of one character that is no slash has one name
    have hall : allNames p.chars = [[c]] := by
      have hdrop : p.chars.rdropWhile (· == slash) = [c] := by
        rw [hp]
        exact List.rdropWhile_concat_neg _ [] c (by simpa using hslash)
      rw [allNames, hdrop]
      exact List.splitOnP_eq_singleton fun d hd => by simpa [List.mem_singleton.mp hd] using hslash
    have hlast : lastName p.chars = [c] := by rw [lastName, hall]; rfl
    have hbefore : namesBefore p.chars = [] := by rw [namesBefore, hall]; rfl
    have hstart : startOf rootVnode (some rootVnode) p.chars = rootVnode := ite_self rootVnode
    have hwalk : walk ops mounts rootVnode [] = pure rootVnode := rfl
    rw [or_iff_right hslash, vfsLookup_eq_last p hname hsome, hlast, hbefore, hstart, hwalk, pure_bind]
    by_cases hdot : c = dot
    · rw [if_neg fun hcounts => hcounts.2 (by rw [hdot])]
      exact iff_of_true rfl (.inl hdot)
    · have hcounts : Counts [c] := ⟨List.cons_ne_nil c [], fun h => hdot (List.singleton_inj.mp h)⟩
      rw [if_pos hcounts, or_iff_right hdot, ← run_visit_eq_iff]
      exact eq_comm

/-- **A missing working directory means the root**, for every vnode graph, path and flags, if and only if
the path is not of one character, or it is `/` or `.`, or the graph has the root itself under it. -/
theorem working_dir_iff (ops : Vnops σ V F) (mounts : ℕ) (rootVnode : V) (p : Pathname)
    (flags : LookupFlags) (attr : Vattr) (s : σ) :
    SameLookup ops mounts rootVnode p flags attr s ↔
      p.chars.length ≠ 1 ∨ p.chars = [slash] ∨ p.chars = [dot] ∨
        RootUnder ops mounts rootVnode p.chars flags attr s := by
  by_cases hlen : p.chars.length = 1
  · obtain ⟨c, hc⟩ := List.length_eq_one_iff.mp hlen
    rw [sameLookup_one hc, or_iff_right (not_not.mpr hlen), hc, List.singleton_inj, List.singleton_inj]
  · exact iff_of_true (sameLookup_of_length_ne_one hlen) (.inl hlen)

/-- `"a"`. -/
def oneLetter : Pathname := ⟨[97], by decide, by decide, by decide⟩

/-- **A path of one letter.** In a root directory without entries, `a` is not found from the root, and it
is the root without a working directory. -/
theorem working_dir_one_letter : ¬ ∀ (ops : Vnops Unit Unit Unit) (p : Pathname),
    SameLookup ops 1 () p ⟨false, false⟩ ⟨.vdir, 0, 0⟩ () := by
  intro h
  have hsame := h ⟨fun _ _ => pure (-2, ()), fun _ _ _ => pure (0, ()), fun _ _ => none,
    fun _ => pure (0, ())⟩ oneLetter
  rw [sameLookup_one (c := 97) rfl] at hsame
  rcases hsame with hslash | hdot | ⟨r, vn, s₁, hlook, hr, -⟩
  · cases hslash
  · cases hdot
  · cases hlook
    exact absurd hr (by decide)

end Scalux.Posix
