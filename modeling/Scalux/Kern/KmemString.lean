import Scalux.Kern.KmemContract

/-! # Strings

`kmem_vasprintf` allocates a block for a string and the byte that ends it, and `kmem_strfree` releases the
block with the length of the string, without this byte.  Where the two sizes are of different zones, or of
different numbers of pages, the block does not go back where it came from.

* **`sameZone_iff`**: the lengths for which they are the same.
* **`string_release_iff`**: these are the strings that are released. -/

namespace Scalux.Kmem

/-- Two sizes of one zone, or of one number of pages. -/
def SameZone (size size' : ℕ) : Prop :=
  zonenum size = zonenum size' ∧ (zonenum size = -1 → npages size = npages size')

/-- The objects of callers: all but headers and bufctls. -/
def callersLive (k : Allocator) : List (ZoneId × ℕ) := k.live.filter fun x => x.1 ≠ kmemSlab ∧ x.1 ≠ kmemBufctl

/-- What `kmem_strfree` is for, with the allocator before the string was made (`k`) and after it (`k₁`): the
sizes are of one zone, no assertion fails, the block goes back, and the objects of callers are those from
before. -/
def Released (len p : ℕ) (k k₁ : Allocator) : Prop :=
  SameZone (len + 1) len ∧ ∃ k₂, kmemStrfree p k₁ = some k₂ ∧ ReturnsTo (p, len + 1) k₁ k₂ ∧
    (callersLive k₂).Perm (callersLive k)

/-! ## Sizes -/

variable {G : List Slab} {s : Clients} {k k₁ : Allocator} {len p depth : ℕ} {next : List ℕ} {str : List ℕ}

/-- Of two sizes that follow each other, below the largest zone. -/
theorem zonenum_succ_iff (hpos : 0 < len) (hlt : len < 4096) :
    zonenum (len + 1) = zonenum len ↔ len ∉ zoneSizes := by
  obtain ⟨hnonneg, hget, hroom, hleast⟩ := usable_zone hpos hlt.le
  obtain ⟨hnonneg', hget', hroom', hleast'⟩ :=
    usable_zone (show 0 < len + 1 from Nat.succ_pos len) (show len + 1 ≤ 4096 from hlt)
  constructor
  · intro heq hmem
    rw [heq, hget] at hget'
    have hsame := Option.some.inj hget'
    have hle := hleast len hmem (Nat.le_refl _)
    omega
  · intro hnot
    have hmem := List.mem_of_getElem? hget
    have hne : usable len ≠ len := fun heq => hnot (heq ▸ hmem)
    have hsame : usable (len + 1) = usable len :=
      Nat.le_antisymm (hleast' _ hmem (by omega)) (hleast _ (List.mem_of_getElem? hget') (by omega))
    have hnodup : zoneSizes.Nodup := by decide
    have hidx : (zonenum (len + 1)).toNat < zoneSizes.length := (List.getElem?_eq_some_iff.mp hget').1
    have hnat := (List.getElem?_inj hidx hnodup).mp ((hget'.trans (hsame ▸ rfl)).trans hget.symm)
    omega

/-- **Lengths** of which the string and the string with its last byte are of one zone or of one number of
pages. -/
theorem sameZone_iff (hlt : len < 2 ^ 31) :
    SameZone (len + 1) len ↔ len ≠ 0 ∧ len ∉ zoneSizes ∧ ¬ (4096 < len ∧ pgSize ∣ len) := by
  unfold SameZone
  rcases Nat.eq_zero_or_pos len with rfl | hpos
  · exact iff_of_false (fun h => absurd h.1 (by decide)) fun h => h.1 rfl
  -- both sizes are of a zone, or both of whole pages, except at 4096 itself
  rcases Nat.lt_trichotomy len 4096 with hsmall | rfl | hlarge
  · have hnum : zonenum (len + 1) ≠ -1 := by
      have hnonneg := (usable_zone (show 0 < len + 1 from Nat.succ_pos len) hsmall).1
      omega
    rw [zonenum_succ_iff hpos hsmall]
    exact ⟨fun h => ⟨hpos.ne', h.1, fun hn => by omega⟩, fun h => ⟨h.2.1, fun hn => absurd hn hnum⟩⟩
  · exact iff_of_false (fun h => absurd h.1 (by decide)) fun h => h.2.1 (by decide)
  · have hnot : len ∉ zoneSizes := by
      have hle : ∀ c ∈ zoneSizes, c ≤ 4096 := by decide
      exact fun hmem => absurd (hle len hmem) (by omega)
    rw [zonenum_eq_neg_one hlarge, zonenum_eq_neg_one (Nat.lt_succ_of_lt hlarge)]
    have hpages : npages (len + 1) = npages len ↔ ¬ pgSize ∣ len := by
      unfold npages pgSize
      rw [pgRoundUp_eq, pgRoundUp_eq]
      omega
    rw [hpages]
    exact ⟨fun h => ⟨hpos.ne', hnot, fun hn => h.2 rfl hn.2⟩, fun h => ⟨rfl, fun _ hdvd =>
      h.2.2 ⟨hlarge, hdvd⟩⟩⟩

/-- `kmem_free` depends on the zone of the size. -/
theorem kmemFree_congr {size size' : ℕ} (hpos : 0 < size) (hpos' : 0 < size') (h : SameZone size size') :
    kmemFree p size k = kmemFree p size' k := by
  unfold kmemFree
  rw [if_neg hpos.ne', if_neg hpos'.ne', h.1]
  split
  · rename_i hnum
    rw [h.2 (h.1.trans hnum)]
  · rfl

/-! ## The string in memory -/

/-- The length of a string in memory. -/
theorem strlen_eq {mem : ℕ → ℕ} {n : ℕ} (hbytes : ∀ i < len, byteAt mem (p + i) ≠ 0)
    (hend : byteAt mem (p + len) = 0) (hn : len < n) : strlen mem n p = some len := by
  induction len generalizing p n with
  | zero =>
      obtain ⟨n, rfl⟩ := Nat.exists_eq_succ_of_ne_zero (Nat.ne_of_gt hn)
      exact if_pos hend
  | succ len ih =>
      obtain ⟨n, rfl⟩ := Nat.exists_eq_succ_of_ne_zero (Nat.ne_zero_of_lt hn)
      have hrest : strlen mem n (p + 1) = some len := by
        refine ih (fun i hi => ?_) ?_ (Nat.lt_of_succ_lt_succ hn)
        · rw [Nat.add_assoc, Nat.add_comm 1]
          exact hbytes (i + 1) (Nat.succ_lt_succ hi)
        · rw [Nat.add_assoc, Nat.add_comm 1]
          exact hend
      have hfirst : byteAt mem p ≠ 0 := hbytes 0 (Nat.succ_pos len)
      rw [strlen, if_neg hfirst, hrest]
      rfl

/-- The length of a string that has been stored. -/
theorem strlen_storeBytes {mem : ℕ → ℕ} (hstr : ∀ c ∈ str, 0 < c ∧ c < 256) (hlen : str.length < 2 ^ 64) :
    strlen (storeBytes mem p (str ++ [0])) (2 ^ 64) p = some str.length := by
  have hbyte : ∀ c ∈ str ++ [0], c < 256 := by
    intro c hc
    rcases List.mem_append.mp hc with hc | hc
    · exact (hstr c hc).2
    · rw [List.mem_singleton.mp hc]
      decide
  refine strlen_eq (fun i hi => ?_) ?_ hlen
  · rw [byteAt_storeBytes hbyte (by rw [List.length_append]; omega), List.getElem_append_left hi]
    exact (hstr _ (List.getElem_mem hi)).1.ne'
  · rw [byteAt_storeBytes hbyte (by simp)]
    simp

/-! ## Release -/

/-- The objects of callers are their blocks of zones. -/
theorem Backed.callersLive_perm (h : Backed G s) : (callersLive s.kmem).Perm (heldOf s.blocks) := by
  have hheld : (heldOf s.blocks).filter (fun x => x.1 ≠ kmemSlab ∧ x.1 ≠ kmemBufctl) = heldOf s.blocks := by
    refine List.filter_eq_self.mpr fun x hx => ?_
    obtain ⟨b, -, rfl⟩ := List.mem_map.mp hx
    have hge : 2 ≤ zoneOf b.2 := Nat.le_add_left 2 _
    have hslab : zoneOf b.2 ≠ kmemSlab := fun heq => absurd (heq ▸ hge) (by decide)
    have hbufctl : zoneOf b.2 ≠ kmemBufctl := fun heq => absurd (heq ▸ hge) (by decide)
    exact decide_eq_true ⟨hslab, hbufctl⟩
  have hinner : (G.flatMap Slab.inner).filter (fun x => x.1 ≠ kmemSlab ∧ x.1 ≠ kmemBufctl) = [] := by
    refine List.filter_eq_nil_iff.mpr fun x hx hne => ?_
    obtain ⟨t, -, hx⟩ := List.mem_flatMap.mp hx
    unfold Slab.inner at hx
    split at hx
    · cases hx
    · rcases List.mem_cons.mp hx with rfl | hx
      · exact (of_decide_eq_true hne).1 rfl
      · obtain ⟨i, -, rfl⟩ := List.mem_map.mp hx
        exact (of_decide_eq_true hne).2 rfl
  have hperm := h.inv.owned.filter fun x => x.1 ≠ kmemSlab ∧ x.1 ≠ kmemBufctl
  rw [List.filter_append, hheld, hinner, List.append_nil] at hperm
  exact hperm

/-- **Strings.** In every state that is reached, for every string, of which `npf_vsnprintf` returns the
length as an `int`: releasing it with `kmem_strfree` after `kmem_vasprintf` has made it returns the block
to where it came from, if and only if its length is not 0, not the size of a zone, and not a multiple of
the page size above 4096. -/
theorem string_release_iff {mem : ℕ → ℕ} {k₀ : Allocator} (hinit : kmemInit mem = some k₀)
    (hreach : clients.Reachable ⟨k₀, []⟩ s) (hstr : ∀ c ∈ str, 0 < c ∧ c < 256)
    (hlen : str.length < 2 ^ 31)
    (hmade : kmemVasprintf depth str { s.kmem with next := next } = some (p, k₁)) :
    Released str.length p s.kmem k₁ ↔
      str.length ≠ 0 ∧ str.length ∉ zoneSizes ∧ ¬ (4096 < str.length ∧ pgSize ∣ str.length) := by
  rw [← sameZone_iff hlen]
  refine ⟨And.left, fun hsame => ⟨hsame, ?_⟩⟩
  have hpos : 0 < str.length := Nat.pos_of_ne_zero ((sameZone_iff hlen).mp hsame).1
  obtain ⟨G, h⟩ := backed_of_reachable hinit hreach
  obtain ⟨⟨strp, k⟩, halloc, hmade⟩ := Option.bind_eq_some_iff.mp hmade
  cases hmade
  have hmax : str.length + 1 ≤ maxSize := by
    unfold maxSize pgSize
    omega
  obtain ⟨G₁, h₁, -⟩ := h.alloc hmax halloc
  have hroom : (str ++ [0]).length ≤ usable (str.length + 1) := by
    rw [List.length_append]
    exact le_usable (Nat.succ_pos _) hmax
  have h₂ := h₁.storeBytes List.mem_cons_self hroom
  -- had `kmem_strfree` the right size, it would be the free of the contract
  obtain ⟨k₂, G₂, hfree, hbacked, hreturns, -⟩ := h₂.free List.mem_cons_self
  refine ⟨k₂, ?_, hreturns, ?_⟩
  · unfold kmemStrfree
    rw [strlen_storeBytes hstr (by omega)]
    exact (kmemFree_congr (Nat.succ_pos _) hpos hsame).symm.trans hfree
  · rw [List.erase_cons_head] at hbacked
    exact hbacked.callersLive_perm.trans h.callersLive_perm.symm

/-- A string of five characters, in a zone of blocks of eight bytes. -/
theorem string_release_five :
    ∃ k₀ p k₁, kmemInit (fun _ => 0) = some k₀ ∧
      kmemVasprintf 1 [104, 101, 108, 108, 111] { k₀ with next := [0x1000] } = some (p, k₁) ∧
      Released 5 p k₀ k₁ := by
  have hrun : ((kmemInit fun _ => 0).bind fun k₀ =>
      (kmemVasprintf 1 [104, 101, 108, 108, 111] { k₀ with next := [0x1000] }).map Prod.fst).isSome := by
    decide +kernel
  obtain ⟨q, hrun⟩ := Option.isSome_iff_exists.mp hrun
  obtain ⟨k₀, hinit, hmade⟩ := Option.bind_eq_some_iff.mp hrun
  obtain ⟨⟨p, k₁⟩, hmade, -⟩ := Option.map_eq_some_iff.mp hmade
  have hreach : clients.Reachable ⟨k₀, []⟩ ⟨k₀, []⟩ := .init
  exact ⟨k₀, p, k₁, hinit, hmade,
    (string_release_iff hinit hreach (by decide) (by decide) hmade).mpr (by decide)⟩

/-- The empty string takes a block of one byte, and is released with the size 0: an assertion fails. -/
theorem string_release_empty :
    ∃ k₀ p k₁, kmemInit (fun _ => 0) = some k₀ ∧
      kmemVasprintf 1 [] { k₀ with next := [0x1000] } = some (p, k₁) ∧ kmemStrfree p k₁ = none ∧
      ¬ SameZone (0 + 1) 0 ∧ ¬ Released 0 p k₀ k₁ := by
  have hrun : ((kmemInit fun _ => 0).bind fun k₀ =>
      (kmemVasprintf 1 [] { k₀ with next := [0x1000] }).map fun x => (kmemStrfree x.1 x.2).isNone)
        = some true := by
    decide +kernel
  obtain ⟨k₀, hinit, hmade⟩ := Option.bind_eq_some_iff.mp hrun
  obtain ⟨⟨p, k₁⟩, hmade, hnone⟩ := Option.map_eq_some_iff.mp hmade
  have hzone : ¬ SameZone (0 + 1) 0 := fun h => absurd h.1 (by decide)
  exact ⟨k₀, p, k₁, hinit, hmade, Option.isNone_iff_eq_none.mp hnone, hzone, fun h => hzone h.1⟩

end Scalux.Kmem
