import Mathlib.Algebra.Group.Nat.Defs
import Mathlib.Data.List.Basic
import Mathlib.Data.Nat.Notation
import Scalux.Lib.Uint64

/-! # The walk over the MADT

`madt_walk` and `parse_ioapics` of `dev/acpi/AcpiPC.m`: the entries of a table that the firmware provides are
behind one another, and each says in a byte how long it is.

* Memory is a function from addresses to bytes; the table is mapped well below the end of the address space.
* The loop ends at an address that is computed from another field of the table by an unsigned subtraction.  A
  table that says that it is shorter than its own header has no entries.
* The callback is a function on any state, which is given the address of an entry.

* **`walk_items`**: a table that is filled by entries is walked entry by entry.
* **`madt_walk_iff`**: the walk ends, unless it reaches an entry that says that it is of no length.
* **`ioapics_made`**: the I/O APICs that are made. -/

namespace Scalux.Madt

/-- `sizeof(acpi_madt_t)`. -/
def sizeofMadt : ℕ := 44

/-- An `acpi_madt_t`: the address of `entries`, `header.length`, and the memory that it is in. -/
structure Table where
  entries : ℕ
  length : ℕ
  mem : ℕ → UInt8
  length_lt : length < 2 ^ 32
  mapped : sizeofMadt ≤ entries ∧ entries + 2 ^ 32 + 2 ^ 8 ≤ 2 ^ 64

namespace Table

variable (t : Table)

/-- `header->length`. -/
def lengthAt (item : ℕ) : ℕ := (t.mem (item + 1)).toNat

/-- `madt->entries + (madt->header.length - sizeof(acpi_madt_t))`. -/
def stop : ℕ := add64 t.entries (sub64 t.length sizeofMadt)

/-- The entries that are behind one another from an address on, of at least the length of a header, fill the
table. -/
def Fills : ℕ → List ℕ → Prop
  | a, [] => a + sizeofMadt = t.entries + t.length
  | a, item :: items => item = a ∧ 2 ≤ t.lengthAt item ∧ Fills (item + t.lengthAt item) items

/-- The addresses that the loop reaches. -/
inductive Reaches : ℕ → Prop
  | entries : Reaches t.entries
  | next {item : ℕ} (h : Reaches item) (hlt : item < t.stop) :
      Reaches ((item + t.lengthAt item) % 2 ^ 64)

end Table

/-- The loop of `madt_walk`, with at most `fuel` evaluations of its condition. -/
def walk {σ : Type*} (t : Table) (callback : σ → ℕ → σ) : ℕ → ℕ → σ → Option σ
  | 0, _, _ => none
  | fuel + 1, item, s =>
      if item < t.stop then walk t callback fuel ((item + t.lengthAt item) % 2 ^ 64) (callback s item)
      else some s

/-- `madt_walk`. -/
def madtWalk {σ : Type*} (t : Table) (callback : σ → ℕ → σ) (fuel : ℕ) (s : σ) : Option σ :=
  walk t callback fuel t.entries s

/-- The number of four bytes, the least first. -/
def load32 (mem : ℕ → UInt8) (a : ℕ) : ℕ :=
  (mem a).toNat + 256 * ((mem (a + 1)).toNat + 256 * ((mem (a + 2)).toNat + 256 * (mem (a + 3)).toNat))

/-- An `IOApic`, by the arguments that it is made with. -/
structure IoApic where
  id : ℕ
  address : ℕ
  gsiBase : ℕ
  deriving DecidableEq

/-- The `acpi_madt_ioapic_t` at an address. -/
def ioapicAt (t : Table) (item : ℕ) : IoApic :=
  ⟨(t.mem (item + 2)).toNat, load32 t.mem (item + 4), load32 t.mem (item + 8)⟩

/-- `parse_ioapics`. -/
def parseIoapics (t : Table) (made : List IoApic) (item : ℕ) : List IoApic :=
  if t.mem item ≠ 1 then made else made ++ [ioapicAt t item]

/-- What `madt_walk` is for. -/
structure WalkOk (t : Table) : Prop where
  ends : ∀ (σ : Type) (callback : σ → ℕ → σ) (s : σ), ∃ fuel s', ∀ k, madtWalk t callback (fuel + k) s = some s'
  /-- The callback is called once for each entry, in order, and each header is in the table. -/
  visits : ∀ items, t.Fills t.entries items →
    (∀ item ∈ items, t.entries ≤ item ∧ item + 2 + sizeofMadt ≤ t.entries + t.length) ∧
      ∀ (σ : Type) (callback : σ → ℕ → σ) (s : σ),
        ∃ fuel, ∀ k, madtWalk t callback (fuel + k) s = some (items.foldl callback s)

variable {t : Table} {item a fuel : ℕ} {items : List ℕ} {σ : Type*} {callback : σ → ℕ → σ} {s s' : σ}

/-! ## The end of the loop -/

/-- **The end of the table**, and no address of a table that is too short. -/
theorem lt_stop_iff (h : t.entries ≤ item) : item < t.stop ↔ item + sizeofMadt < t.entries + t.length := by
  have hlt := t.length_lt
  obtain ⟨hlo, hhi⟩ := t.mapped
  have hsize : sizeofMadt = 44 := rfl
  unfold Table.stop add64 sub64
  rw [hsize] at hlo ⊢
  omega

theorem lengthAt_lt (t : Table) (item : ℕ) : t.lengthAt item < 2 ^ 8 := UInt8.toNat_lt _

/-- The next item. -/
theorem next_eq (hle : t.entries ≤ item) (hlt : item < t.stop) :
    (item + t.lengthAt item) % 2 ^ 64 = item + t.lengthAt item := by
  have hlength := lengthAt_lt t item
  have htable := t.length_lt
  have hmapped := t.mapped.2
  rw [lt_stop_iff hle] at hlt
  exact Nat.mod_eq_of_lt (by omega)

/-- More fuel does not change where the loop ends. -/
theorem walk_mono (h : walk t callback fuel item s = some s') (k : ℕ) :
    walk t callback (fuel + k) item s = some s' := by
  induction fuel generalizing item s with
  | zero => exact nomatch h
  | succ fuel ih =>
      rw [Nat.add_right_comm, walk]
      rw [walk] at h
      by_cases hlt : item < t.stop
      · rw [if_pos hlt] at h ⊢
        exact ih h
      · rw [if_neg hlt] at h ⊢
        exact h

/-! ## Tables that are filled -/

/-- What fills a table does not go beyond it. -/
theorem Table.Fills.le (h : t.Fills a items) : a + sizeofMadt ≤ t.entries + t.length := by
  induction items generalizing a with
  | nil => exact Nat.le_of_eq h
  | cons item items ih =>
      obtain ⟨rfl, -, hrest⟩ := h
      have hle := ih hrest
      omega

/-- The headers are in the table. -/
theorem Table.Fills.header_le (h : t.Fills a items) (ha : t.entries ≤ a) :
    ∀ item ∈ items, t.entries ≤ item ∧ item + 2 + sizeofMadt ≤ t.entries + t.length := by
  induction items generalizing a with
  | nil => exact fun item hitem => absurd hitem List.not_mem_nil
  | cons item items ih =>
      obtain ⟨rfl, htwo, hrest⟩ := h
      intro q hq
      rcases List.mem_cons.mp hq with rfl | hq
      · have hle := hrest.le
        exact ⟨ha, by omega⟩
      · exact ih hrest (by omega) q hq

/-- **A table that is filled** is walked entry by entry. -/
theorem walk_items (h : t.Fills a items) (ha : t.entries ≤ a) :
    walk t callback (items.length + 1) a s = some (items.foldl callback s) := by
  induction items generalizing a s with
  | nil =>
      have hend : ¬ a < t.stop := by
        rw [lt_stop_iff ha, show a + sizeofMadt = t.entries + t.length from h]
        exact Nat.lt_irrefl _
      rw [walk, if_neg hend, List.foldl_nil]
  | cons item items ih =>
      obtain ⟨rfl, htwo, hrest⟩ := h
      have hle := hrest.le
      have hlt : item < t.stop := (lt_stop_iff ha).mpr (by omega)
      rw [List.length_cons, walk, if_pos hlt, next_eq ha hlt, List.foldl_cons]
      exact ih hrest (by omega)

/-! ## The entries that are reached -/

theorem Table.Reaches.le (h : t.Reaches item) : t.entries ≤ item := by
  induction h with
  | entries => exact Nat.le_refl _
  | next _ hlt ih =>
      rw [next_eq ih hlt]
      omega

/-- The walk from the first entry goes on from every address that it reaches. -/
theorem walk_of_reaches (h : t.Reaches item) (hends : ∃ fuel s', walk t callback fuel t.entries s = some s') :
    ∃ fuel s₁ s', walk t callback fuel item s₁ = some s' := by
  induction h with
  | entries =>
      obtain ⟨fuel, s', hwalk⟩ := hends
      exact ⟨fuel, s, s', hwalk⟩
  | @next item _ hlt ih =>
      obtain ⟨fuel, s₁, s', hwalk⟩ := ih
      cases fuel with
      | zero => exact nomatch hwalk
      | succ fuel =>
          rw [walk, if_pos hlt] at hwalk
          exact ⟨fuel, _, s', hwalk⟩

/-- An entry of no length is visited for ever. -/
theorem walk_eq_none (hle : t.entries ≤ item) (hlt : item < t.stop) (hzero : t.lengthAt item = 0) :
    walk t callback fuel item s = none := by
  induction fuel generalizing s with
  | zero => rfl
  | succ fuel ih =>
      rw [walk, if_pos hlt, next_eq hle hlt, hzero, Nat.add_zero]
      exact ih

/-- A walk that reaches no such entry comes nearer to the end. -/
theorem walk_ends (hne : ∀ item, t.Reaches item → item < t.stop → t.lengthAt item ≠ 0) {n : ℕ}
    (h : t.Reaches item) (hn : t.stop - item ≤ n) : ∃ s', walk t callback (n + 1) item s = some s' := by
  -- on the distance to the end, which an entry of some length makes less
  induction n generalizing item s with
  | zero => exact ⟨s, by rw [walk, if_neg (by omega)]⟩
  | succ n ih =>
      by_cases hlt : item < t.stop
      · have hpos := hne item h hlt
        have heq := next_eq h.le hlt
        obtain ⟨s', hs'⟩ := ih (s := callback s item) (h.next hlt) (by omega)
        exact ⟨s', by rw [walk, if_pos hlt, hs']⟩
      · exact ⟨s, by rw [walk, if_neg hlt]⟩

/-- **Exactness.** The walk is as it should be, for every content of the table, unless it reaches an entry that
says that it is of no length. -/
theorem madt_walk_iff (t : Table) :
    WalkOk t ↔ ∀ item, t.Reaches item → item < t.stop → t.lengthAt item ≠ 0 := by
  constructor
  · intro h item hreach hlt hzero
    obtain ⟨fuel, s', hends⟩ := h.ends Unit (fun s _ => s) ()
    obtain ⟨fuel', s₁, s₂, hwalk⟩ := walk_of_reaches hreach ⟨fuel, s', hends 0⟩
    rw [walk_eq_none hreach.le hlt hzero] at hwalk
    exact nomatch hwalk
  · intro hne
    refine ⟨fun σ callback s => ?_, fun items hfills => ⟨hfills.header_le (Nat.le_refl _), ?_⟩⟩
    · obtain ⟨s', hwalk⟩ := walk_ends (s := s) hne .entries (Nat.le_refl _)
      exact ⟨_, s', walk_mono hwalk⟩
    · exact fun σ callback s => ⟨_, walk_mono (walk_items hfills (Nat.le_refl _))⟩

/-- A table of one entry that says that it is of no length. -/
def zeroLength : Table where
  entries := 1000
  length := 46
  mem _ := 0
  length_lt := by decide
  mapped := by decide

/-- The walk over it does not end. -/
theorem madt_walk_zero_length :
    (∀ fuel, madtWalk zeroLength (fun n _ => n + 1) fuel 0 = none) ∧ ¬ WalkOk zeroLength := by
  have hlt : zeroLength.entries < zeroLength.stop := by decide
  refine ⟨fun fuel => walk_eq_none (Nat.le_refl _) hlt rfl, fun h => ?_⟩
  obtain ⟨fuel, s', hends⟩ := h.ends ℕ (fun n _ => n + 1) 0
  exact nomatch (hends 0).symm.trans (walk_eq_none (Nat.le_refl _) hlt rfl)

/-! ## The I/O APICs -/

/-- The I/O APICs that are made for some entries. -/
theorem foldl_parseIoapics (t : Table) (items : List ℕ) (made : List IoApic) :
    items.foldl (parseIoapics t) made = made ++ (items.filter fun item => t.mem item = 1).map (ioapicAt t) := by
  induction items generalizing made with
  | nil => rw [List.foldl_nil, List.filter_nil, List.map_nil, List.append_nil]
  | cons item items ih =>
      rw [List.foldl_cons, ih, parseIoapics, List.filter_cons]
      by_cases htype : t.mem item = 1
      · rw [if_neg (not_not.mpr htype), if_pos (decide_eq_true htype), List.map_cons, List.append_assoc,
          List.singleton_append]
      · rw [if_pos htype, if_neg (by rw [decide_eq_true_eq]; exact htype)]

/-- **One I/O APIC is made for each of their entries**, in order. -/
theorem ioapics_made (h : t.Fills t.entries items) :
    ∃ fuel, madtWalk t (parseIoapics t) fuel [] =
      some ((items.filter fun item => t.mem item = 1).map (ioapicAt t)) := by
  refine ⟨_, (walk_items h (Nat.le_refl _)).trans ?_⟩
  rw [foldl_parseIoapics, List.nil_append]

end Scalux.Madt
