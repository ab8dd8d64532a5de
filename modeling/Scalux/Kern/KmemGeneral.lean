import Scalux.Kern.KmemRun
import Scalux.Lib.Bytes

/-! # General-purpose allocation

`kmem_alloc`, `kmem_free`, `kmem_realloc` and the functions on strings of `kern/kmem_slab.c`.  A size of up
to 4096 bytes has one of 32 zones, and a larger one is a number of pages.

* Pages that are released may be returned by `vm_kalloc` again.  `none` stands for a failed assertion too.
* The bytes of callers are in the words of the memory (`Scalux.Lib.Bytes`).

* **`zonenum_spec`**: the zone of a size is the least one that has room for it. -/

namespace Scalux.Kmem

/-! ## The functions -/

/-- `zonenum`.  The size 0 has no zone either. -/
def zonenum (size : ℕ) : ℤ :=
  if size ≤ 64 then (roundUp size 8 / 8 : ℕ) - 1
  else if size ≤ 128 then (roundUp (size - 64) 16 / 16 : ℕ) + 7
  else if size ≤ 256 then (roundUp (size - 128) 32 / 32 : ℕ) + 11
  else if size ≤ 512 then (roundUp (size - 256) 64 / 64 : ℕ) + 15
  else if size ≤ 1024 then (roundUp (size - 512) 128 / 128 : ℕ) + 19
  else if size ≤ 2048 then (roundUp (size - 1024) 256 / 256 : ℕ) + 23
  else if size ≤ 4096 then (roundUp (size - 2048) 512 / 512 : ℕ) + 27
  else -1

/-- `kmem_alloc_zones[i]`. -/
def kmemAllocZones (i : ℤ) : ZoneId := i.toNat + 2

/-- The number of pages of a size. -/
def npages (size : ℕ) : ℕ := pgRoundUp size / pgSize

/-- `vm_kfree`. -/
def vmKfree (addr npages : ℕ) (k : Allocator) : Option Allocator :=
  if k.runs.contains (addr, npages * pgSize) then
    some { k with runs := k.runs.erase (addr, npages * pgSize) }
  else none

/-- `kmem_alloc`. -/
def kmemAlloc (depth size : ℕ) (k : Allocator) : Option (ℕ × Allocator) :=
  if size = 0 then none
  else if zonenum size = -1 then vmKalloc (npages size) k
  else kmemZonealloc depth (kmemAllocZones (zonenum size)) k

/-- `kmem_free`. -/
def kmemFree (ptr size : ℕ) (k : Allocator) : Option Allocator :=
  if size = 0 then none
  else if zonenum size = -1 then vmKfree ptr (npages size) k
  else kmemZonefree (kmemAllocZones (zonenum size)) ptr k

/-- `memcpy`. -/
def memcpy (dst src n : ℕ) (k : Allocator) : Allocator :=
  { k with mem := storeBytes k.mem dst (loadBytes k.mem src n) }

/-- `kmem_realloc`. -/
def kmemRealloc (depth ptr oldSize size : ℕ) (k : Allocator) : Option (ℕ × Allocator) := do
  let (ret, k) ← kmemAlloc depth size k
  if ptr ≠ 0 then
    if oldSize = 0 ∨ size ≤ oldSize then none
    else
      let k ← kmemFree ptr oldSize (memcpy ret ptr oldSize k)
      return (ret, k)
  else return (ret, k)

/-- `strlen`, of a string that ends within a number of bytes. -/
def strlen (mem : ℕ → ℕ) : ℕ → ℕ → Option ℕ
  | 0, _ => none
  | n + 1, p => if byteAt mem p = 0 then some 0 else (strlen mem n (p + 1)).map (· + 1)

/-- `kmem_vasprintf`, where `npf_vsnprintf` makes the string `str`. -/
def kmemVasprintf (depth : ℕ) (str : List ℕ) (k : Allocator) : Option (ℕ × Allocator) := do
  let (strp, k) ← kmemAlloc depth (str.length + 1) k
  return (strp, { k with mem := storeBytes k.mem strp (str ++ [0]) })

/-- `kmem_strfree`. -/
def kmemStrfree (str : ℕ) (k : Allocator) : Option Allocator := do
  let len ← strlen k.mem (2 ^ 64) str
  kmemFree str len k

/-! ## The zone of a size -/

variable {size i : ℕ}

/-- One of the ranges of `zonenum`: sizes above `lo`, in steps of `gran = 2 ^ k`, with `m` zones from `off` on. -/
theorem zone_of_range (lo gran m k : ℕ) (off : ℤ) (hpow : gran = 2 ^ k) (htop : lo + gran * m ≤ 4096)
    (hlo : lo < size) (hhi : size ≤ lo + gran * m)
    (hzones : ∀ q ≤ m, 0 < q → 0 ≤ q + off ∧ zoneSizes[(q + off).toNat]? = some (lo + gran * q) ∧
      ∀ c ∈ zoneSizes, lo + gran * (q - 1) < c → lo + gran * q ≤ c) :
    let n := ((roundUp (size - lo) gran / gran : ℕ) : ℤ) + off
    0 ≤ n ∧ ∃ c, zoneSizes[n.toNat]? = some c ∧ size ≤ c ∧ ∀ c' ∈ zoneSizes, size ≤ c' → c ≤ c' := by
  have hgran : 0 < gran := hpow ▸ Nat.two_pow_pos k
  have hm : 0 < m := Nat.pos_of_ne_zero fun h => by
    rw [h] at hhi
    omega
  have hle : gran ≤ gran * m := Nat.le_mul_of_pos_right gran hm
  have hk : k ≤ 12 := (Nat.pow_le_pow_iff_right (a := 2) (by decide)).mp (hpow ▸ (by omega : gran ≤ 4096))
  -- The mask is a rounding, and the sum does not wrap.
  have hround : roundUp (size - lo) gran / gran = (size - lo + gran - 1) / gran := by
    rw [hpow, roundUp_eq _ (by omega), ← hpow, Nat.mul_div_cancel _ hgran, Nat.mod_eq_of_lt (by omega),
      Nat.add_sub_assoc hgran]
  generalize hq : (size - lo + gran - 1) / gran = q at hround
  -- `size` is above the zone before the one with the number `q`, and not above this one
  have hmul : gran * q ≤ size - lo + gran - 1 := hq ▸ Nat.mul_div_le _ _
  have hlt : size - lo + gran - 1 < gran * (q + 1) := hq ▸ Nat.lt_mul_div_succ _ hgran
  rw [Nat.mul_succ] at hlt
  have hpos : 0 < q := by
    rcases Nat.eq_zero_or_pos q with rfl | hpos
    · omega
    · exact hpos
  have hqm : q ≤ m := by
    refine Nat.le_of_lt_succ (Nat.lt_of_mul_lt_mul_left (a := gran) ?_)
    rw [Nat.mul_succ]
    omega
  obtain ⟨hnonneg, hget, hleast⟩ := hzones q hqm hpos
  have hprev : gran * (q - 1) = gran * q - gran := Nat.mul_sub_one gran q
  rw [hround]
  exact ⟨hnonneg, _, hget, by omega, fun c' hc' hle => hleast c' hc' (by omega)⟩

/-- **The zone of a size** is the least one that has room for it. -/
theorem zonenum_spec (hpos : 0 < size) (hle : size ≤ 4096) :
    0 ≤ zonenum size ∧ ∃ c, zoneSizes[(zonenum size).toNat]? = some c ∧ size ≤ c ∧
      ∀ c' ∈ zoneSizes, size ≤ c' → c ≤ c' := by
  unfold zonenum
  split_ifs with h₁ h₂ h₃ h₄ h₅ h₆
  · exact zone_of_range 0 8 8 3 (-1) rfl (by decide) hpos h₁ (by decide)
  · exact zone_of_range 64 16 4 4 7 rfl (by decide) (Nat.not_le.mp h₁) h₂ (by decide)
  · exact zone_of_range 128 32 4 5 11 rfl (by decide) (Nat.not_le.mp h₂) h₃ (by decide)
  · exact zone_of_range 256 64 4 6 15 rfl (by decide) (Nat.not_le.mp h₃) h₄ (by decide)
  · exact zone_of_range 512 128 4 7 19 rfl (by decide) (Nat.not_le.mp h₄) h₅ (by decide)
  · exact zone_of_range 1024 256 4 8 23 rfl (by decide) (Nat.not_le.mp h₅) h₆ (by decide)
  · exact zone_of_range 2048 512 4 9 27 rfl (by decide) (Nat.not_le.mp h₆) hle (by decide)

/-- Above 4096 there is no zone. -/
theorem zonenum_eq_neg_one (hlt : 4096 < size) : zonenum size = -1 := by
  unfold zonenum
  split_ifs <;> omega

end Scalux.Kmem
