import Mathlib.Data.Nat.Notation
import Mathlib.Data.List.Basic
import Mathlib.Logic.Function.Basic
import Scalux.Lib.Partial

/-! # Doubly linked lists in a typed memory

A memory maps addresses to nodes, and a node has the addresses of the one before it and of the one after it, with
0 where there is none.  What a node has besides is determined by the element that it is the node of.

* **`Linked`**: the nodes of a list, from the node before it to the node after it.
* **`linked_append`**: a list in two parts.  **`Linked.setAfter`**, **`Linked.setBefore`**: the last node is
  given another one after it, or the first node another one before it.
* **`Linked.find`**: an element by its address.
* **`modify`**: an assignment to the node at an address that may be 0, with **`Linked.modifyLast`** and
  **`Linked.modifyFirst`**. -/

namespace Scalux

variable {α ν : Type*}

/-- The first address, or else the one after the list. -/
def firstOr (addr : α → ℕ) (after : ℕ) : List α → ℕ
  | [] => after
  | a :: _ => addr a

/-- The last address, or else the one before the list. -/
def lastOr (addr : α → ℕ) (before : ℕ) : List α → ℕ
  | [] => before
  | a :: l => lastOr addr (addr a) l

/-- **The nodes of a list**, with the addresses before it and after it: `mk` makes the node of an element of the
addresses before and after that. -/
def Linked (mk : ℕ → ℕ → α → ν) (addr : α → ℕ) (get : ℕ → Option ν) : ℕ → List α → ℕ → Prop
  | _, [], _ => True
  | p, a :: l, q => get (addr a) = some (mk p (firstOr addr q l) a) ∧ Linked mk addr get (addr a) l q

variable {mk : ℕ → ℕ → α → ν} {addr : α → ℕ} {get get' : ℕ → Option ν} {p q p' q' : ℕ} {a : α} {l l' : List α}

/-- The first of two lists one after the other. -/
theorem firstOr_append (addr : α → ℕ) (q : ℕ) (l l' : List α) :
    firstOr addr q (l ++ l') = firstOr addr (firstOr addr q l') l := by
  cases l <;> rfl

/-- The last of two lists one after the other. -/
theorem lastOr_append (addr : α → ℕ) (p : ℕ) (l l' : List α) :
    lastOr addr p (l ++ l') = lastOr addr (lastOr addr p l) l' := by
  induction l generalizing p with
  | nil => rfl
  | cons a l ih => exact ih (addr a)

/-- The last of a list with a last element. -/
@[simp] theorem lastOr_concat (addr : α → ℕ) (p : ℕ) (l : List α) (a : α) : lastOr addr p (l ++ [a]) = addr a := by
  rw [lastOr_append]
  rfl

/-- Two lists one after the other are linked if each is, up to the first of the second and from the last of the
first. -/
theorem linked_append (p q : ℕ) (l l' : List α) :
    Linked mk addr get p (l ++ l') q
      ↔ Linked mk addr get p l (firstOr addr q l') ∧ Linked mk addr get (lastOr addr p l) l' q := by
  induction l generalizing p with
  | nil => exact (and_iff_right trivial).symm
  | cons a l ih =>
      rw [List.cons_append, Linked, Linked, firstOr_append, ih, and_assoc]
      rfl

/-- A list depends on the nodes of its elements only. -/
theorem Linked.congr (h : Linked mk addr get p l q) (hget : ∀ a ∈ l, get' (addr a) = get (addr a)) :
    Linked mk addr get' p l q := by
  induction l generalizing p with
  | nil => trivial
  | cons a l ih =>
      exact ⟨(hget a (List.mem_cons_self ..)).trans h.1, ih h.2 fun b hb => hget b (List.mem_cons_of_mem a hb)⟩

/-- The last node is given another one after it. -/
theorem Linked.setAfter (h : Linked mk addr get p (l ++ [a]) q) (ha : addr a ∉ l.map addr) :
    Linked mk addr (Function.update get (addr a) (some (mk (lastOr addr p l) q' a))) p (l ++ [a]) q' := by
  rw [linked_append] at h ⊢
  refine ⟨h.1.congr fun b hb => Function.update_of_ne (fun heq : addr b = addr a => ha ?_) ..,
    Function.update_self .., trivial⟩
  exact heq ▸ List.mem_map_of_mem hb

/-- The first node is given another one before it. -/
theorem Linked.setBefore (h : Linked mk addr get p (a :: l) q) (ha : addr a ∉ l.map addr) :
    Linked mk addr (Function.update get (addr a) (some (mk p' (firstOr addr q l) a))) p' (a :: l) q :=
  ⟨Function.update_self .., h.2.congr fun _ hb =>
    Function.update_of_ne (fun heq : addr _ = addr a => ha (heq ▸ List.mem_map_of_mem hb)) ..⟩

/-- The node of an element. -/
theorem Linked.find (h : Linked mk addr get p (l ++ a :: l') q) :
    get (addr a) = some (mk (lastOr addr p l) (firstOr addr q l') a) :=
  ((linked_append p q l (a :: l')).mp h).2.1

/-- An element is exchanged for another one at its address. -/
theorem Linked.replace (h : Linked mk addr get p (l ++ a :: l') q) (ha : addr a ∉ (l ++ l').map addr) {b : α}
    (hb : addr b = addr a) :
    Linked mk addr (Function.update get (addr a) (some (mk (lastOr addr p l) (firstOr addr q l') b))) p (l ++ b :: l')
      q := by
  rw [List.map_append, List.mem_append, not_or] at ha
  rw [linked_append] at h ⊢
  have hfirst : firstOr addr q (b :: l') = firstOr addr q (a :: l') := hb
  have hne {l : List α} (hl : addr a ∉ l.map addr) : ∀ c ∈ l, addr c ≠ addr a :=
    fun c hc heq => hl (heq ▸ List.mem_map_of_mem hc)
  refine ⟨?_, ?_, ?_⟩
  · rw [hfirst]
    exact h.1.congr fun c hc => Function.update_of_ne (hne ha.1 c hc) ..
  · rw [hb]
    exact Function.update_self ..
  · rw [hb]
    exact h.2.2.congr fun c hc => Function.update_of_ne (hne ha.2 c hc) ..

/-- An assignment to the node at an address, if that is not 0. -/
def modify (get : ℕ → Option ν) (a : ℕ) (f : ν → ν) : Option (ℕ → Option ν) :=
  if a = 0 then some get else (get a).map fun v => Function.update get a (some (f v))

/-- The last node, if there is one, is given another one after it. -/
theorem Linked.modifyLast (h : Linked mk addr get 0 l q) (hpos : ∀ a ∈ l, addr a ≠ 0) (hnodup : (l.map addr).Nodup)
    {f : ν → ν} (hf : ∀ p a, f (mk p q a) = mk p q' a) :
    Ends (fun get' => Linked mk addr get' 0 l q' ∧ ∀ x, x ∉ l.map addr → get' x = get x)
      (modify get (lastOr addr 0 l) f) := by
  obtain rfl | ⟨l, a, rfl⟩ := l.eq_nil_or_concat'
  · exact .some ⟨trivial, fun _ _ => rfl⟩
  · have hfind := h.find
    rw [List.map_append, List.nodup_append] at hnodup
    have ha : addr a ∉ l.map addr := fun hmem => hnodup.2.2 _ hmem _ (List.mem_singleton_self _) rfl
    unfold modify
    rw [lastOr_concat, if_neg (hpos a (by simp)), hfind, Option.map_some, firstOr, hf]
    refine .some ⟨h.setAfter ha, fun x hx => Function.update_of_ne ?_ ..⟩
    rintro rfl
    exact hx (by simp)

/-- The first node, if there is one, is given another one before it. -/
theorem Linked.modifyFirst (h : Linked mk addr get p l 0) (hpos : ∀ a ∈ l, addr a ≠ 0) (hnodup : (l.map addr).Nodup)
    {f : ν → ν} (hf : ∀ q a, f (mk p q a) = mk p' q a) :
    Ends (fun get' => Linked mk addr get' p' l 0 ∧ ∀ x, x ∉ l.map addr → get' x = get x)
      (modify get (firstOr addr 0 l) f) := by
  cases l with
  | nil => exact .some ⟨trivial, fun _ _ => rfl⟩
  | cons a l =>
      unfold modify
      rw [firstOr, if_neg (hpos a (List.mem_cons_self ..)), h.1, Option.map_some, hf]
      refine .some ⟨h.setBefore (List.nodup_cons.mp hnodup).1, fun x hx => Function.update_of_ne ?_ ..⟩
      rintro rfl
      exact hx (List.mem_cons_self ..)

/-- An element is taken out, when the nodes around it have been changed. -/
theorem Linked.cut (hl : Linked mk addr get p l (firstOr addr q l'))
    (hl' : Linked mk addr get (lastOr addr p l) l' q) : Linked mk addr get p (l ++ l') q :=
  (linked_append p q l l').mpr ⟨hl, hl'⟩

end Scalux
