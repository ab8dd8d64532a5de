import Mathlib.Data.Nat.Notation
import Mathlib.Data.Option.Basic

/-! # Partial programs over two states

A program is a function to an `Option`, which is `none` where it has no meaning.  A concrete program does what an
abstract one does, if it has a result related to that of the abstract program wherever that has one.

* **`Follows`**: a result that is related to another one, if there is one.
* **`Ends`**: a result that has a property.
* **`times`**, **`loopDown`**: loops, with the rules for them and for sequences.
* **`bind_eq_ok`**, **`bind_ne_error`**: a call after another, when a failure is a value. -/

namespace Scalux

variable {β γ β' γ' ι : Type*}

/-! ## Loops -/

/-- A program, a number of times. -/
def times (f : β → Option β) : ℕ → β → Option β
  | 0, b => some b
  | n + 1, b => (f b).bind (times f n)

/-- A program for each number, from one down to another and with a bound on the rounds: `next` is the number
below. -/
def loopDown (next : ℕ → ℕ) (f : ℕ → β → Option β) (stop : ℕ) : ℕ → ℕ → β → Option β
  | 0, _, _ => none
  | fuel + 1, i, b => (f i b).bind fun b => if i = stop then some b else loopDown next f stop fuel (next i) b

/-! ## Results -/

/-- **A result follows another**: if there is the second one, there is the first, and they are related. -/
def Follows (R : β → γ → Prop) (b : Option β) (c : Option γ) : Prop := ∀ z, c = some z → ∃ w, b = some w ∧ R w z

variable {R : β → γ → Prop} {Q : β' → γ' → Prop} {b : β} {c : γ}

namespace Follows

/-- Results that are there, and related. -/
theorem some (h : R b c) : Follows R (some b) (some c) := by
  rintro z ⟨⟩
  exact ⟨b, rfl, h⟩

/-- Anything follows a program that has no result. -/
theorem none {w : Option β} : Follows R w none := nofun

/-- A program follows itself. -/
theorem refl (w : Option β) : Follows Eq w w := fun z hz => ⟨z, hz, rfl⟩

/-- One program after another. -/
theorem bind {w : Option β} {z : Option γ} (h : Follows R w z) {f : β → Option β'} {g : γ → Option γ'}
    (hfg : ∀ b c, R b c → Follows Q (f b) (g c)) : Follows Q (w.bind f) (z.bind g) := by
  intro z' hz'
  obtain ⟨z₁, hz₁, hg⟩ := Option.bind_eq_some_iff.mp hz'
  obtain ⟨w₁, rfl, hR⟩ := h z₁ hz₁
  exact hfg w₁ z₁ hR z' hg

/-- A value made of each result. -/
theorem map {w : Option β} {z : Option γ} (h : Follows R w z) {f : β → β'} {g : γ → γ'}
    (hfg : ∀ b c, R b c → Q (f b) (g c)) : Follows Q (w.map f) (z.map g) := by
  rw [Option.map_eq_bind, Option.map_eq_bind]
  exact h.bind fun b c hR => some (hfg b c hR)

/-- A choice that both programs make. -/
theorem ite {p : Prop} [Decidable p] {w w' : Option β} {z z' : Option γ} (h : Follows R w z)
    (h' : Follows R w' z') : Follows R (if p then w else w') (if p then z else z') := by
  split
  · exact h
  · exact h'

/-- A loop over a list. -/
theorem foldlM {f : β → ι → Option β} {g : γ → ι → Option γ}
    (hfg : ∀ i b c, R b c → Follows R (f b i) (g c i)) (l : List ι) (h : R b c) :
    Follows R (l.foldlM f b) (l.foldlM g c) := by
  induction l generalizing b c with
  | nil => exact some h
  | cons i l ih =>
      rw [List.foldlM_cons, List.foldlM_cons]
      exact (hfg i b c h).bind fun _ _ h => ih h

/-- A number of rounds: each does what the other does. -/
theorem times {f : β → Option β} {g : γ → Option γ} (hfg : ∀ b c, R b c → Follows R (f b) (g c)) (n : ℕ)
    (h : R b c) : Follows R (times f n b) (times g n c) := by
  induction n generalizing b c with
  | zero => exact some h
  | succ n ih => exact (hfg b c h).bind fun _ _ h => ih h

/-- A loop down to a number, by its rounds. -/
theorem loopDown {next : ℕ → ℕ} {f : ℕ → β → Option β} {g : ℕ → γ → Option γ}
    (hfg : ∀ i b c, R b c → Follows R (f i b) (g i c)) (stop fuel i : ℕ) (h : R b c) :
    Follows R (loopDown next f stop fuel i b) (loopDown next g stop fuel i c) := by
  induction fuel generalizing i b c with
  | zero => exact none
  | succ fuel ih => exact (hfg i b c h).bind fun _ _ h => ite (some h) (ih (next i) h)

end Follows

/-- A result that is the same. -/
theorem Follows.eq {w z : Option β} (h : Follows Eq w z) (hz : z = Option.some b) : w = Option.some b := by
  obtain ⟨w', hw, rfl⟩ := h b hz
  exact hw

/-! ## Results with a property -/

/-- **There is a result**, and it has a property. -/
def Ends (P : β → Prop) (b : Option β) : Prop := ∃ w, b = some w ∧ P w

variable {P P' : β → Prop} {P'' : β' → Prop} {w w' : Option β}

namespace Ends

/-- A result that has the property. -/
theorem some (h : P b) : Ends P (some b) := ⟨b, rfl, h⟩

/-- The result has the property, whatever it is found to be. -/
theorem of_eq (h : Ends P w) (hw : w = Option.some b) : P b := by
  obtain ⟨b', hb', hP⟩ := h
  exact Option.some.inj (hb'.symm.trans hw) ▸ hP

/-- A weaker property: `P b → P' b`. -/
theorem mono (h : Ends P w) (hP : ∀ b, P b → P' b) : Ends P' w := by
  obtain ⟨b, rfl, hb⟩ := h
  exact some (hP b hb)

/-- One program after another. -/
theorem bind (h : Ends P w) {f : β → Option β'} (hf : ∀ b, P b → Ends P'' (f b)) : Ends P'' (w.bind f) := by
  obtain ⟨b, rfl, hb⟩ := h
  exact hf b hb

/-- A value made of the result. -/
theorem map (h : Ends P w) {f : β → β'} (hf : ∀ b, P b → P'' (f b)) : Ends P'' (w.map f) := by
  obtain ⟨b, rfl, hb⟩ := h
  exact some (hf b hb)

/-- A choice, with what is known in each case. -/
theorem ite {p : Prop} [Decidable p] (h : p → Ends P w) (h' : ¬ p → Ends P w') : Ends P (if p then w else w') := by
  split
  · next hp => exact h hp
  · next hp => exact h' hp

/-- A loop keeps what its body keeps. -/
theorem foldlM {f : β → ι → Option β} {l : List ι} (hf : ∀ i ∈ l, ∀ b, P b → Ends P (f b i)) (h : P b) :
    Ends P (l.foldlM f b) := by
  induction l generalizing b with
  | nil => exact some h
  | cons i l ih =>
      rw [List.foldlM_cons]
      exact (hf i (List.mem_cons_self ..) b h).bind fun _ h => ih (fun j hj => hf j (List.mem_cons_of_mem i hj)) h

/-- A number of times, with a property for each round. -/
theorem times {I : ℕ → β → Prop} {f : β → Option β} {n m : ℕ} (hf : ∀ k b, k < n + m → I k b → Ends (I (k + 1)) (f b))
    (h : I m b) : Ends (I (n + m)) (times f n b) := by
  induction n generalizing b m with
  | zero =>
      rw [Nat.zero_add]
      exact some h
  | succ n ih =>
      refine (hf m b (by omega) h).bind fun b h => ?_
      rw [Nat.add_right_comm, Nat.add_assoc]
      exact ih (fun k b hk => hf k b (by omega)) h

/-- Down to a number that is not above the first one. -/
theorem loopDown {next : ℕ → ℕ} {f : ℕ → β → Option β} {stop fuel i : ℕ} (hf : ∀ i b, P b → Ends P (f i b))
    (hnext : ∀ j, stop < j → j ≤ i → next j = j - 1) (hstop : stop ≤ i) (hfuel : i < fuel + stop) (h : P b) :
    Ends P (loopDown next f stop fuel i b) := by
  induction fuel generalizing i b with
  | zero => omega
  | succ fuel ih =>
      refine (hf i b h).bind fun b h => ite (fun _ => some h) fun hne => ?_
      rw [hnext i (by omega) (Nat.le_refl i)]
      exact ih (fun j hj hle => hnext j hj (by omega)) (by omega) (by omega) h

end Ends

/-! ## Calls that may fail -/

section Calls

variable {ε α β : Type} {x : Except ε α} {b : β} {e : ε}

/-- A call after another returns only if both do. -/
theorem bind_eq_ok {f : α → Except ε β} : x.bind f = .ok b ↔ ∃ a, x = .ok a ∧ f a = .ok b := by
  cases x with
  | error e => exact iff_of_false (fun h => nomatch h) fun ⟨_, h, _⟩ => nomatch h
  | ok a => exact ⟨fun h => ⟨a, rfl, h⟩, fun ⟨_, ha, h⟩ => Except.ok.inj ha ▸ h⟩

/-- A value made of what a call returns. -/
theorem map_eq_ok {f : α → β} : x.map f = .ok b ↔ ∃ a, x = .ok a ∧ f a = b := by
  cases x with
  | error e => exact iff_of_false (fun h => nomatch h) fun ⟨_, h, _⟩ => nomatch h
  | ok a => exact ⟨fun h => ⟨a, rfl, Except.ok.inj h⟩, fun ⟨_, ha, h⟩ => by rw [← h, Except.ok.inj ha]; rfl⟩

/-- A failure that neither call has. -/
theorem bind_ne_error {f : α → Except ε β} (hx : x ≠ .error e) (hf : ∀ a, x = .ok a → f a ≠ .error e) :
    x.bind f ≠ .error e := by
  cases x with
  | error e' => exact fun h => hx (congrArg _ (Except.error.inj h))
  | ok a => exact hf a rfl

/-- A failure that the call does not have. -/
theorem map_ne_error {f : α → β} (hx : x ≠ .error e) : x.map f ≠ .error e := by
  cases x with
  | error e' => exact fun h => hx (congrArg _ (Except.error.inj h))
  | ok a => exact nofun

end Calls

end Scalux
