import Scalux.Lib.Scan
import Mathlib.Data.List.Pairwise
import Mathlib.Tactic.Linarith

/-! # Lists of intervals under span markers

A list of half-open intervals in which some elements are **markers**: a marker opens a span, and the
elements up to the next marker lie in that span in ascending order.  How tightly they do is a
relation `r` between the end of one interval and the start of the next: with `r` equality the
intervals tile the span, with `r` the order `≤` they are disjoint and may leave gaps.  Both are scans
with the same transitions, and the editing lemmas hold for every such `r` (`IsGap`).

* **`Tiles.split`**, **`Tiles.edit`**: the end of the list may be replaced as long as it fits the state before it.
* **`Tiles.merge`**, **`Tiles.drop`**, **`Tiles.insertSpan`**, **`Tiles.removeSpan`**: joining two
  neighbours, dropping one (only where gaps are allowed), opening and closing a span.
* **`Tiles.pairwise`**, **`Tiles.inside`**: intervals are in ascending order, each in a span. -/

namespace Scalux

/-- How the elements of a list are read as intervals below `top`. -/
structure Scale (α : Type*) where
  /-- The element opens a span. -/
  mark : α → Bool
  base : α → ℕ
  size : α → ℕ
  /-- The address after the last one. -/
  top : ℕ

/-- The relation from the end of an interval to the start of the next: equality, or any relation
inside `≤` that shares these properties with it. -/
structure IsGap (r : ℕ → ℕ → Prop) : Prop where
  refl : ∀ a, r a a
  trans : ∀ {a b c}, r a b → r b c → r a c
  add : ∀ {a b} c, r a b → r (a + c) (b + c)
  le : ∀ {a b}, r a b → a ≤ b

/-- No gaps. -/
theorem isGap_eq : IsGap (· = ·) where
  refl _ := rfl
  trans := Eq.trans
  add c h := by rw [h]
  le := le_of_eq

/-- Any gaps. -/
theorem isGap_le : IsGap (· ≤ ·) where
  refl := le_refl
  trans := le_trans
  add c h := Nat.add_le_add_right h c
  le := id

namespace Scale

variable {α : Type*} (S : Scale α) (r : ℕ → ℕ → Prop)

/-- The end of an interval. -/
def fin (a : α) : ℕ := S.base a + S.size a

/-- The scan: its state is the end of the last interval and the end of the open span. -/
def tile : Scan (ℕ × ℕ) α where
  next s a := if S.mark a then (S.base a, S.fin a) else (S.fin a, s.2)
  ok s a :=
    if S.mark a then r s.1 s.2 ∧ s.2 ≤ S.base a ∧ 0 < S.size a ∧ S.size a < S.top ∧ S.fin a ≤ S.top
    else r s.1 (S.base a) ∧ 0 < S.size a
  done s := r s.1 s.2

theorem tile_next (s : ℕ × ℕ) (a : α) : (S.tile r).next s a
    = if S.mark a then (S.base a, S.fin a) else (S.fin a, s.2) := rfl

theorem tile_ok (s : ℕ × ℕ) (a : α) : (S.tile r).ok s a
    = if S.mark a then
        r s.1 s.2 ∧ s.2 ≤ S.base a ∧ 0 < S.size a ∧ S.size a < S.top ∧ S.fin a ≤ S.top
      else r s.1 (S.base a) ∧ 0 < S.size a := rfl

/-- The list continues a span that is filled up to `p` and ends at `h`. -/
def Tiles (p h : ℕ) (l : List α) : Prop := (S.tile r).Accepts (p, h) l

variable {S r} {p q h : ℕ} {a b : α} {l m : List α}

/-- A marker closes the open span and opens its own. -/
theorem tiles_mark (ha : S.mark a = true) : S.Tiles r p h (a :: l) ↔
    (r p h ∧ h ≤ S.base a ∧ 0 < S.size a ∧ S.size a < S.top ∧ S.fin a ≤ S.top) ∧
      S.Tiles r (S.base a) (S.fin a) l := by
  rw [Tiles, Scan.accepts_cons, tile_ok, tile_next, if_pos ha, if_pos ha]
  rfl

/-- An interval fills the open span up to its end. -/
theorem tiles_cons (ha : S.mark a = false) : S.Tiles r p h (a :: l) ↔
    (r p (S.base a) ∧ 0 < S.size a) ∧ S.Tiles r (S.fin a) h l := by
  rw [Tiles, Scan.accepts_cons, tile_ok, tile_next, ha, if_neg Bool.false_ne_true,
    if_neg Bool.false_ne_true]
  rfl

/-- Every element has a positive size. -/
theorem Tiles.size_pos (ht : S.Tiles r p h l) : ∀ a ∈ l, 0 < S.size a := by
  induction l generalizing p h with
  | nil => exact fun a ha => by cases ha
  | cons c l ih =>
      intro a ha
      cases hc : S.mark c with
      | true =>
          obtain ⟨⟨-, -, hpos, -⟩, hrest⟩ := (tiles_mark hc).mp ht
          exact (List.mem_cons.mp ha).elim (fun heq => heq ▸ hpos) (ih hrest a)
      | false =>
          obtain ⟨⟨-, hpos⟩, hrest⟩ := (tiles_cons hc).mp ht
          exact (List.mem_cons.mp ha).elim (fun heq => heq ▸ hpos) (ih hrest a)

/-- The spans are shorter than `top` and end at or below it. -/
theorem Tiles.span_le_top (ht : S.Tiles r p h l) :
    ∀ a ∈ l, S.mark a = true → S.size a < S.top ∧ S.fin a ≤ S.top := by
  induction l generalizing p h with
  | nil => exact fun a ha => by cases ha
  | cons c l ih =>
      intro a ha hmark
      cases hc : S.mark c with
      | true =>
          obtain ⟨⟨-, -, -, htop⟩, hrest⟩ := (tiles_mark hc).mp ht
          exact (List.mem_cons.mp ha).elim (fun heq => heq ▸ htop) (fun ha => ih hrest a ha hmark)
      | false =>
          rcases List.mem_cons.mp ha with rfl | ha
          · rw [hc] at hmark
            cases hmark
          · exact ih ((tiles_cons hc).mp ht).2 a ha hmark

section Gap

variable (hr : IsGap r)
include hr

/-- The open span may be filled less far, as far as `r` allows. -/
theorem Tiles.lower (hpq : r p q) (ht : S.Tiles r q h l) : S.Tiles r p h l := by
  cases l with
  | nil => exact hr.trans hpq ht
  | cons a l =>
      cases ha : S.mark a with
      | true =>
          rw [tiles_mark ha] at ht ⊢
          exact ⟨⟨hr.trans hpq ht.1.1, ht.1.2⟩, ht.2⟩
      | false =>
          rw [tiles_cons ha] at ht ⊢
          exact ⟨⟨hr.trans hpq ht.1.1, ht.1.2⟩, ht.2⟩

/-- A span is not filled beyond its end. -/
theorem Tiles.le (ht : S.Tiles r p h l) : p ≤ h := by
  induction l generalizing p with
  | nil => exact hr.le ht
  | cons a l ih =>
      cases ha : S.mark a with
      | true => exact hr.le ((tiles_mark ha).mp ht).1.1
      | false =>
          obtain ⟨⟨hgap, -⟩, hrest⟩ := (tiles_cons ha).mp ht
          have := hr.le hgap
          have := ih hrest
          simp only [fin] at this
          omega

/-- Every element begins at or after the point filled so far. -/
theorem Tiles.le_base (ht : S.Tiles r p h l) : ∀ a ∈ l, p ≤ S.base a := by
  induction l generalizing p h with
  | nil => exact fun a ha => by cases ha
  | cons b l ih =>
      have hph := ht.le hr
      -- a mark starts a new stretch at its base, a part is at or behind the position
      cases hb : S.mark b with
      | true =>
          obtain ⟨⟨-, hle, -⟩, hrest⟩ := (tiles_mark hb).mp ht
          intro a ha
          rcases List.mem_cons.mp ha with rfl | ha
          · omega
          · have := ih hrest a ha
            omega
      | false =>
          obtain ⟨⟨hgap, -⟩, hrest⟩ := (tiles_cons hb).mp ht
          have := hr.le hgap
          intro a ha
          rcases List.mem_cons.mp ha with rfl | ha
          · exact this
          · have := ih hrest a ha
            simp only [fin] at this
            omega

/-- **Order.** What follows an interval begins at or after its end. -/
theorem Tiles.pairwise (ht : S.Tiles r p h l) :
    l.Pairwise fun a b => S.mark a = false → S.fin a ≤ S.base b := by
  induction l generalizing p h with
  | nil => exact List.Pairwise.nil
  | cons a l ih =>
      cases ha : S.mark a with
      | true =>
          refine List.Pairwise.cons (fun b _ hf => ?_) (ih ((tiles_mark ha).mp ht).2)
          rw [ha] at hf
          cases hf
      | false =>
          have hrest := ((tiles_cons ha).mp ht).2
          exact List.Pairwise.cons (fun b hb _ => hrest.le_base hr b hb) (ih hrest)

/-- **Place.** Every interval lies in the open span or in one that a marker of the list opens. -/
theorem Tiles.inside (ht : S.Tiles r p h l) : ∀ a ∈ l, S.mark a = false →
    (p ≤ S.base a ∧ S.fin a ≤ h) ∨
      ∃ b ∈ l, S.mark b = true ∧ S.base b ≤ S.base a ∧ S.fin a ≤ S.fin b := by
  induction l generalizing p h with
  | nil => exact fun a ha => by cases ha
  | cons c l ih =>
      intro a ha hmark
      -- what follows a mark is inside it or inside a later one
      cases hc : S.mark c with
      | true =>
          right
          have hrest := ((tiles_mark hc).mp ht).2
          rcases List.mem_cons.mp ha with rfl | ha
          · rw [hc] at hmark
            cases hmark
          · rcases ih hrest a ha hmark with hin | ⟨b, hb, hin⟩
            · exact ⟨c, List.mem_cons_self, hc, hin⟩
            · exact ⟨b, List.mem_cons_of_mem c hb, hin⟩
      | false =>
          obtain ⟨⟨hgap, -⟩, hrest⟩ := (tiles_cons hc).mp ht
          have := hr.le hgap
          rcases List.mem_cons.mp ha with rfl | ha
          · exact .inl ⟨this, hrest.le hr⟩
          · rcases ih hrest a ha hmark with ⟨hlo, hhi⟩ | ⟨b, hb, hin⟩
            · left
              simp only [fin] at hlo hhi ⊢
              omega
            · exact .inr ⟨b, List.mem_cons_of_mem c hb, hin⟩

/-- Every interval of a list that starts with no span open lies in a span of the list. -/
theorem Tiles.inside_zero (ht : S.Tiles r 0 0 l) (ha : a ∈ l) (hmark : S.mark a = false)
    (hpos : 0 < S.size a) :
    ∃ b ∈ l, S.mark b = true ∧ S.base b ≤ S.base a ∧ S.fin a ≤ S.fin b := by
  rcases ht.inside hr a ha hmark with ⟨-, hhi⟩ | hin
  · simp only [fin] at hhi
    omega
  · exact hin

/-- **Split.** Where a list of intervals is split, an open span that is filled up to `p` and ends at
`h` is continued by the end of the list, and could be continued by another. -/
theorem Tiles.split (htop : 0 < S.top) (ht : S.Tiles r 0 0 (l ++ m)) :
    ∃ p h, p ≤ h ∧ h ≤ S.top ∧ h < p + S.top ∧ S.Tiles r p h m ∧
      ∀ m', S.Tiles r p h m' → S.Tiles r 0 0 (l ++ m') := by
  -- along the list the position never passes the top
  have hbound := Scan.Accepts.invariant (P := fun s : ℕ × ℕ => s.2 ≤ S.top ∧ s.2 < s.1 + S.top) ht
    ⟨Nat.zero_le _, by simpa using htop⟩ (by
      intro s hs a _ hok
      rw [tile_ok] at hok
      rw [tile_next]
      cases ha : S.mark a with
      | true =>
          rw [ha, if_pos rfl] at hok
          obtain ⟨-, -, -, hsize, hfin⟩ := hok
          rw [if_pos rfl]
          exact ⟨hfin, Nat.add_lt_add_left hsize _⟩
      | false =>
          rw [ha, if_neg Bool.false_ne_true] at hok
          have := hr.le hok.1
          rw [if_neg Bool.false_ne_true]
          simp only [fin]
          omega)
  have hm : S.Tiles r ((S.tile r).after (0, 0) l).1 ((S.tile r).after (0, 0) l).2 m :=
    Scan.Accepts.right ht
  exact ⟨_, _, hm.le hr, hbound.1, hbound.2, hm, fun m' hm' => Scan.Accepts.splice ht fun _ => hm'⟩

/-- **Edit.** The end of a list may be replaced by one that continues the same span. -/
theorem Tiles.edit {m' : List α} (htop : 0 < S.top) (ht : S.Tiles r 0 0 (l ++ m))
    (hm : ∀ p h, p ≤ h → h ≤ S.top → h < p + S.top → S.Tiles r p h m → S.Tiles r p h m') :
    S.Tiles r 0 0 (l ++ m') := by
  obtain ⟨p, h, hph, hle, hlt, hrest, hcont⟩ := ht.split hr htop
  exact hcont m' (hm p h hph hle hlt hrest)

/-- Two neighbouring intervals are joined; a gap between them moves behind the joined one. -/
theorem Tiles.merge {c : α} (ha : S.mark a = false) (hb : S.mark b = false) (hc : S.mark c = false)
    (hbase : S.base c = S.base a) (hsize : S.size c = S.size a + S.size b)
    (ht : S.Tiles r p h (a :: b :: l)) : S.Tiles r p h (c :: l) := by
  obtain ⟨⟨hgap, hpos⟩, ht⟩ := (tiles_cons ha).mp ht
  obtain ⟨⟨hgap', -⟩, ht⟩ := (tiles_cons hb).mp ht
  refine (tiles_cons hc).mpr ⟨⟨hbase ▸ hgap, by omega⟩, ht.lower hr ?_⟩
  have hend : S.fin c = S.fin a + S.size b := by
    simp only [fin]
    omega
  rw [hend]
  exact hr.add _ hgap'

/-- The joined interval does not reach beyond the second. -/
theorem Tiles.merge_le (ha : S.mark a = false) (hb : S.mark b = false)
    (ht : S.Tiles r p h (a :: b :: l)) :
    p ≤ S.base a ∧ S.fin a ≤ S.base b ∧ S.fin b ≤ h := by
  obtain ⟨⟨hgap, -⟩, ht⟩ := (tiles_cons ha).mp ht
  obtain ⟨⟨hgap', -⟩, ht⟩ := (tiles_cons hb).mp ht
  exact ⟨hr.le hgap, hr.le hgap', ht.le hr⟩

/-- **A span is opened** between two others and filled by one interval. -/
theorem Tiles.insertSpan (ha : S.mark a = true) (hb : S.mark b = false) (hbase : S.base b = S.base a)
    (hsize : S.size b = S.size a) (hpos : 0 < S.size a) (hlt : S.size a < S.top)
    (hfin : S.fin a ≤ S.top) (ht : S.Tiles r 0 0 (l ++ m))
    (hl : ∀ c ∈ l, S.mark c = true → S.fin c ≤ S.base a)
    (hm : ∀ c ∈ m.head?, S.mark c = true ∧ S.fin a ≤ S.base c) :
    S.Tiles r 0 0 (l ++ a :: b :: m) := by
  have hopen := Scan.Accepts.invariant (P := fun s : ℕ × ℕ => s.2 ≤ S.base a) ht (Nat.zero_le _) (by
    intro s hs c hc _
    rw [tile_next]
    cases hmark : S.mark c with
    | true => rw [if_pos rfl]; exact hl c hc hmark
    | false => rw [if_neg Bool.false_ne_true]; exact hs)
  refine Scan.Accepts.splice ht fun hacc => ?_
  have hend : S.fin b = S.fin a := by rw [fin, fin, hbase, hsize]
  refine (tiles_mark ha).mpr ⟨⟨?_, hopen, hpos, hlt, hfin⟩,
    (tiles_cons hb).mpr ⟨⟨hbase ▸ hr.refl _, hsize ▸ hpos⟩, ?_⟩⟩
  · -- what follows closes the span that is open before
    cases m with
    | nil => exact hacc
    | cons c m => exact ((tiles_mark (hm c rfl).1).mp hacc).1.1
  · rw [hend]
    cases m with
    | nil => exact hr.refl _
    | cons c m =>
        obtain ⟨hc, hle⟩ := hm c rfl
        obtain ⟨⟨-, -, hrest⟩, hacc⟩ := (tiles_mark hc).mp hacc
        exact (tiles_mark hc).mpr ⟨⟨hr.refl _, hle, hrest⟩, hacc⟩

/-- What follows an interval that fills its span is a marker: another interval would end beyond it. -/
theorem Tiles.mark_after_full (ha : S.mark a = true) (hb : S.mark b = false)
    (hsize : S.size b = S.size a) (ht : S.Tiles r p h (a :: b :: m)) :
    ∀ c ∈ m.head?, S.mark c = true := by
  obtain ⟨-, ht⟩ := (tiles_mark ha).mp ht
  obtain ⟨⟨hgap, -⟩, ht⟩ := (tiles_cons hb).mp ht
  intro c hc
  obtain ⟨m, rfl⟩ := List.head?_eq_some_iff.mp hc
  by_contra hmark
  rw [Bool.not_eq_true] at hmark
  obtain ⟨⟨hgap', hpos⟩, ht⟩ := (tiles_cons hmark).mp ht
  have hbase := hr.le hgap
  have hbase' := hr.le hgap'
  have hend := ht.le hr
  simp only [fin] at hbase' hend
  omega

/-- **A span is closed** that one interval fills. -/
theorem Tiles.removeSpan (ha : S.mark a = true) (hb : S.mark b = false) (hsize : S.size b = S.size a)
    (ht : S.Tiles r p h (a :: b :: m)) : S.Tiles r p h m := by
  have hnext := ht.mark_after_full hr ha hb hsize
  obtain ⟨⟨hclosed, hle, hpos, -⟩, ht⟩ := (tiles_mark ha).mp ht
  obtain ⟨⟨hgap, -⟩, ht⟩ := (tiles_cons hb).mp ht
  cases m with
  | nil => exact hclosed
  | cons c m =>
      have hc : S.mark c = true := hnext c rfl
      obtain ⟨⟨-, hle', hrest⟩, ht⟩ := (tiles_mark hc).mp ht
      refine (tiles_mark hc).mpr ⟨⟨hclosed, ?_, hrest⟩, ht⟩
      rw [fin] at hle'
      omega

omit hr in
/-- Every span begins at or after the end of the open one. -/
theorem Tiles.le_mark (ht : S.Tiles r p h l) : ∀ a ∈ l, S.mark a = true → h ≤ S.base a := by
  induction l generalizing p h with
  | nil => simp
  | cons c l ih =>
      intro a ha hmark
      cases hc : S.mark c with
      | true =>
          obtain ⟨⟨-, hle, -⟩, hrest⟩ := (tiles_mark hc).mp ht
          rcases List.mem_cons.mp ha with rfl | ha
          · exact hle
          · have := ih hrest a ha hmark
            rw [fin] at this
            omega
      | false =>
          obtain ⟨-, hrest⟩ := (tiles_cons hc).mp ht
          rcases List.mem_cons.mp ha with rfl | ha
          · rw [hc] at hmark
            cases hmark
          · exact ih hrest a ha hmark

omit hr in
/-- The spans are in ascending order. -/
theorem Tiles.marks_pairwise (ht : S.Tiles r p h l) :
    l.Pairwise fun a b => S.mark a = true → S.mark b = true → S.fin a ≤ S.base b := by
  induction l generalizing p h with
  | nil => exact .nil
  | cons c l ih =>
      cases hc : S.mark c with
      | true =>
          obtain ⟨-, hrest⟩ := (tiles_mark hc).mp ht
          exact .cons (fun b hb _ hmark => hrest.le_mark b hb hmark) (ih hrest)
      | false =>
          obtain ⟨-, hrest⟩ := (tiles_cons hc).mp ht
          refine .cons (fun b _ hmark => ?_) (ih hrest)
          rw [hc] at hmark
          cases hmark

end Gap

/-- An interval may be dropped where gaps are allowed. -/
theorem Tiles.drop (ha : S.mark a = false) (ht : S.Tiles (· ≤ ·) p h (a :: l)) :
    S.Tiles (· ≤ ·) p h l := by
  obtain ⟨⟨hgap, -⟩, ht⟩ := (tiles_cons ha).mp ht
  exact ht.lower isGap_le (hgap.trans (Nat.le_add_right _ _))

end Scale

end Scalux
