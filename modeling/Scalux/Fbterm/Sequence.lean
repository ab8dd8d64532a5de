import Mathlib.Data.List.GetD
import Scalux.Fbterm.Term

/-! # The parameters of a control sequence

An escape character, `[`, numbers with `;` between them and a last byte: `term_control_sequence_parse` has the
numbers in `esc_values` when it comes to the last byte, each as a `uint32_t` and no more than there is room for.

* **`Params`**: what has been read, and **`Params.next`**, which reads a byte.
* **`all_foldl_next`**: what is read of numbers with `;` between them.
* **`sequence_parses`**: what is done at the last byte. -/

namespace Scalux.Fbterm

/-- The parameters that are complete, and the one whose digits are being read. -/
structure Params where
  done : List UInt32
  current : Option UInt32

/-- A digit. -/
def IsDigit (c : Char) : Prop := '0' ≤ c ∧ c ≤ '9'

instance (c : Char) : Decidable (IsDigit c) := inferInstanceAs (Decidable (_ ∧ _))

namespace Params

variable {p : Params} {c : Char} {d : List Char} {ds : List (List Char)} {vs : List UInt32} {v : UInt32}

/-- All parameters so far. -/
def all (p : Params) : List UInt32 := p.done ++ p.current.toList

/-- There is room for the parameters. -/
structure Ok (p : Params) : Prop where
  done : p.done.length ≤ maxEscValues
  current : p.current ≠ none → p.done.length < maxEscValues

/-- A digit, or a `;`. -/
def next (p : Params) (c : Char) : Params :=
  if IsDigit c then
    if p.done.length = maxEscValues then p
    else ⟨p.done, some (p.current.getD 0 * 10 + UInt32.ofNat (c.toNat - 48))⟩
  else match p.current with
    | some v => ⟨p.done ++ [v], none⟩
    | none => if p.done.length = maxEscValues then p else ⟨p.done ++ [0], none⟩

/-- One character more leaves the parameters within their bound. -/
theorem Ok.next (h : p.Ok) (c : Char) : (p.next c).Ok := by
  obtain ⟨vs, current⟩ := p
  have hdone := h.done
  unfold Params.next
  split
  · split
    · exact h
    · exact ⟨hdone, fun _ => by dsimp only at *; omega⟩
  -- a semicolon closes the number begun, or enters a 0 for an empty one
  · cases current with
    | some v =>
        have hlt := h.current nofun
        refine ⟨?_, nofun⟩
        rw [List.length_append]
        exact hlt
    | none =>
        dsimp only
        split
        · exact h
        · refine ⟨?_, nofun⟩
          rw [List.length_append, List.length_singleton]
          dsimp only at *
          omega

/-- The number that digits make. -/
def value (d : List Char) : UInt32 := UInt32.ofNat (Nat.ofDigitChars 10 d 0)

/-- The parameters that are given: a last one without digits is none. -/
def given : List (List Char) → List UInt32
  | [] => []
  | [d] => if d = [] then [] else [value d]
  | d :: ds => value d :: given ds

/-- The digits of a number, read one after another: `Nat.ofDigitChars 10 d n`, modulo `2 ^ 32`. -/
theorem foldl_digits (hlt : vs.length < maxEscValues) (n : ℕ) (hd : ∀ c ∈ d, IsDigit c) :
    d.foldl next ⟨vs, some (UInt32.ofNat n)⟩ = ⟨vs, some (UInt32.ofNat (Nat.ofDigitChars 10 d n))⟩ := by
  induction d generalizing n with
  | nil => rw [Nat.ofDigitChars_nil, List.foldl_nil]
  | cons c d ih =>
      have hnext : next ⟨vs, some (UInt32.ofNat n)⟩ c
          = ⟨vs, some (UInt32.ofNat (10 * n + (c.toNat - '0'.toNat)))⟩ := by
        unfold next
        rw [if_pos (hd c (List.mem_cons_self ..)), if_neg hlt.ne, Option.getD_some, UInt32.ofNat_add, UInt32.ofNat_mul,
          UInt32.mul_comm]
        rfl
      rw [List.foldl_cons, hnext, Nat.ofDigitChars_cons]
      exact ih _ fun e he => hd e (List.mem_cons_of_mem c he)

/-- Digits, where there is room for a parameter. -/
theorem foldl_digits_of_lt (hlt : vs.length < maxEscValues) (hd : ∀ c ∈ d, IsDigit c) :
    d.foldl next ⟨vs, none⟩ = ⟨vs, if d = [] then none else some (value d)⟩ := by
  cases d with
  | nil => rfl
  | cons c d =>
      have hnext : next ⟨vs, none⟩ c = ⟨vs, some (UInt32.ofNat (10 * 0 + (c.toNat - '0'.toNat)))⟩ := by
        unfold next
        rw [if_pos (hd c (List.mem_cons_self ..)), if_neg hlt.ne, Option.getD_none, UInt32.ofNat_add, UInt32.ofNat_mul,
          UInt32.mul_comm]
        rfl
      rw [List.foldl_cons, hnext, if_neg (List.cons_ne_nil c d), value, Nat.ofDigitChars_cons]
      exact foldl_digits hlt _ fun e he => hd e (List.mem_cons_of_mem c he)

/-- Digits, where there is none. -/
theorem foldl_digits_of_eq (heq : vs.length = maxEscValues) (hd : ∀ c ∈ d, IsDigit c) :
    d.foldl next ⟨vs, none⟩ = ⟨vs, none⟩ := by
  induction d with
  | nil => rfl
  | cons c d ih =>
      rw [List.foldl_cons, next, if_pos (hd c (List.mem_cons_self ..)), if_pos heq]
      exact ih fun e he => hd e (List.mem_cons_of_mem c he)

/-- **What is read** are the numbers that are given, as far as there is room. -/
theorem all_foldl_next (hle : vs.length ≤ maxEscValues) (hds : ∀ d ∈ ds, ∀ c ∈ d, IsDigit c) :
    (([';'].intercalate ds).foldl next ⟨vs, none⟩).all = (vs ++ given ds).take maxEscValues := by
  -- by the numbers still to be read, `vs` are those read so far
  induction ds generalizing vs with
  | nil =>
      rw [List.intercalate_nil, List.foldl_nil, given, List.append_nil, List.take_of_length_le hle]
      exact List.append_nil vs
  | cons d ds ih =>
      have hd := hds d (List.mem_cons_self ..)
      have hrest : ∀ d ∈ ds, ∀ c ∈ d, IsDigit c := fun e he => hds e (List.mem_cons_of_mem d he)
      obtain hlt | heq := hle.lt_or_eq
      · cases ds with
        | nil =>
            rw [List.intercalate_singleton, foldl_digits_of_lt hlt hd, given]
            split
            · rw [List.append_nil, List.take_of_length_le hle]
              exact List.append_nil vs
            · rw [List.take_of_length_le (by rw [List.length_append]; exact hlt)]
              rfl
        | cons d' ds =>
            have hnext : next ⟨vs, if d = [] then none else some (value d)⟩ ';' = ⟨vs ++ [value d], none⟩ := by
              unfold next
              rw [if_neg (by decide)]
              by_cases hd : d = []
              · subst hd
                rw [if_pos rfl]
                dsimp only
                rw [if_neg hlt.ne]
                rfl
              · rw [if_neg hd]
            rw [List.intercalate_cons_cons, List.foldl_append, List.foldl_append, foldl_digits_of_lt hlt hd,
              List.foldl_cons, List.foldl_nil, hnext, ih (by rw [List.length_append]; exact hlt) hrest,
              List.append_assoc]
            rfl
      -- sixteen are read: the rest of the sequence is ignored
      · have hfull (ws : List UInt32) : (vs ++ ws).take maxEscValues = vs := by
          rw [← heq, List.take_left]
        cases ds with
        | nil =>
            rw [List.intercalate_singleton, foldl_digits_of_eq heq hd, hfull]
            exact List.append_nil vs
        | cons d' ds =>
            have hnext : next ⟨vs, none⟩ ';' = ⟨vs, none⟩ := by
              unfold next
              rw [if_neg (by decide)]
              dsimp only
              rw [if_pos heq]
            rw [List.intercalate_cons_cons, List.foldl_append, List.foldl_append, foldl_digits_of_eq heq hd,
              List.foldl_cons, List.foldl_nil, hnext, ih hle hrest, hfull, hfull]

end Params

/-! ## The terminal -/

/-- The context when parameters have been read, with the number of bytes. -/
def TermContext.reading (p : Params) (n : ℕ) (priv : Bool) (k : TermContext) : TermContext :=
  { k with
    escape := true
    controlSequence := true
    escapeOffset := n
    decPrivate := priv
    rrr := p.current.isSome
    escValuesI := p.done.length
    escValues := fun i => p.all.getD i 0 }

/-- Between sequences, and nothing to discard. -/
structure TermContext.Ground (k : TermContext) : Prop where
  discardNext : k.discardNext = false
  escape : k.escape = false
  controlSequence : k.controlSequence = false
  csi : k.csi = false
  gSelect : k.gSelect = 0
  decPrivate : k.decPrivate = false

namespace Term

variable {β : Type*} {B : Backend β} {S : Setup} {t : Term β} {p : Params} {c : Char} {n : ℕ} {priv : Bool}

/-- The parameters with one more, or with the last one changed. -/
theorem update_getD (vs : List UInt32) (current : Option UInt32) (v : UInt32) :
    Function.update (fun i => (vs ++ current.toList).getD i 0) vs.length v = fun i => (vs ++ [v]).getD i 0 := by
  funext i
  obtain hlt | rfl | hgt := Nat.lt_trichotomy i vs.length
  · rw [Function.update_of_ne hlt.ne, List.getD_append _ _ _ _ hlt, List.getD_append _ _ _ _ hlt]
  · rw [Function.update_self, List.getD_append_right _ _ _ _ le_rfl, Nat.sub_self]
    rfl
  · have hshort : (vs ++ current.toList).length ≤ i := by
      rw [List.length_append]
      have hle : current.toList.length ≤ 1 := by cases current <;> simp
      omega
    rw [Function.update_of_ne hgt.ne', List.getD_eq_default _ _ hshort,
      List.getD_eq_default _ _ (by rw [List.length_append]; exact hgt)]

/-- The number that is being read is the one behind those that have been. -/
theorem getD_current (vs : List UInt32) (current : Option UInt32) :
    (vs ++ current.toList).getD vs.length 0 = current.getD 0 := by
  rw [List.getD_append_right _ _ _ _ le_rfl, Nat.sub_self]
  cases current <;> rfl

/-- What `term_putchar` does with a byte of a control sequence. -/
theorem putchar_reading (hdiscard : t.context.discardNext = false) (hc : c ≠ '\x18' ∧ c ≠ '\x1a') :
    (t.set (TermContext.reading p n priv)).putchar B S c
      = (t.set (TermContext.reading p (add64 n 1) priv)).controlSequenceParse B S c := by
  unfold Term.putchar Term.escapeParse
  rw [if_neg, if_pos, if_pos]
  · rfl
  · rfl
  · rfl
  · rintro (hd | ⟨-, hd⟩)
    · exact absurd (hd.symm.trans hdiscard) (by decide)
    · exact hd.elim hc.1 hc.2

/-- A digit. -/
theorem digit_reading (hp : p.Ok) (hc : IsDigit c) :
    (t.set (TermContext.reading p n priv)).digit c = some (t.set (TermContext.reading (p.next c) n priv)) := by
  obtain ⟨vs, current⟩ := p
  have hle := hp.done
  unfold Params.next
  rw [if_pos hc]
  dsimp only
  by_cases heq : vs.length = maxEscValues
  · rw [if_pos heq]
    exact if_pos heq
  · rw [if_neg heq, ← getD_current]
    refine (if_neg heq).trans ((if_pos (lt_of_le_of_ne hle heq)).trans ?_)
    simp only [Term.set, TermContext.reading, Params.all, update_getD]
    rfl

/-- The end of a parameter. -/
theorem emptyValue_reading {vs : List UInt32} (hp : Params.Ok ⟨vs, none⟩) :
    (t.set (TermContext.reading ⟨vs, none⟩ n priv)).emptyValue
      = some (t.set (TermContext.reading (Params.next ⟨vs, none⟩ ';') n priv)) := by
  have hle := hp.done
  unfold Params.next
  rw [if_neg (by decide)]
  dsimp only
  by_cases heq : vs.length = maxEscValues
  · rw [if_pos heq]
    exact if_pos heq
  · rw [if_neg heq]
    refine (if_neg heq).trans ((if_pos (lt_of_le_of_ne hle heq)).trans ?_)
    simp only [Term.set, TermContext.reading, Params.all, update_getD, List.length_append]
    rw [Option.toList_none, List.append_nil]
    rfl

/-- **A byte of the parameters**. -/
theorem putchar_next (hdiscard : t.context.discardNext = false) (hp : p.Ok) (hc : IsDigit c ∨ c = ';') :
    (t.set (TermContext.reading p n priv)).putchar B S c
      = some (t.set (TermContext.reading (p.next c) (add64 n 1) priv)) := by
  have hne (c' : Char) (hc' : ¬ IsDigit c' ∧ c' ≠ ';') : c ≠ c' := by
    rintro rfl
    exact hc.elim hc'.1 hc'.2
  rw [putchar_reading hdiscard ⟨hne _ (by decide), hne _ (by decide)⟩]
  unfold Term.controlSequenceParse
  rw [if_neg fun h => hne _ (by decide) h.2, if_neg fun h => hne _ (by decide) h.2]
  by_cases hdigit : IsDigit c
  · exact (if_pos hdigit).trans (digit_reading hp hdigit)
  · obtain rfl := hc.resolve_left hdigit
    refine (if_neg hdigit).trans ?_
    obtain ⟨vs, _ | v⟩ := p
    · exact (if_neg Bool.false_ne_true).trans ((if_pos rfl).trans (emptyValue_reading hp))
    · refine (if_pos rfl).trans ((if_pos rfl).trans ?_)
      unfold Params.next
      rw [if_neg hdigit]
      simp only [Term.set, TermContext.reading, Params.all, List.length_append]
      rw [Option.toList_none, List.append_nil]
      rfl

/-- Digits and semicolons are read into the parameters, a character after the other. -/
theorem putchars_next (hdiscard : t.context.discardNext = false) (hp : p.Ok) {s : List Char}
    (hs : ∀ c ∈ s, IsDigit c ∨ c = ';') :
    (s.foldl Params.next p).Ok ∧
      ∃ m, (t.set (TermContext.reading p n priv)).putchars B S s
        = some (t.set (TermContext.reading (s.foldl Params.next p) m priv)) := by
  induction s generalizing p n with
  | nil => exact ⟨hp, n, rfl⟩
  | cons c s ih =>
      obtain ⟨hok, m, hrest⟩ := ih (n := add64 n 1) (hp.next c) fun d hd => hs d (List.mem_cons_of_mem c hd)
      refine ⟨hok, m, ?_⟩
      unfold Term.putchars at hrest ⊢
      rw [List.foldlM_cons, putchar_next hdiscard hp (hs c (List.mem_cons_self ..))]
      exact hrest

/-- **The last byte**. -/
theorem putchar_last (hdiscard : t.context.discardNext = false) (hdigit : ¬ IsDigit c)
    (hc : c ∉ [';', '[', '?', '\x18', '\x1a']) :
    (t.set (TermContext.reading p n priv)).putchar B S c
      = (t.set (TermContext.reading ⟨p.all, none⟩ (add64 n 1) priv)).carryOut B S c := by
  simp only [List.mem_cons, List.not_mem_nil, or_false, not_or] at hc
  obtain ⟨hsemi, hbracket, hquestion, hcan, hsub⟩ := hc
  rw [putchar_reading hdiscard ⟨hcan, hsub⟩]
  unfold Term.controlSequenceParse
  rw [if_neg fun h => hbracket h.2, if_neg fun h => hquestion h.2]
  refine (if_neg hdigit).trans ?_
  obtain ⟨vs, _ | v⟩ := p
  · refine (if_neg Bool.false_ne_true).trans ((if_neg hsemi).trans ?_)
    simp only [Term.set, TermContext.reading, Params.all, Option.toList_none, List.append_nil]
  · refine (if_pos rfl).trans ((if_neg hsemi).trans ?_)
    simp only [Term.set, TermContext.reading, Params.all, List.length_append, Option.toList_none, List.append_nil]
    rfl

/-- The start of a sequence. -/
theorem putchars_start (h : t.context.Ground) (priv : Bool) :
    ∃ n, t.putchars B S ('\x1b' :: '[' :: if priv then ['?'] else [])
      = some (t.set (TermContext.reading ⟨[], none⟩ n priv)) := by
  -- escape and bracket begin the sequence, a question mark makes it private
  have hescape : t.putchar B S '\x1b' = some (t.set fun k => { k with escapeOffset := 0, escape := true }) := by
    unfold Term.putchar
    rw [h.discardNext, h.escape, h.gSelect]
    simp [character]
  have hbracket : (t.set fun k => { k with escapeOffset := 0, escape := true }).putchar B S '['
      = some (t.set (TermContext.reading ⟨[], none⟩ 1 false)) := by
    unfold Term.putchar Term.escapeParse
    simp only [set_context, h.discardNext, h.controlSequence, h.csi]
    simp [beginSequence, Term.set, TermContext.reading, Params.all, h.decPrivate, add64]
  cases priv with
  | false =>
      refine ⟨1, ?_⟩
      unfold Term.putchars
      rw [List.foldlM_cons, hescape]
      exact (congrArg (Option.bind · some) hbracket).trans rfl
  | true =>
      refine ⟨2, ?_⟩
      unfold Term.putchars
      rw [List.foldlM_cons, hescape]
      show ((t.set _).putchar B S '[').bind _ = _
      rw [hbracket]
      show ((t.set _).putchar B S '?').bind _ = _
      rw [putchar_reading h.discardNext (by decide)]
      rfl

end Term

/-- A control sequence, up to its last byte. -/
theorem putchars_sequence {β : Type*} (B : Backend β) (S : Setup) {t : Term β} (hground : t.context.Ground)
    (priv : Bool) {ds : List (List Char)} (hds : ∀ d ∈ ds, ∀ c ∈ d, IsDigit c) {c : Char} (hdigit : ¬ IsDigit c)
    (hc : c ∉ [';', '[', '?', '\x18', '\x1a']) :
    ∃ n, t.putchars B S (('\x1b' :: '[' :: if priv then ['?'] else []) ++ [';'].intercalate ds ++ [c])
      = (t.set (TermContext.reading ⟨(Params.given ds).take maxEscValues, none⟩ n priv)).carryOut B S c := by
  obtain ⟨n, hstart⟩ := Term.putchars_start (B := B) (S := S) hground priv
  -- between the introducer and the final character there are digits and semicolons only
  have hbytes : ∀ e ∈ [';'].intercalate ds, IsDigit e ∨ e = ';' := by
    induction ds with
    | nil => exact nofun
    | cons d ds ih =>
        have hd := hds d (List.mem_cons_self ..)
        have hrest := ih fun e he => hds e (List.mem_cons_of_mem d he)
        cases ds with
        | nil =>
            rw [List.intercalate_singleton]
            exact fun e he => .inl (hd e he)
        | cons d' ds =>
            rw [List.intercalate_cons_cons]
            intro e he
            obtain he | he := List.mem_append.mp he
            · obtain he | he := List.mem_append.mp he
              · exact .inl (hd e he)
              · exact .inr (List.mem_singleton.mp he)
            · exact hrest e he
  have hempty : Params.Ok ⟨[], none⟩ := ⟨Nat.zero_le _, nofun⟩
  obtain ⟨m, hrest⟩ : ∃ m, (t.set (TermContext.reading ⟨[], none⟩ n priv)).putchars B S ([';'].intercalate ds)
      = some (t.set (TermContext.reading (([';'].intercalate ds).foldl Params.next ⟨[], none⟩) m priv)) :=
    (Term.putchars_next hground.discardNext hempty hbytes).2
  refine ⟨add64 m 1, ?_⟩
  have hall : (([';'].intercalate ds).foldl Params.next ⟨[], none⟩).all = ([] ++ Params.given ds).take maxEscValues :=
    Params.all_foldl_next (Nat.zero_le _) hds
  rw [List.nil_append] at hall
  unfold Term.putchars at hstart hrest ⊢
  rw [List.foldlM_append, List.foldlM_append, hstart]
  show Option.bind (List.foldlM _ _ _) _ = _
  rw [hrest, ← hall]
  show Option.bind (Term.putchar B S c _) some = _
  rw [Option.bind_fun_some, Term.putchar_last hground.discardNext hdigit hc]

/-! ## Numbers -/

/-- Numbers in a control sequence. -/
def numbers (ns : List ℕ) : List Char := [';'].intercalate (ns.map (Nat.toDigits 10))

/-- The digits of decimal numbers are digits. -/
theorem isDigit_toDigits (ns : List ℕ) : ∀ d ∈ ns.map (Nat.toDigits 10), ∀ c ∈ d, IsDigit c := by
  intro d hd c hc
  obtain ⟨n, -, rfl⟩ := List.mem_map.mp hd
  have hdigit := Nat.isDigit_of_mem_toDigits (by decide) (by decide) hc
  rw [Char.isDigit, Bool.and_eq_true, decide_eq_true_eq, decide_eq_true_eq] at hdigit
  exact hdigit

/-- The decimal texts of numbers stand for these, modulo `2 ^ 32`. -/
theorem given_toDigits (ns : List ℕ) : Params.given (ns.map (Nat.toDigits 10)) = ns.map UInt32.ofNat := by
  have hvalue (n : ℕ) : Params.value (Nat.toDigits 10 n) = UInt32.ofNat n := by
    rw [Params.value, Nat.ofDigitChars_ten_toDigits]
  induction ns with
  | nil => rfl
  | cons n ns ih =>
      cases ns with
      | nil => rw [List.map_singleton, Params.given, if_neg Nat.toDigits_ne_nil, hvalue, List.map_singleton]
      | cons n' ns => exact congrArg₂ List.cons (hvalue n) ih

/-- **A control sequence is parsed**: at the last byte its parameters are the numbers in it, modulo `2 ^ 32` and up to
`MAX_ESC_VALUES` of them. -/
theorem sequence_parses {β : Type*} (B : Backend β) (S : Setup) {t : Term β} (hground : t.context.Ground)
    (priv : Bool) (ns : List ℕ) {c : Char} (hdigit : ¬ IsDigit c) (hc : c ∉ [';', '[', '?', '\x18', '\x1a']) :
    ∃ n, t.putchars B S (('\x1b' :: '[' :: if priv then ['?'] else []) ++ numbers ns ++ [c])
      = (t.set (TermContext.reading ⟨(ns.map UInt32.ofNat).take maxEscValues, none⟩ n priv)).carryOut B S c := by
  rw [← given_toDigits]
  exact putchars_sequence B S hground priv (isDigit_toDigits ns) hdigit hc

/-- `ESC [ ? 4294967297 ; 7 h` on a terminal that has been set up. -/
theorem sequence_parses_two :
    let S := gtermSetup ⟨24, 100, 96⟩ ⟨7, 8, 1, 1, 1⟩ ⟨fun _ => 0, fun _ => 0, 0, 0⟩ (fun _ => false) fun _ => 0
    let t := Term.initial S false (Gterm.blank S fun _ => 0)
    ∃ n, t.putchars S.vbe S (('\x1b' :: '[' :: if true then ['?'] else []) ++ numbers [2 ^ 32 + 1, 7] ++ ['h'])
      = (t.set (TermContext.reading ⟨([2 ^ 32 + 1, 7].map UInt32.ofNat).take maxEscValues, none⟩ n true)).carryOut
          S.vbe S 'h' :=
  sequence_parses _ _ ⟨rfl, rfl, rfl, rfl, rfl, rfl⟩ true [2 ^ 32 + 1, 7] (by decide) (by decide)

/-! ## The position of the cursor -/

/-- The position that a parameter stands for: the one before, as numbers begin with 1, and at most the last. -/
theorem Term.position_eq {limit : ℕ} (hpos : 0 < limit) (hlt : limit < 2 ^ 64) (v : UInt32) :
    position v limit = min (v - 1).toNat (limit - 1) := by
  have hv := (v - 1).toNat_lt
  unfold position
  rw [decr64_eq hpos hlt]
  split
  · rw [Nat.mod_eq_of_lt (by omega)]
    omega
  · omega

/-- The cursor is put at a position of the screen while scrolling is disabled. -/
theorem GtermContext.setCursorPos_quiet {S : Setup} {x y : ℕ} (hx : x < S.cols) (hy : y < S.rows) (k : GtermContext) :
    (if k.scrollEnabled then (k.scrollDisable.setCursorPos S x y).scrollEnable
      else k.scrollDisable.setCursorPos S x y) = k.moveCursor x y := by
  have hclamp {n limit : ℕ} (hlt : n < limit) : clamp n limit = n := if_neg hlt.not_ge
  unfold setCursorPos
  rw [hclamp hx, hclamp hy]
  obtain ⟨_, _, _, _, _, _ | _, _, _, _, _⟩ := k <;> rfl

/-- **The cursor is put where a sequence says**, for any numbers: the first row and column are 1, what is beyond the
last ones is in these, and so is what is 0 modulo `2 ^ 32`.  The text stays as it is. -/
theorem cursor_position {S : Setup} (hS : S.Sized) {t : Term Screen} (hground : t.context.Ground) (row col : ℕ) :
    ∃ t', t.putchars S.page S (('\x1b' :: '[' :: if false then ['?'] else []) ++ numbers [row, col] ++ ['H'])
        = some t' ∧
      t'.backend = ⟨t.backend.context.moveCursor (min (UInt32.ofNat col - 1).toNat (S.cols - 1))
        (min (UInt32.ofNat row - 1).toNat (S.rows - 1)), t.backend.text⟩ ∧ t'.context.Ground := by
  have hcols := hS.cols_pos
  have hrows := hS.rows_pos
  obtain ⟨n, hseq⟩ := putchars_sequence S.page S hground false (isDigit_toDigits [row, col]) (c := 'H') (by decide)
    (by decide)
  rw [given_toDigits] at hseq
  set u := (t.set (TermContext.reading ⟨([row, col].map UInt32.ofNat).take maxEscValues, none⟩ n false)).fill 'H'
  -- scrolling is switched off around the move and on again if it was on
  have hcarry : (t.set (TermContext.reading ⟨([row, col].map UInt32.ofNat).take maxEscValues, none⟩ n false)).carryOut
      S.page S 'H' = some (if t.backend.context.scrollEnabled then
        (((u.apply S.page .scrollDisable).setCursorPos S.page (Term.position (UInt32.ofNat col) S.cols)
          (Term.position (UInt32.ofNat row) S.rows)).apply S.page .scrollEnable)
      else (u.apply S.page .scrollDisable).setCursorPos S.page (Term.position (UInt32.ofNat col) S.cols)
          (Term.position (UInt32.ofNat row) S.rows)).cleanup := rfl
  have hcol : Term.position (UInt32.ofNat col) S.cols < S.cols := by
    rw [Term.position_eq hcols hS.cols_lt]
    omega
  have hrow : Term.position (UInt32.ofNat row) S.rows < S.rows := by
    rw [Term.position_eq hrows hS.rows_lt]
    omega
  refine ⟨_, hseq.trans hcarry, ?_, ?_⟩
  · rw [← Term.position_eq hcols hS.cols_lt, ← Term.position_eq hrows hS.rows_lt,
      ← GtermContext.setCursorPos_quiet hcol hrow]
    unfold Term.cleanup
    split <;> rfl
  · split <;> exact ⟨hground.discardNext, rfl, rfl, hground.csi, hground.gSelect, rfl⟩

/-- Row 9 and column 2 of a terminal of three lines. -/
theorem cursor_position_small :
    let S := gtermSetup ⟨24, 100, 96⟩ ⟨7, 8, 1, 1, 1⟩ ⟨fun _ => 0, fun _ => 0, 0, 0⟩ (fun _ => false) fun _ => 0
    let t := Term.initial S false (Screen.initial S)
    ∃ t', t.putchars S.page S (('\x1b' :: '[' :: if false then ['?'] else []) ++ numbers [9, 2] ++ ['H']) = some t' ∧
      t'.backend = ⟨t.backend.context.moveCursor (min (UInt32.ofNat 2 - 1).toNat (S.cols - 1))
        (min (UInt32.ofNat 9 - 1).toNat (S.rows - 1)), t.backend.text⟩ ∧ t'.context.Ground :=
  have hfits : Fits ⟨24, 100, 96⟩ ⟨7, 8, 1, 1, 1⟩ ⟨fun _ => 0, fun _ => 0, 0, 0⟩ :=
    ⟨by decide, by decide, by decide, by decide, by decide⟩
  cursor_position (gtermSetup_wellFormed hfits (fun _ => false) fun _ => 0).sized ⟨rfl, rfl, rfl, rfl, rfl, rfl⟩ 9 2

end Scalux.Fbterm
