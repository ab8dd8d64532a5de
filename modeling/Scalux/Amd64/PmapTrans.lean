import Scalux.Amd64.PmapRun

/-! # `pmap_trans`

`x86_64/vm.c` walks the tables a second time in `pmap_trans`, which translates an address to a physical
one.  It adds the offset in the page to the result of `pte_get_addr`, which is a `uint64_t *`, so that
the offset counts words and not bytes.

* **`pmapTrans_eq`**: it finds the entry that `pmap_fully_descend` finds, and what it makes of it.
* **`pmap_trans_agrees`**: in every run, which addresses it translates as they are mapped.
* **`pmap_trans_words`**: the second byte of a page is translated to its ninth. -/

namespace Scalux.Pmap

variable {s s₀ s₁ : State} {m : PmapId} {virt o : ℕ} {w phys : BitVec 64} {prot : Prot} {D : Scope}
  {l : List Action}

/-- `virta & 0xFFF`. -/
def pi (virt : ℕ) : ℕ := virt &&& 0xFFF

/-- `pmap_trans`; the sum is of a `uint64_t *` and an `int`. -/
def pmapTrans (s : State) (m : PmapId) (virt : ℕ) : Option (BitVec 64) := do
  let pml4 ← s.pmaps.get? m
  let (pdpte, s) ← pmapDescend s pml4 (pml4i virt) false 0
  if pdpte = 0 then return 0
  else
    let (pde, s) ← pmapDescend s pdpte (pdpti virt) false 0
    if pde = 0 then return 0
    else
      let (pte, s) ← pmapDescend s pde (pdi virt) false 0
      if pte = 0 then return 0
      else if s.mem (entryOf pte (pti virt)) &&& kMMUPresent = 0 then return 0
      else return pteGetAddr (s.mem (entryOf pte (pti virt))) + 8 * BitVec.ofNat 64 (pi virt)

/-- What `pmap_trans` makes of an entry. -/
def translate (w : BitVec 64) (virt : ℕ) : BitVec 64 :=
  if w &&& kMMUPresent = 0 then 0 else pteGetAddr w + 8 * BitVec.ofNat 64 (pi virt)

/-- An absent entry translates to zero. -/
@[simp] theorem translate_zero (virt : ℕ) : translate 0 virt = 0 := if_pos (by decide)

/-! ## The two walks -/

/-- The offset in the page: `virt % pgSize`. -/
theorem pi_eq (virt : ℕ) : pi virt = virt % pgSize := Nat.and_two_pow_sub_one_eq_mod virt 12

/-- **The two walks agree**, in every state: `pmap_trans` uses the entry that `pmap_fully_descend`
finds. -/
theorem pmapTrans_eq (s : State) (m : PmapId) (virt : ℕ) :
    pmapTrans s m virt = (leafPte s m virt).map fun w => translate w virt := by
  unfold pmapTrans leafPte pmapFullyDescend
  cases s.pmaps.get? m with
  | none => rfl
  | some pml4 =>
      simp only [pmapDescend_lookup, Option.bind_eq_bind, Option.bind_some]
      have hnull : some 0 = (some 0).map fun w => translate w virt :=
        congrArg some (translate_zero virt).symm
      -- a missing table on any of the three levels gives 0, which translates to 0
      split
      · exact hnull
      · split
        · exact hnull
        · split
          · exact hnull
          · rename_i hpte
            have hentry : entryOf ((nextTable (s.mem (entryOf _ (pdi virt)))).getD 0) (pti virt) ≠ 0 :=
              Nat.ne_of_gt (Nat.add_pos_left (Nat.pos_of_ne_zero hpte) _)
            simp only [Option.pure_def, Option.map_some, if_neg hentry, translate]
            split
            · rfl
            · rfl

/-! ## Addresses -/

/-- The frame bits of a word are those from bit 12 to bit 51. -/
theorem toNat_pteGetAddr (w : BitVec 64) :
    (pteGetAddr w).toNat = w.toNat / 2 ^ 12 % 2 ^ 40 * 2 ^ 12 := by
  have hmask : kMMUFrame.toNat = (2 ^ 40 - 1) <<< 12 := by decide
  have hshift : w.toNat &&& (2 ^ 40 - 1) <<< 12 = (w.toNat >>> 12 &&& (2 ^ 40 - 1)) <<< 12 := by
    refine Nat.eq_of_testBit_eq fun i => ?_
    rw [Nat.testBit_and, Nat.testBit_shiftLeft, Nat.testBit_shiftLeft, Nat.testBit_and,
      Nat.testBit_shiftRight]
    by_cases hi : i ≥ 12
    · rw [Nat.add_sub_cancel' hi, decide_eq_true hi, Bool.true_and, Bool.true_and]
    · rw [decide_eq_false hi, Bool.false_and, Bool.false_and, Bool.and_false]
  rw [pteGetAddr, BitVec.toNat_and, hmask, hshift, Nat.and_two_pow_sub_one_eq_mod, Nat.shiftLeft_eq,
    Nat.shiftRight_eq_div_pow]

/-- The offset of a page counted in words is the offset counted in bytes for the first byte only. -/
theorem frame_add_eq_iff (haligned : phys.toNat % pgSize = 0) (ho : o < pgSize) :
    pteGetAddr phys + 8 * BitVec.ofNat 64 o = phys + BitVec.ofNat 64 o ↔
      o = 0 ∧ phys.toNat < 2 ^ 52 := by
  have hlt := phys.isLt
  have height : (8 : BitVec 64).toNat = 8 := rfl
  unfold pgSize at ho haligned
  rw [← BitVec.toNat_inj, BitVec.toNat_add, BitVec.toNat_add, BitVec.toNat_mul,
    toNat_pteGetAddr, BitVec.toNat_ofNat, height]
  omega

/-! ## Histories -/

/-- The pmap and the address that a call maps or unmaps. -/
def Action.target : Action → Option (PmapId × ℕ)
  | .pmapEnter m _ virt _ => some (m, virt)
  | .pmapEnterKern m _ virt _ => some (m, virt)
  | .pmapUnenter m _ vaddr _ => some (m, vaddr)
  | .pmapUnenterKern m vaddr => some (m, vaddr)
  | _ => none

/-- A call is about the page of an address in a pmap: it maps or unmaps the page there or, from entry
255 of the top table on, in any pmap; or it makes the pmap. -/
def Action.About (m : PmapId) (virt : ℕ) (a : Action) : Prop :=
  a = .pmapNew m ∨ ∃ x ∈ a.target, virt / pgSize = x.2 / pgSize ∧ (255 ≤ pml4i x.2 ∨ m = x.1)

/-- A call enters a frame: `pmap_enter` passes the address of its page on to `pmap_enter_kern`. -/
def Action.Enters (phys : BitVec 64) (prot : Prot) : Action → Prop
  | .pmapEnter _ page _ prot' => BitVec.ofNat 64 page = phys ∧ prot' = prot
  | .pmapEnterKern _ phys' _ prot' => phys' = phys ∧ prot' = prot
  | _ => False

/-- The last call of a history about the page of an address in a pmap has entered a frame. -/
def LastEntered (l : List Action) (m : PmapId) (phys : BitVec 64) (virt : ℕ) (prot : Prot) : Prop :=
  ∃ l₁ a l₂, l = l₁ ++ a :: l₂ ∧ a.Enters phys prot ∧ a.About m virt ∧ ∀ b ∈ l₂, ¬ b.About m virt

/-- A call about another page leaves the entry of this one. -/
theorem refStep_of_not_about {M : Tables} {a : Action} (h : ¬ a.About m virt) :
    refStep M a m (virt / pgSize) = M m (virt / pgSize) := by
  have hset : ∀ m' virt' (w : BitVec 64), a.target = some (m', virt') →
      setRef M m' virt' w m (virt / pgSize) = M m (virt / pgSize) :=
    fun m' virt' w ht => if_neg fun heq => h (.inr ⟨_, ht, heq⟩)
  cases a with
  | pmapNew m' =>
      refine congrFun (Function.update_of_ne ?_ _ _) _
      rintro rfl
      exact h (.inl rfl)
  | pmapFree m' => rfl
  | pmapEnter m' page virt' prot => exact hset m' virt' _ rfl
  | pmapEnterKern m' phys virt' prot => exact hset m' virt' _ rfl
  | pmapUnenter m' page vaddr pv => exact hset m' vaddr _ rfl
  | pmapUnenterKern m' vaddr => exact hset m' vaddr _ rfl
  | requeue freeq => rfl

/-- A call that enters a frame leaves it in the entry. -/
theorem refStep_of_enters {M : Tables} {a : Action} (henters : a.Enters phys prot)
    (habout : a.About m virt) :
    refStep M a m (virt / pgSize) = pteValue phys (vmProtToI386 prot) := by
  cases a with
  | pmapEnter m' page virt' prot' =>
      obtain ⟨rfl, rfl⟩ := henters
      rcases habout with habout | ⟨x, hx, heq⟩
      · cases habout
      · cases hx
        exact if_pos heq
  | pmapEnterKern m' phys' virt' prot' =>
      obtain ⟨rfl, rfl⟩ := henters
      rcases habout with habout | ⟨x, hx, heq⟩
      · cases habout
      · cases hx
        exact if_pos heq
  | pmapNew m' => cases henters
  | pmapFree m' => cases henters
  | pmapUnenter m' page vaddr pv => cases henters
  | pmapUnenterKern m' vaddr => cases henters
  | requeue freeq => cases henters

/-- Calls about other pages leave the entry of this one. -/
theorem foldl_of_not_about {M : Tables} (h : ∀ b ∈ l, ¬ b.About m virt) :
    l.foldl refStep M m (virt / pgSize) = M m (virt / pgSize) := by
  induction l generalizing M with
  | nil => rfl
  | cons b l ih =>
      rw [List.foldl_cons, ih fun c hc => h c (List.mem_cons_of_mem _ hc)]
      exact refStep_of_not_about (h b List.mem_cons_self)

/-- What was entered last is what the history leaves. -/
theorem foldl_of_lastEntered {M : Tables} (h : LastEntered l m phys virt prot) :
    l.foldl refStep M m (virt / pgSize) = pteValue phys (vmProtToI386 prot) := by
  obtain ⟨l₁, a, l₂, rfl, henters, habout, hrest⟩ := h
  rw [List.foldl_append, List.foldl_cons, foldl_of_not_about hrest]
  exact refStep_of_enters henters habout

/-! ## Runs -/

/-- A page that can be read is present. -/
theorem vmProtToI386_present (hread : prot.read = true) : vmProtToI386 prot &&& kMMUPresent ≠ 0 := by
  obtain ⟨read, write, execute⟩ := prot
  obtain rfl : read = true := hread
  cases write <;> cases execute <;> decide

/-- A readable entry is present, and names the frame that was entered. -/
theorem translate_pteValue (hread : prot.read = true) (virt : ℕ) :
    translate (pteValue phys (vmProtToI386 prot)) virt
      = pteGetAddr phys + 8 * BitVec.ofNat 64 (pi virt) := by
  have hpresent : pteValue phys (vmProtToI386 prot) &&& kMMUPresent ≠ 0 := by
    have hframe : kMMUFrame &&& kMMUPresent = 0#64 := by decide
    unfold pteValue
    rw [BitVec.and_or_distrib_right, BitVec.and_assoc, hframe, BitVec.and_zero, BitVec.zero_or]
    exact vmProtToI386_present hread
  rw [translate, if_neg hpresent, pteGetAddr_pteValue (vmProtToI386_frame prot), ← pteGetAddr]

/-- A translation names the frame of its entry if the offset counted in words stays in the page. -/
theorem pteGetAddr_translate (hpresent : w &&& kMMUPresent ≠ 0) :
    pteGetAddr (translate w virt) = pteGetAddr w ↔ virt % pgSize < 512 := by
  have height : (8 : BitVec 64).toNat = 8 := rfl
  have hpi : pi virt < 4096 := by
    rw [pi_eq]
    exact Nat.mod_lt _ (by decide)
  rw [translate, if_neg hpresent, ← BitVec.toNat_inj, toNat_pteGetAddr, BitVec.toNat_add,
    BitVec.toNat_mul, toNat_pteGetAddr, BitVec.toNat_ofNat, height, ← pi_eq]
  omega

/-- What `pmap_trans` returns for a page that was last entered readable. -/
theorem pmapTrans_entered {R : ℕ} (hM : Models D s (l.foldl refStep (shown s₁)))
    (hR : s.pmaps.get? m = some R) (hv : canonical virt = true) (hin : InScope D m virt)
    (halign : virt % pgSize = 0) (hread : prot.read = true) (hlast : LastEntered l m phys virt prot)
    (ho : o < pgSize) :
    pmapTrans s m (virt + o) = some (pteGetAddr phys + 8 * BitVec.ofNat 64 o) := by
  have hpage : (virt + o) / pgSize = virt / pgSize := by
    unfold pgSize at *
    omega
  have hpi : pi (virt + o) = o := by
    rw [pi_eq, Nat.add_mod, halign, Nat.zero_add, Nat.mod_mod, Nat.mod_eq_of_lt ho]
  obtain ⟨hpath, hpti⟩ := indices_of_page hpage
  rw [pmapTrans_eq, leafPte_of_indices hpath hpti, hM m R hR virt hv hin, foldl_of_lastEntered hlast,
    Option.map_some, translate_pteValue hread, hpi]

/-- **`pmap_trans` agrees with the mapping for the first byte of a page only.** In every run of calls
after `x64_vm_init`, in every pmap: an address of a page that was last entered readable is translated to
the frame and the offset it has in the page if and only if the offset is zero and the frame an address of
52 bits; an address of a page that is not mapped is translated to zero; and the translation names the
frame of the entry that `pmap_fully_descend` finds if and only if the offset is below 512. -/
theorem pmap_trans_agrees (h₀ : Boot D s₀) (hinit : x64VmInit s₀ = some s₁)
    (h : machine.Trace (CallInScope D) s₁ l s) {R : ℕ} (hR : s.pmaps.get? m = some R) :
    (∀ virt phys prot, canonical virt = true → InScope D m virt → virt % pgSize = 0 →
      phys.toNat % pgSize = 0 → prot.read = true → LastEntered l m phys virt prot →
      ∀ o < pgSize, (pmapTrans s m (virt + o) = some (phys + BitVec.ofNat 64 o) ↔
        o = 0 ∧ phys.toNat < 2 ^ 52)) ∧
    (∀ virt, canonical virt = true → InScope D m virt →
      l.foldl refStep (shown s₁) m (virt / pgSize) = 0 → pmapTrans s m virt = some 0) ∧
    (∀ virt, canonical virt = true → InScope D m virt → ∃ w, leafPte s m virt = some w ∧
      ∃ a, pmapTrans s m virt = some a ∧ (w &&& kMMUPresent = 0 → a = 0) ∧
        (w &&& kMMUPresent ≠ 0 → (pteGetAddr a = pteGetAddr w ↔ virt % pgSize < 512))) := by
  have h₁ := (init_spec h₀ hinit).1
  obtain ⟨-, hmodels⟩ := trace_spec h h₁ (models_shown h₁)
  refine ⟨?_, ?_, ?_⟩
  · intro virt phys prot hv hin halign hphys hread hlast o ho
    -- the two agree exactly when the offset, added to a `uint64_t` pointer, is 0
    rw [pmapTrans_entered hmodels hR hv hin halign hread hlast ho, Option.some_inj]
    exact frame_add_eq_iff hphys ho
  · intro virt hv hin hzero
    rw [pmapTrans_eq, hmodels m R hR virt hv hin, hzero, Option.map_some, translate_zero]
  · intro virt hv hin
    refine ⟨_, hmodels m R hR virt hv hin, _, ?_, ?_, fun hpresent => pteGetAddr_translate hpresent⟩
    · rw [pmapTrans_eq, hmodels m R hR virt hv hin, Option.map_some]
    · exact fun hpresent => if_pos hpresent

/-- The mapping of `boot_mapped` is the last one about its page. -/
theorem lastEntered_mapped :
    LastEntered [.pmapNew 1, .pmapEnter 1 0x408000 0x5000 ⟨true, true, false⟩] 1 0x408000 0x5000
      ⟨true, true, false⟩ :=
  ⟨[.pmapNew 1], _, [], rfl, ⟨rfl, rfl⟩, .inr ⟨_, rfl, rfl, .inr rfl⟩, nofun⟩

/-- The first byte of a page is translated as it is mapped. -/
theorem pmap_trans_agrees_first :
    ∃ s, machine.exec bootState [.pmapNew 1, .pmapEnter 1 0x408000 0x5000 ⟨true, true, false⟩] = some s ∧
      pmapTrans s 1 0x5000 = some 0x408000 ∧ pmapTrans s 1 0x6000 = some 0 := by
  obtain ⟨s, R, hexec, htrace, hR⟩ := boot_mapped
  have hin : ∀ virt, InScope Scope.all 1 virt := fun _ _ => trivial
  obtain ⟨hmapped, hnone, -⟩ := pmap_trans_agrees boot_bootState init_bootState htrace hR
  refine ⟨s, hexec, ?_, ?_⟩
  · have hfirst := hmapped 0x5000 0x408000 ⟨true, true, false⟩ (by decide) (hin _) (by decide)
      (by decide) rfl lastEntered_mapped 0 (by decide)
    exact hfirst.mpr ⟨rfl, by decide⟩
  · refine hnone 0x6000 (by decide) (hin _) ?_
    simp only [List.foldl_cons, List.foldl_nil, refStep, setRef]
    rw [if_neg (by decide), Function.update_self, if_neg (by decide)]

/-- **The second byte of a page is translated to its ninth.** -/
theorem pmap_trans_words :
    ¬ ∀ (s₀ s₁ s : State) (l : List Action) (m : PmapId) (R : ℕ), Boot Scope.all s₀ →
      x64VmInit s₀ = some s₁ → machine.Trace (CallInScope Scope.all) s₁ l s →
      s.pmaps.get? m = some R → ∀ virt phys prot, canonical virt = true → virt % pgSize = 0 →
      phys.toNat % pgSize = 0 → phys.toNat < 2 ^ 52 → prot.read = true →
      LastEntered l m phys virt prot →
      ∀ o < pgSize, pmapTrans s m (virt + o) = some (phys + BitVec.ofNat 64 o) := by
  intro h
  obtain ⟨s, R, -, htrace, hR⟩ := boot_mapped
  have hbyte := h bootState bootState s _ 1 R boot_bootState init_bootState htrace hR 0x5000 0x408000
    ⟨true, true, false⟩ (by decide) (by decide) (by decide) (by decide) rfl lastEntered_mapped 1
    (by decide)
  have h₁ := (init_spec boot_bootState init_bootState).1
  obtain ⟨-, hmodels⟩ := trace_spec htrace h₁ (models_shown h₁)
  rw [pmapTrans_entered hmodels hR (by decide) (fun _ => trivial) (by decide) rfl lastEntered_mapped
    (by decide)] at hbyte
  exact absurd (Option.some.inj hbyte) (by decide)

end Scalux.Pmap
