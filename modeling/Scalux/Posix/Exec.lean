import Scalux.Lib.Vectors

/-! # The initial stack of a program

`copyargs` copies the strings of the environment and of the arguments to the end of the stack, and pushes
the auxiliary vector and the vectors of pointers below them.

* **`copyargs`**, as the source has it.  **`readStack`**: how a program reads its stack.
* **`strings_pushed`**, **`Pushed.pointers`**: the strings, and their addresses as they are computed again.
* **`copyargs_round_trip`**: the program finds the strings, the vectors and the values of the package. -/

namespace Scalux.Posix.Exec

/-- `exec_package_t`; the map is not used here. -/
structure ExecPackage where
  stack : BitVec 64
  sp : BitVec 64
  entry : BitVec 64
  phaddr : BitVec 64
  phentsize : BitVec 64
  phnum : BitVec 64
  deriving DecidableEq

/-- `AT_PHDR`. -/
def atPhdr : BitVec 64 := 3

/-- `AT_PHENT`. -/
def atPhent : BitVec 64 := 4

/-- `AT_PHNUM`. -/
def atPhnum : BitVec 64 := 5

/-- `AT_ENTRY`. -/
def atEntry : BitVec 64 := 9

/-- The bytes of a string. -/
def bytes (s : List UInt8) : List ℕ := s.map UInt8.toNat

/-- A memory, and the pointer below which things are pushed. -/
abbrev Stack := (ℕ → ℕ) × BitVec 64

/-- `stackp -= strlen(s) + 1`. -/
def below (stackp : BitVec 64) (s : List UInt8) : BitVec 64 := stackp - BitVec.ofNat 64 (s.length + 1)

/-- One iteration of the loops that copy the strings. -/
def pushString (x : Stack) (s : List UInt8) : Stack :=
  (storeBytes x.1 (below x.2 s).toNat (bytes s ++ [0]), below x.2 s)

/-- `*--stackpu64 = w`. -/
def pushWord (x : Stack) (w : BitVec 64) : Stack :=
  (Function.update x.1 (x.2 - 8).toNat w.toNat, x.2 - 8)

/-- `AUXV`. -/
def auxv (x : Stack) (tag value : BitVec 64) : Stack := pushWord (pushWord x value) tag

/-- The loops that assign the pointers: `i` is the counter, and the second component is `stackp`. -/
def putPointers (stackpu64 : BitVec 64) : ℕ → List (List UInt8) → Stack → Stack
  | _, [], x => x
  | i, s :: strs, x =>
      putPointers stackpu64 (i + 1) strs
        (Function.update x.1 (stackpu64 + BitVec.ofNat 64 (8 * i)).toNat (below x.2 s).toNat, below x.2 s)

/-- The end of the vectors: `stackp` rounded down to 16 bytes, and a word less for some counts. -/
def vectorsEnd (stackp : BitVec 64) (n : ℕ) : BitVec 64 :=
  let stackpu64 := stackp - (stackp &&& 0xf)
  if (n + 3) % 2 = 0 then stackpu64 else stackpu64 - 8

/-- `copyargs`; there is no result where the loop counters, of type `int`, would overflow. -/
def copyargs (mem : ℕ → ℕ) (pkg : ExecPackage) (argp envp : List (List UInt8)) :
    Option ((ℕ → ℕ) × ExecPackage) :=
  if argp.length < 2 ^ 31 ∧ envp.length < 2 ^ 31 then
    let x := argp.foldl pushString (envp.foldl pushString (mem, pkg.stack))
    let x := (x.1, vectorsEnd x.2 (argp.length + envp.length))
    -- the auxiliary vector, last pair first
    let x := auxv x 0 0
    let x := auxv x atEntry pkg.entry
    let x := auxv x atPhdr pkg.phaddr
    let x := auxv x atPhent pkg.phentsize
    let x := auxv x atPhnum pkg.phnum
    let x := pushWord x 0
    let stackpu64 := x.2 - BitVec.ofNat 64 (8 * envp.length)
    -- the second pass begins at the end of the stack again
    let y := putPointers stackpu64 0 envp (x.1, pkg.stack)
    let x := pushWord (y.1, stackpu64) 0
    let stackpu64 := x.2 - BitVec.ofNat 64 (8 * argp.length)
    let y := putPointers stackpu64 0 argp (x.1, y.2)
    let x := pushWord (y.1, stackpu64) (BitVec.ofNat 64 argp.length)
    some (x.1, { pkg with sp := x.2 })
  else none

/-! ## The reader -/

/-- What a program finds on its stack. -/
structure Startup where
  argc : ℕ
  argv : List ℕ
  args : List (List ℕ)
  envv : List ℕ
  envs : List (List ℕ)
  auxv : List (ℕ × ℕ)
  /-- The address behind the vectors. -/
  stop : ℕ
  deriving DecidableEq, Repr

/-- The layout of the System V ABI: the count of the arguments, their pointers and a zero, the pointers of
the environment and a zero, the pairs of the auxiliary vector and a pair that begins with a zero. -/
def readStack (mem : ℕ → ℕ) (fuel sp : ℕ) : Option Startup :=
  (readVector mem fuel (sp + 8)).bind fun argv =>
    (readVector mem fuel argv.2).bind fun envv =>
      (readPairs mem fuel envv.2).bind fun auxv =>
        (readStrings mem fuel argv.1).bind fun args =>
          (readStrings mem fuel envv.1).map fun envs =>
            ⟨mem sp, argv.1, args, envv.1, envs, auxv.1, auxv.2⟩

/-! ## The size of the frame -/

/-- The size of some strings with their terminators. -/
def stringsSize (strs : List (List UInt8)) : ℕ := (strs.map fun s => s.length + 1).sum

/-- The word that makes the number of words even. -/
def padding (n : ℕ) : ℕ := if (n + 3) % 2 = 0 then 0 else 8

/-- With it the words fill a multiple of 16 bytes. -/
theorem padding_words (n : ℕ) : (padding n + 8 * (n + 13)) % 16 = 0 := by
  unfold padding
  split <;> omega

/-- The size of the frame: the strings, the bytes below them up to the alignment, and the words. -/
def frameSize (stack : ℕ) (argp envp : List (List UInt8)) : ℕ :=
  stringsSize (envp ++ argp) + (stack - stringsSize (envp ++ argp)) % 16 +
    padding (argp.length + envp.length) + 8 * (argp.length + envp.length + 13)

/-- The addresses of some strings below `top`. -/
def addrs (top : ℕ) : List (List UInt8) → List ℕ
  | [] => []
  | s :: strs => (top - (s.length + 1)) :: addrs (top - (s.length + 1)) strs

variable {mem : ℕ → ℕ} {top a b e i : ℕ} {x : Stack} {l : List ℕ} {w : BitVec 64} {s : List UInt8}
  {strs strs' argp envp : List (List UInt8)} {pkg : ExecPackage}

/-- The size with one string more: `s.length + 1`, for its end. -/
theorem stringsSize_cons : stringsSize (s :: strs) = s.length + 1 + stringsSize strs := List.sum_cons

/-- The size of two lists of strings is the sum. -/
theorem stringsSize_append : stringsSize (strs ++ strs') = stringsSize strs + stringsSize strs' := by
  rw [stringsSize, List.map_append, List.sum_append]
  rfl

/-- Each string has an address. -/
theorem length_addrs : (addrs top strs).length = strs.length := by
  induction strs generalizing top with
  | nil => rfl
  | cons s strs ih => rw [addrs, List.length_cons, List.length_cons, ih]

/-- The addresses of two lists: the second is below the first. -/
theorem addrs_append : addrs top (strs ++ strs') = addrs top strs ++ addrs (top - stringsSize strs) strs' := by
  induction strs generalizing top with
  | nil => rfl
  | cons s strs ih =>
      rw [List.cons_append, addrs, addrs, ih, List.cons_append, stringsSize_cons, Nat.sub_sub]

/-- The strings are above the last of them. -/
theorem le_of_mem_addrs (ha : a ∈ addrs top strs) : top - stringsSize strs ≤ a := by
  induction strs generalizing top with
  | nil => exact absurd ha List.not_mem_nil
  | cons s strs ih =>
      rw [stringsSize_cons]
      rcases List.mem_cons.mp ha with rfl | ha
      · omega
      · have hle := ih ha
        omega

/-- A string with its end is no longer than all of them. -/
theorem length_lt_stringsSize (hs : s ∈ strs) : s.length < stringsSize strs := by
  induction strs with
  | nil => exact absurd hs List.not_mem_nil
  | cons t strs ih =>
      rw [stringsSize_cons]
      rcases List.mem_cons.mp hs with rfl | hs
      · omega
      · have hlt := ih hs
        omega

/-- The address below a string and its end, if there is room. -/
theorem toNat_below (h : s.length + 1 ≤ x.2.toNat) : (below x.2 s).toNat = x.2.toNat - (s.length + 1) := by
  have hlt := x.2.isLt
  rw [below, BitVec.toNat_sub_of_le, BitVec.toNat_ofNat, Nat.mod_eq_of_lt (by omega)]
  rw [BitVec.le_def, BitVec.toNat_ofNat, Nat.mod_eq_of_lt (by omega)]
  exact h

/-! ## The strings -/

/-- `strs` have been pushed from `x` to `y`. -/
structure StringsPushed (x y : Stack) (strs : List (List UInt8)) : Prop where
  top : y.2.toNat = x.2.toNat - stringsSize strs
  strings : List.Forall₂ (StringAt y.1) (addrs x.2.toNat strs) (strs.map bytes)
  frame : ∀ b, b < x.2.toNat - stringsSize strs ∨ x.2.toNat ≤ b → byteAt y.1 b = byteAt x.1 b

/-- The characters of a string are bytes. -/
theorem bytes_lt : ∀ c ∈ bytes s, c < 256 := by
  intro c hc
  obtain ⟨v, -, rfl⟩ := List.mem_map.mp hc
  exact v.toNat_lt

/-- A string has as many bytes as characters. -/
theorem length_bytes : (bytes s).length = s.length := List.length_map _

/-- **A string that is pushed** is below the stack pointer, with its end. -/
theorem pushString_pushed (h : s.length + 1 ≤ x.2.toNat) : StringsPushed x (pushString x s) [s] := by
  have htop := toNat_below h
  refine ⟨htop, .cons ?_ .nil, fun b hb => ?_⟩
  · rw [pushString, htop]
    exact stringAt_storeBytes x.1 _ bytes_lt
  · have hone : stringsSize [s] = s.length + 1 := rfl
    refine byteAt_storeBytes_of_out (fun c hc => ?_) ?_
    · rcases List.mem_append.mp hc with hc | hc
      · exact bytes_lt c hc
      · rw [List.mem_singleton.mp hc]
        decide
    · have hlen : (bytes s ++ [0]).length = s.length + 1 := by rw [List.length_append, length_bytes]; rfl
      rw [htop, hlen]
      omega

/-- **The strings**: each is where `addrs` has it, whatever is pushed after it. -/
theorem strings_pushed (strs : List (List UInt8)) (h : stringsSize strs ≤ x.2.toNat) :
    StringsPushed x (strs.foldl pushString x) strs := by
  induction strs generalizing x with
  | nil => exact ⟨rfl, .nil, fun b _ => rfl⟩
  | cons s strs ih =>
      rw [stringsSize_cons] at h
      have hs := pushString_pushed (x := x) (s := s) (by omega)
      have htop : (pushString x s).2.toNat = x.2.toNat - (s.length + 1) := hs.top
      have hstrs := ih (x := pushString x s) (by omega)
      have hstr : StringAt (pushString x s).1 (x.2.toNat - (s.length + 1)) (bytes s) :=
        (List.forall₂_cons.mp hs.strings).1
      -- the strings that are pushed later are below this one
      refine ⟨?_, .cons ?_ ?_, fun b hb => ?_⟩
      · rw [List.foldl_cons, hstrs.top, htop, stringsSize_cons, Nat.sub_sub]
      · refine hstr.congr fun b hb _ => hstrs.frame b (Or.inr ?_)
        omega
      · rw [← htop]
        exact hstrs.strings
      · rw [stringsSize_cons] at hb
        have hone : stringsSize [s] = s.length + 1 := rfl
        rw [List.foldl_cons, hstrs.frame b (by omega), hs.frame b (by omega)]

/-! ## The words -/

/-- The words `l` have been pushed from `e` on, and the memory is as before elsewhere. -/
structure Pushed (mem : ℕ → ℕ) (e : ℕ) (x : Stack) (l : List ℕ) : Prop where
  stop : x.2.toNat + 8 * l.length = e
  words : WordsAt x.1 x.2.toNat l
  frame : ∀ b, b < x.2.toNat ∨ e ≤ b → x.1 b = mem b

/-- A difference of addresses that does not wrap. -/
theorem toNat_sub_ofNat {p : BitVec 64} {n : ℕ} (h : n ≤ p.toNat) :
    (p - BitVec.ofNat 64 n).toNat = p.toNat - n := by
  have hlt := p.isLt
  have hn : (BitVec.ofNat 64 n).toNat = n := Nat.mod_eq_of_lt (by omega)
  rw [BitVec.toNat_sub_of_le, hn]
  rw [BitVec.le_def, hn]
  exact h

/-- One word more on the stack. -/
theorem Pushed.word (h : Pushed mem e x l) (w : BitVec 64) (he : 8 * (l.length + 1) ≤ e) :
    Pushed mem e (pushWord x w) (w.toNat :: l) := by
  have hstop := h.stop
  have htop : (x.2 - 8).toNat = x.2.toNat - 8 := toNat_sub_ofNat (n := 8) (by omega)
  have hnext : (x.2 - 8).toNat + 8 = x.2.toNat := by omega
  refine ⟨?_, ⟨Function.update_self _ _ _, ?_⟩, fun b (hb : b < (x.2 - 8).toNat ∨ e ≤ b) => ?_⟩
  · have hend : (x.2 - 8).toNat + 8 * (l.length + 1) = e := by omega
    exact hend
  · have hwords : WordsAt x.1 ((x.2 - 8).toNat + 8) l := hnext ▸ h.words
    refine hwords.congr fun b hb _ => Function.update_of_ne ?_ _ _
    omega
  · have hne : b ≠ (x.2 - 8).toNat := by omega
    exact (Function.update_of_ne hne _ _).trans (h.frame b (by omega))

/-- An entry of the auxiliary vector: two words more, the tag first. -/
theorem Pushed.auxv (h : Pushed mem e x l) (tag value : BitVec 64) (he : 8 * (l.length + 2) ≤ e) :
    Pushed mem e (auxv x tag value) (tag.toNat :: value.toNat :: l) :=
  (h.word value (by omega)).word tag (by rw [List.length_cons]; omega)

/-- The addresses of `strs` have been assigned from the index `i` on. -/
structure Assigned (base i : ℕ) (x y : Stack) (strs : List (List UInt8)) : Prop where
  top : y.2.toNat = x.2.toNat - stringsSize strs
  words : WordsAt y.1 (base + 8 * i) (addrs x.2.toNat strs)
  frame : ∀ b, b < base + 8 * i ∨ base + 8 * (i + strs.length) ≤ b → y.1 b = x.1 b

/-- **The second pass** finds the addresses of the first. -/
theorem putPointers_assigned (base : BitVec 64) (strs : List (List UInt8))
    (hbase : base.toNat + 8 * (i + strs.length) < 2 ^ 64)
    (h : stringsSize strs ≤ x.2.toNat) :
    Assigned base.toNat i x (putPointers base i strs x) strs := by
  induction strs generalizing i x with
  | nil => exact ⟨rfl, trivial, fun b _ => rfl⟩
  | cons s strs ih =>
      rw [List.length_cons] at hbase
      rw [stringsSize_cons] at h
      have htop := toNat_below (x := x) (s := s) (by omega)
      have hidx : (BitVec.ofNat 64 (8 * i)).toNat = 8 * i := Nat.mod_eq_of_lt (by omega)
      -- no index wraps
      have hplace : (base + BitVec.ofNat 64 (8 * i)).toNat = base.toNat + 8 * i := by
        rw [BitVec.toNat_add, hidx, Nat.mod_eq_of_lt (by omega)]
      rw [putPointers, hplace]
      have hrest := ih (i := i + 1)
        (x := (Function.update x.1 (base.toNat + 8 * i) (below x.2 s).toNat, below x.2 s)) (by omega)
        (by rw [htop]; omega)
      have hnext : base.toNat + 8 * (i + 1) = base.toNat + 8 * i + 8 := by omega
      refine ⟨?_, ⟨?_, ?_⟩, fun b hb => ?_⟩
      · rw [hrest.top, htop, stringsSize_cons, Nat.sub_sub]
      · have hself : Function.update x.1 (base.toNat + 8 * i) (below x.2 s).toNat (base.toNat + 8 * i) =
            x.2.toNat - (s.length + 1) := by rw [Function.update_self, htop]
        exact (hrest.frame _ (Or.inl (by omega))).trans hself
      · rw [← hnext, ← htop]
        exact hrest.words
      · rw [List.length_cons] at hb
        have hne : b ≠ base.toNat + 8 * i := by omega
        exact (hrest.frame b (by omega)).trans (Function.update_of_ne hne _ _)

/-- The vector of the addresses of `strs`, assigned in its place below what has been pushed. -/
theorem Pushed.pointers {p : BitVec 64} (h : Pushed mem e x l) (strs : List (List UInt8))
    (he : 8 * (l.length + strs.length) ≤ e) (hp : stringsSize strs ≤ p.toNat) :
    Pushed mem e
      ((putPointers (x.2 - BitVec.ofNat 64 (8 * strs.length)) 0 strs (x.1, p)).1,
        x.2 - BitVec.ofNat 64 (8 * strs.length))
      (addrs p.toNat strs ++ l) ∧
      (putPointers (x.2 - BitVec.ofNat 64 (8 * strs.length)) 0 strs (x.1, p)).2.toNat =
        p.toNat - stringsSize strs := by
  have hstop := h.stop
  have hlt := x.2.isLt
  have hbase : (x.2 - BitVec.ofNat 64 (8 * strs.length)).toNat = x.2.toNat - 8 * strs.length :=
    toNat_sub_ofNat (by omega)
  have hput := putPointers_assigned (i := 0) (x := (x.1, p)) (x.2 - BitVec.ofNat 64 (8 * strs.length)) strs
    (by omega) hp
  have hend : x.2.toNat - 8 * strs.length + 8 * strs.length = x.2.toNat := by omega
  -- the pointers go below what is on the stack, and the words above are not written
  refine ⟨⟨?_, wordsAt_append.mpr ⟨hput.words, ?_⟩, fun b hb => ?_⟩, hput.top⟩
  · have hlen : x.2.toNat - 8 * strs.length + 8 * (strs.length + l.length) = e := by omega
    rw [List.length_append, length_addrs]
    exact hbase ▸ hlen
  · rw [length_addrs, hbase, hend]
    exact h.words.congr fun b hb _ => hput.frame b (Or.inr (by omega))
  · have hb' : b < (x.2 - BitVec.ofNat 64 (8 * strs.length)).toNat ∨ e ≤ b := hb
    rw [hput.frame b (by omega)]
    exact h.frame b (by omega)

/-- The end of the vectors is at most 23 bytes below the strings. -/
theorem toNat_vectorsEnd {p : BitVec 64} {n : ℕ} (h : 24 ≤ p.toNat) :
    (vectorsEnd p n).toNat = p.toNat - p.toNat % 16 - padding n := by
  have hand : (p &&& 0xf).toNat = p.toNat % 16 := by
    rw [BitVec.toNat_and]
    exact Nat.and_two_pow_sub_one_eq_mod p.toNat 4
  have hsub : (p - (p &&& 0xf)).toNat = p.toNat - p.toNat % 16 := by
    rw [BitVec.toNat_sub_of_le, hand]
    rw [BitVec.le_def, hand]
    exact Nat.mod_le _ _
  unfold vectorsEnd padding
  split
  · rw [hsub, Nat.sub_zero]
  · rw [← hsub]
    exact toNat_sub_ofNat (n := 8) (by omega)

/-! ## The round trip -/

/-- The pairs of the auxiliary vector. -/
def auxPairs (pkg : ExecPackage) : List (ℕ × ℕ) :=
  [(atPhnum.toNat, pkg.phnum.toNat), (atPhent.toNat, pkg.phentsize.toNat), (atPhdr.toNat, pkg.phaddr.toNat),
    (atEntry.toNat, pkg.entry.toNat)]

/-- What the initial stack of `pkg` must be after `copyargs`. -/
structure StackOk (mem : ℕ → ℕ) (pkg : ExecPackage) (argp envp : List (List UInt8)) (mem' : ℕ → ℕ)
    (sp : BitVec 64) : Prop where
  aligned : 16 ∣ sp.toNat
  size : sp.toNat + frameSize pkg.stack.toNat argp envp = pkg.stack.toNat
  frame : ∀ b, b < sp.toNat ∨ pkg.stack.toNat ≤ b → byteAt mem' b = byteAt mem b
  reads : ∃ argv envv stop,
    (∀ fuel, frameSize pkg.stack.toNat argp envp ≤ fuel → readStack mem' fuel sp.toNat =
      some ⟨argp.length, argv, argp.map bytes, envv, envp.map bytes, auxPairs pkg, stop⟩) ∧
    ∀ a ∈ argv ++ envv, stop ≤ a

/-- The words of the frame, from the stack pointer on. -/
def frameWords (pkg : ExecPackage) (argp envp : List (List UInt8)) : List ℕ :=
  let stack := pkg.stack.toNat
  argp.length :: (addrs (stack - stringsSize envp) argp ++ 0 ::
    (addrs stack envp ++ 0 :: (pairWords (auxPairs pkg) ++ 0 :: [0])))

/-- The words of the frame: the arguments, the environment and 13 others. -/
theorem length_frameWords : (frameWords pkg argp envp).length = argp.length + envp.length + 13 := by
  have haux : (pairWords (auxPairs pkg) ++ [0, 0]).length = 10 := rfl
  rw [frameWords, List.length_cons, List.length_append, List.length_cons, List.length_append,
    List.length_cons, haux, length_addrs, length_addrs]
  omega

/-- **The words** below the strings. -/
theorem copyargs_pushed (mem : ℕ → ℕ) (hargp : argp.length < 2 ^ 31) (henvp : envp.length < 2 ^ 31)
    (h : frameSize pkg.stack.toNat argp envp ≤ pkg.stack.toNat) :
    ∃ x y, StringsPushed (mem, pkg.stack) x (envp ++ argp) ∧
      copyargs mem pkg argp envp = some (y.1, { pkg with sp := y.2 }) ∧
      Pushed x.1 (vectorsEnd x.2 (argp.length + envp.length)).toNat y (frameWords pkg argp envp) := by
  have hfit : stringsSize (envp ++ argp) ≤ pkg.stack.toNat := by
    unfold frameSize at h
    omega
  have hx := strings_pushed (x := (mem, pkg.stack)) (envp ++ argp) hfit
  rw [stringsSize_append] at hfit
  have htop : (List.foldl pushString (mem, pkg.stack) (envp ++ argp)).2.toNat =
      pkg.stack.toNat - stringsSize (envp ++ argp) := hx.top
  have hend : 8 * (argp.length + envp.length + 13) ≤
      (vectorsEnd (List.foldl pushString (mem, pkg.stack) (envp ++ argp)).2
        (argp.length + envp.length)).toNat := by
    unfold frameSize at h
    rw [toNat_vectorsEnd (by omega), htop]
    omega
  -- from here on the strings do not matter, only where they end
  generalize hstrs : List.foldl pushString (mem, pkg.stack) (envp ++ argp) = x at *
  rw [List.foldl_append] at hstrs
  have hnil : Pushed x.1 (vectorsEnd x.2 (argp.length + envp.length)).toNat
      (x.1, vectorsEnd x.2 (argp.length + envp.length)) [] := ⟨rfl, trivial, fun _ _ => rfl⟩
  have hnull := hnil.auxv 0 0 (by simp only [List.length_nil]; omega)
  have hentry := hnull.auxv atEntry pkg.entry (by simp only [List.length_cons, List.length_nil]; omega)
  have hphdr := hentry.auxv atPhdr pkg.phaddr (by simp only [List.length_cons, List.length_nil]; omega)
  have hphent := hphdr.auxv atPhent pkg.phentsize (by simp only [List.length_cons, List.length_nil]; omega)
  have hphnum := hphent.auxv atPhnum pkg.phnum (by simp only [List.length_cons, List.length_nil]; omega)
  have henvs := hphnum.word 0 (by simp only [List.length_cons, List.length_nil]; omega)
  obtain ⟨henvv, henvtop⟩ := henvs.pointers (p := pkg.stack) envp
    (by simp only [List.length_cons, List.length_nil]; omega) (by omega)
  have hargs := henvv.word 0
    (by simp only [List.length_append, length_addrs, List.length_cons, List.length_nil]; omega)
  obtain ⟨hargv, -⟩ := hargs.pointers (p := _) argp
    (by simp only [List.length_append, length_addrs, List.length_cons, List.length_nil]; omega)
    (by rw [henvtop]; omega)
  have hargc := hargv.word (BitVec.ofNat 64 argp.length)
    (by simp only [List.length_append, length_addrs, List.length_cons, List.length_nil]; omega)
  rw [henvtop, BitVec.toNat_ofNat, Nat.mod_eq_of_lt (by omega)] at hargc
  refine ⟨x, _, hx, ?_, hargc⟩
  rw [copyargs, if_pos ⟨hargp, henvp⟩, hstrs]

/-- No string is at the address 0, if all are below `top`. -/
theorem zero_notMem_addrs (h : stringsSize strs < top) : 0 ∉ addrs top strs := by
  intro hmem
  have hle := le_of_mem_addrs hmem
  omega

/-- Strings without a NUL. -/
theorem nul_notMem_bytes (h : ∀ s ∈ strs, 0 ∉ s) : ∀ t ∈ strs.map bytes, 0 ∉ t := by
  intro t ht hmem
  obtain ⟨s, hs, rfl⟩ := List.mem_map.mp ht
  obtain ⟨c, hc, hzero⟩ := List.mem_map.mp hmem
  obtain rfl : c = 0 := UInt8.toNat_inj.mp hzero
  exact h s hs hc

/-- A string is shorter than a fuel for all of them. -/
theorem length_lt_of_mem_bytes {fuel : ℕ} (h : stringsSize strs ≤ fuel) :
    ∀ t ∈ strs.map bytes, t.length < fuel := by
  intro t ht
  obtain ⟨s, hs, rfl⟩ := List.mem_map.mp ht
  have hlt := length_lt_stringsSize hs
  rw [length_bytes]
  omega

/-- **The reader** of a frame. -/
theorem readStack_eq {p fuel : ℕ} (hwords : WordsAt mem p (frameWords pkg argp envp))
    (henvs : List.Forall₂ (StringAt mem) (addrs pkg.stack.toNat envp) (envp.map bytes))
    (hargs : List.Forall₂ (StringAt mem) (addrs (pkg.stack.toNat - stringsSize envp) argp) (argp.map bytes))
    (hnul : ∀ s ∈ envp ++ argp, 0 ∉ s) (h : stringsSize (envp ++ argp) < pkg.stack.toNat)
    (hf : frameSize pkg.stack.toNat argp envp ≤ fuel) :
    readStack mem fuel p = some
      ⟨argp.length, addrs (pkg.stack.toNat - stringsSize envp) argp, argp.map bytes,
        addrs pkg.stack.toNat envp, envp.map bytes, auxPairs pkg,
        p + 8 * (argp.length + envp.length + 13)⟩ := by
  -- each vector begins where the one before ends
  obtain ⟨hargc, hvectors⟩ := hwords
  rw [stringsSize_append] at h
  unfold frameSize at hf
  rw [stringsSize_append] at hf
  have hargv : readVector mem fuel (p + 8) = _ :=
    readVector_eq hvectors (zero_notMem_addrs (by omega)) (by rw [length_addrs]; omega)
  have henvv : readVector mem fuel _ = _ :=
    readVector_eq hvectors.tail (zero_notMem_addrs (by omega)) (by rw [length_addrs]; omega)
  have haux : readPairs mem fuel _ = _ :=
    readPairs_eq hvectors.tail.tail (by simp [auxPairs, atPhnum, atPhent, atPhdr, atEntry])
      (by simp only [auxPairs, List.length_cons, List.length_nil]; omega)
  have hargs' : readStrings mem fuel _ = _ := readStrings_eq hargs
    (nul_notMem_bytes fun s hs => hnul s (List.mem_append_right _ hs)) (length_lt_of_mem_bytes (by omega))
  have henvs' : readStrings mem fuel _ = _ := readStrings_eq henvs
    (nul_notMem_bytes fun s hs => hnul s (List.mem_append_left _ hs)) (length_lt_of_mem_bytes (by omega))
  have hend : p + 8 + 8 * (argp.length + 1) + 8 * (envp.length + 1) + 16 * 5 =
      p + 8 * (argp.length + envp.length + 13) := by omega
  rw [readStack, hargv, Option.bind_some, henvv, Option.bind_some, haux, Option.bind_some, hargs',
    Option.bind_some, henvs', Option.map_some, hargc, length_addrs, length_addrs]
  exact congrArg (fun stop => some (Startup.mk _ _ _ _ _ _ stop)) hend

/-- **The round trip.**  A program reads the arguments, the environment and the auxiliary vector it was
started with, and its pointers are below all strings. -/
theorem copyargs_round_trip (mem : ℕ → ℕ) (hargp : argp.length < 2 ^ 31) (henvp : envp.length < 2 ^ 31)
    (hnul : ∀ s ∈ envp ++ argp, 0 ∉ s) (h : frameSize pkg.stack.toNat argp envp ≤ pkg.stack.toNat) :
    ∃ mem' sp, copyargs mem pkg argp envp = some (mem', { pkg with sp := sp }) ∧
      StackOk mem pkg argp envp mem' sp := by
  obtain ⟨x, y, hx, heq, hy⟩ := copyargs_pushed mem hargp henvp h
  have hstop := hy.stop
  have hxtop : x.2.toNat = pkg.stack.toNat - stringsSize (envp ++ argp) := hx.top
  have hframe : stringsSize (envp ++ argp) + (pkg.stack.toNat - stringsSize (envp ++ argp)) % 16 +
      padding (argp.length + envp.length) + 8 * (argp.length + envp.length + 13) ≤ pkg.stack.toNat := h
  have hend := toNat_vectorsEnd (p := x.2) (n := argp.length + envp.length) (by omega)
  have hwords := padding_words (argp.length + envp.length)
  rw [length_frameWords] at hstop
  rw [hxtop] at hend
  have haligned : y.2.toNat % 16 = 0 := by omega
  -- the strings are above the words
  have hbytes : ∀ b, b < y.2.toNat ∨ (vectorsEnd x.2 (argp.length + envp.length)).toNat ≤ b →
      byteAt y.1 b = byteAt x.1 b := fun b hb =>
    byteAt_congr_of_out hy.frame (by omega) (by omega) hb
  have hstrings : ∀ {a t}, (a, t) ∈ (addrs pkg.stack.toNat (envp ++ argp)).zip ((envp ++ argp).map bytes) →
      StringAt y.1 a t := by
    intro a t hmem
    have hle := le_of_mem_addrs (List.of_mem_zip hmem).1
    refine (List.forall₂_zip hx.strings hmem).congr fun b hb _ => hbytes b (Or.inr ?_)
    omega
  rw [addrs_append, List.map_append, List.zip_append (by rw [length_addrs, List.length_map])] at hstrings
  have henvs : List.Forall₂ (StringAt y.1) (addrs pkg.stack.toNat envp) (envp.map bytes) :=
    List.forall₂_iff_zip.mpr ⟨by rw [length_addrs, List.length_map], fun hmem =>
      hstrings (List.mem_append_left _ hmem)⟩
  have hargs : List.Forall₂ (StringAt y.1) (addrs (pkg.stack.toNat - stringsSize envp) argp)
      (argp.map bytes) :=
    List.forall₂_iff_zip.mpr ⟨by rw [length_addrs, List.length_map], fun hmem =>
      hstrings (List.mem_append_right _ hmem)⟩
  refine ⟨y.1, y.2, heq, Nat.dvd_of_mod_eq_zero haligned, ?_, fun b hb => ?_, ?_⟩
  · rw [frameSize]
    omega
  · have hout : b < pkg.stack.toNat - stringsSize (envp ++ argp) ∨ pkg.stack.toNat ≤ b := by omega
    exact (hbytes b (by omega)).trans (hx.frame b hout)
  · refine ⟨_, _, _, fun fuel hf => readStack_eq hy.words henvs hargs hnul (by omega) hf, fun a ha => ?_⟩
    rw [stringsSize_append] at hend
    rcases List.mem_append.mp ha with ha | ha
    · have hle := le_of_mem_addrs ha
      omega
    · have hle := le_of_mem_addrs ha
      omega

/-- `sh -c` with one variable in the environment. -/
theorem copyargs_round_trip_shell :
    ∃ mem' sp, copyargs (fun _ => 0) ⟨0x10000, 0, 0x401000, 0x400040, 56, 9⟩
        [[115, 104], [45, 99]] [[65, 61, 49]] =
          some (mem', ⟨0x10000, sp, 0x401000, 0x400040, 56, 9⟩) ∧
      StackOk (fun _ => 0) ⟨0x10000, 0, 0x401000, 0x400040, 56, 9⟩ [[115, 104], [45, 99]] [[65, 61, 49]]
        mem' sp :=
  copyargs_round_trip (fun _ => 0) (by decide) (by decide) (by decide) (by decide)

end Scalux.Posix.Exec
