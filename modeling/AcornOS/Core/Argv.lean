/-
# The arguments of a new program (`build_argv_stack`)

The strings go to the top of the user stack's page, the last one first, and an array of pointers to them
goes below, aligned to 8 bytes.  The sizes are checked as the strings are placed, one after the other.

* The layout is a function of the arguments (`stringAddrs`, `argvBytes`), and `placeArgv_eq` says that the
  loops compute it: they give up EXACTLY WHEN the whole does not fit.
* The program's side is `readArgv`: it follows the pointers up to NULL, and each of them up to the
  string's terminator.  **`argv_round_trip`**: what it reads is what was passed.
-/
import AcornOS.Core.ElfImage

namespace AcornOS

open Lib

/-! ## 1. The layout -/

/-- The bytes that the strings take with their terminators. -/
def stringBytes : List (List (BitVec 8)) → Nat
  | [] => 0
  | arg :: args => arg.length + 1 + stringBytes args

/-- The strings with their terminators, one after the other. -/
def stringBlock : List (List (BitVec 8)) → List (BitVec 8)
  | [] => []
  | arg :: args => arg ++ [0] ++ stringBlock args

/-- Where the strings begin. -/
def stringAddrs (pageTop : Nat) : List (List (BitVec 8)) → List Nat
  | [] => []
  | arg :: args => (pageTop - stringBytes (arg :: args)) :: stringAddrs pageTop args

def roundUp8 (n : Nat) : Nat := (n + 7) / 8 * 8

/-- The bytes of the whole block: the strings, rounded up, and the pointers with a NULL behind them. -/
def argvBytes (args : List (List (BitVec 8))) : Nat :=
  roundUp8 (stringBytes args) + 8 * (args.length + 1)

section Layout

variable {pageTop : Nat} {args : List (List (BitVec 8))}

theorem length_stringBlock : ∀ args, (stringBlock args).length = stringBytes args
  | [] => rfl
  | arg :: args => by
    rw [stringBlock, List.length_append, List.length_append, List.length_singleton,
      length_stringBlock args, stringBytes]

theorem length_stringAddrs (pageTop : Nat) : ∀ args, (stringAddrs pageTop args).length = args.length
  | [] => rfl
  | _ :: args => congrArg (· + 1) (length_stringAddrs pageTop args)

theorem stringAddrs_le : ∀ {args : List (List (BitVec 8))}, ∀ a ∈ stringAddrs pageTop args, a ≤ pageTop
  | _ :: _, a, ha => by
    rcases List.mem_cons.mp ha with rfl | ha
    · exact Nat.sub_le _ _
    · exact stringAddrs_le a ha

/-- The strings lie between the first of them and the top. -/
theorem stringAddrs_bounds : ∀ {args : List (List (BitVec 8))}, stringBytes args ≤ pageTop →
    ∀ e ∈ (stringAddrs pageTop args).zip args,
      pageTop - stringBytes args ≤ e.1 ∧ e.1 + (e.2.length + 1) ≤ pageTop
  | [], _, _, he => by cases he
  | arg :: args, hfit, e, he => by
    rw [stringBytes] at hfit
    rw [stringAddrs, List.zip_cons_cons] at he
    rcases List.mem_cons.mp he with rfl | he
    · rw [stringBytes]
      refine ⟨le_rfl, ?_⟩
      dsimp only
      omega
    · have := stringAddrs_bounds (by omega) e he
      rw [stringBytes]
      omega

/-- Each string ends where the next one begins, or below. -/
theorem stringAddrs_pairwise : ∀ {args : List (List (BitVec 8))}, stringBytes args ≤ pageTop →
    ((stringAddrs pageTop args).zip args).Pairwise fun e e' => e.1 + (e.2.length + 1) ≤ e'.1
  | [], _ => List.Pairwise.nil
  | arg :: args, hfit => by
    rw [stringBytes] at hfit
    rw [stringAddrs, List.zip_cons_cons, List.pairwise_cons]
    refine ⟨fun e he => ?_, stringAddrs_pairwise (by omega)⟩
    have := (stringAddrs_bounds (by omega) e he).1
    rw [stringBytes]
    dsimp only
    omega

end Layout

/-! ## 2. What the loops write -/

/-- Two neighbouring blocks may be written one after the other. -/
theorem writeBytes_append {m : Memory} {a : Nat} {xs ys : List (BitVec 8)}
    (h : a + (xs.length + ys.length) ≤ 2 ^ 64) :
    writeBytes (writeBytes m (a + xs.length) ys) a xs = writeBytes m a (xs ++ ys) := by
  funext x
  by_cases hlow : x < a
  · rw [writeBytes_of_outside (by omega) (Or.inl hlow), writeBytes_of_outside (by omega) (by omega),
      writeBytes_of_outside (by rw [List.length_append]; omega) (Or.inl hlow)]
  obtain ⟨j, rfl⟩ := Nat.exists_eq_add_of_le (Nat.le_of_not_lt hlow)
  by_cases hx : j < xs.length
  · apply Option.some.inj
    rw [writeBytes_inside (by omega) hx,
      writeBytes_inside (by rw [List.length_append]; omega) (by rw [List.length_append]; omega),
      List.getElem?_append_left hx]
  by_cases hy : j < xs.length + ys.length
  · apply Option.some.inj
    rw [writeBytes_of_outside (by omega) (by omega),
      writeBytes_inside (by rw [List.length_append]; omega) (by rw [List.length_append]; omega),
      List.getElem?_append_right (by omega), show a + j = a + xs.length + (j - xs.length) by omega,
      writeBytes_inside (by omega) (by omega)]
  · rw [writeBytes_of_outside (by omega) (by omega), writeBytes_of_outside (by omega) (by omega),
      writeBytes_of_outside (by rw [List.length_append]; omega) (by rw [List.length_append]; omega)]

theorem load64_writeWords : ∀ {ws : List Nat} {m : Memory} {a i : Nat}, a + 8 * ws.length ≤ 2 ^ 64 →
    (∀ w ∈ ws, w < 2 ^ 64) → i < ws.length → some (load64 (writeWords m a ws) (a + 8 * i)) = ws[i]?
  | w :: ws, m, a, 0, ha, hw, _ => by
    rw [List.length_cons] at ha
    have hself : load64 (store64 m a w) a = w := load64_store64_self (hw w List.mem_cons_self)
    by_cases hend : ws = []
    · subst hend
      simp [writeWords, hself]
    · have hlen := List.length_pos_of_ne_nil hend
      rw [writeWords, add64_eq (by omega), Nat.mul_zero, Nat.add_zero, List.getElem?_cons_zero,
        ← hself]
      refine congrArg some (load64_congr fun k hk => ?_)
      rw [hself]
      exact writeWords_of_outside (by omega) (by omega)
  | w :: ws, m, a, i + 1, ha, hw, hi => by
    rw [List.length_cons] at ha hi
    rw [writeWords, add64_eq (by omega), show a + 8 * (i + 1) = a + 8 + 8 * i by omega,
      load64_writeWords (by omega) (fun v hv => hw v (List.mem_cons_of_mem w hv)) (by omega),
      List.getElem?_cons_succ]

section Place

variable {pageBase pageTop : Nat} (htop : pageTop % pageSize = 0) (hpos : pageSize ≤ pageTop)
  (hbase : pageBase + pageSize ≤ 2 ^ 64)

include htop hpos hbase

/-- **The loop over the strings** gives up iff they are too large, and lays them out otherwise. -/
theorem placeStrings_eq : ∀ (args : List (List (BitVec 8))) (m : Memory),
    (stringBytes args ≤ maxArgvBlockSize →
      placeStrings pageBase pageTop args m =
        (some (stringAddrs pageTop args, pageTop - stringBytes args),
          writeBytes m (pageBase + (pageSize - stringBytes args)) (stringBlock args))) ∧
    (maxArgvBlockSize < stringBytes args → (placeStrings pageBase pageTop args m).1 = none)
  | [], m => ⟨fun _ => rfl, fun h => absurd h (by decide)⟩
  | arg :: args, m => by
    obtain ⟨hfits, hlarge⟩ := placeStrings_eq args m
    rw [placeStrings, stringBytes]
    by_cases hrest : stringBytes args ≤ maxArgvBlockSize
    · rw [hfits hrest]
      simp only
      unfold maxArgvBlockSize pageSize at *
      constructor
      · intro hle
        have hmod : (pageTop - stringBytes args - (arg.length + 1)) % 4096 =
            4096 - (arg.length + 1 + stringBytes args) := by omega
        have hcursor : pageTop - stringBytes args - (arg.length + 1) =
            pageTop - (arg.length + 1 + stringBytes args) := by omega
        have hblock : (arg ++ [0]).length + (stringBlock args).length =
            arg.length + 1 + stringBytes args := by
          rw [List.length_append, List.length_singleton, length_stringBlock]
        have hnext : pageBase + (4096 - stringBytes args) =
            pageBase + (4096 - (arg.length + 1 + stringBytes args)) + (arg ++ [0]).length := by
          rw [List.length_append, List.length_singleton]
          omega
        rw [if_neg (by omega), hmod, add64_eq (by omega), hcursor, stringAddrs, stringBlock, stringBytes,
          hnext, @writeBytes_append _ _ (arg ++ [0]) _ (by omega)]
      · intro hgt
        rw [if_pos (by omega)]
    · have hnone := hlarge (Nat.lt_of_not_le hrest)
      refine ⟨fun hle => absurd hle (by omega), fun _ => ?_⟩
      generalize placeStrings pageBase pageTop args m = r at hnone
      obtain ⟨o, m'⟩ := r
      obtain rfl : o = none := hnone
      rfl

/-- **So does the whole.** -/
theorem placeArgv_eq (args : List (List (BitVec 8))) (m : Memory) :
    (argvBytes args ≤ maxArgvBlockSize →
      placeArgv pageBase pageTop args m =
        (some (args.length, pageTop - argvBytes args),
          writeWords (writeBytes m (pageBase + (pageSize - stringBytes args)) (stringBlock args))
            (pageBase + (pageSize - argvBytes args)) (stringAddrs pageTop args ++ [0]))) ∧
    (maxArgvBlockSize < argvBytes args → (placeArgv pageBase pageTop args m).1 = none) := by
  obtain ⟨hfits, hlarge⟩ := placeStrings_eq htop hpos hbase args m
  have hbytes : stringBytes args ≤ roundUp8 (stringBytes args) := by
    unfold roundUp8
    omega
  unfold placeArgv
  by_cases hstrings : stringBytes args ≤ maxArgvBlockSize
  · rw [hfits hstrings]
    simp only
    have hcursor : (pageTop - stringBytes args) / 8 * 8 = pageTop - roundUp8 (stringBytes args) := by
      unfold roundUp8 maxArgvBlockSize pageSize at *
      omega
    rw [hcursor]
    unfold argvBytes
    generalize roundUp8 (stringBytes args) = n at *
    unfold maxArgvBlockSize pageSize at *
    constructor
    · intro hle
      have hmod : (pageTop - n - (args.length + 1) * 8) % 4096 =
          4096 - (n + 8 * (args.length + 1)) := by omega
      have htop' : pageTop - n - (args.length + 1) * 8 = pageTop - (n + 8 * (args.length + 1)) := by
        omega
      rw [if_neg (by omega), hmod, add64_eq (by omega), htop']
    · intro hgt
      rw [if_pos (by omega)]
  · have hnone := hlarge (Nat.lt_of_not_le hstrings)
    refine ⟨fun hle => absurd hle (by unfold argvBytes; omega), fun _ => ?_⟩
    generalize placeStrings pageBase pageTop args m = r at hnone
    obtain ⟨o, m'⟩ := r
    obtain rfl : o = none := hnone
    rfl

end Place

/-! ## 3. What the program reads -/

section Reading

variable (read : Nat → Option (BitVec 8))

/-- A pointer, if all its bytes can be read. -/
def readWord (a : Nat) : Option Nat :=
  if (List.range 8).all fun k => (read (a + k)).isSome then
    some (load64 (fun x => (read x).getD 0) a)
  else none

/-- A string up to its terminator, which has to be among the given number of bytes. -/
def readString : Nat → Nat → Option (List (BitVec 8))
  | 0, _ => none
  | n + 1, a => do
    let b ← read a
    if b = 0 then some []
    else (readString n (a + 1)).map (b :: ·)

/-- The pointers up to NULL, which has to be among the given number of them, with their strings. -/
def readArgv : Nat → Nat → Option (List (Nat × List (BitVec 8)))
  | 0, _ => none
  | n + 1, a => do
    let p ← readWord read a
    if p = 0 then some []
    else do
      let arg ← readString read pageSize p
      (readArgv n (a + 8)).map ((p, arg) :: ·)

/-- The given bytes stand at `a`. -/
def StandsAt (a : Nat) (bs : List (BitVec 8)) : Prop := ∀ j < bs.length, read (a + j) = bs[j]?

variable {read} {a : Nat}

theorem standsAt_append {xs ys : List (BitVec 8)} (h : StandsAt read a (xs ++ ys)) :
    StandsAt read a xs ∧ StandsAt read (a + xs.length) ys := by
  constructor
  · intro j hj
    rw [h j (by rw [List.length_append]; omega), List.getElem?_append_left hj]
  · intro j hj
    rw [Nat.add_assoc, h (xs.length + j) (by rw [List.length_append]; omega),
      List.getElem?_append_right (by omega), Nat.add_sub_cancel_left]

theorem readString_eq : ∀ {arg : List (BitVec 8)} {n a : Nat}, StandsAt read a (arg ++ [0]) → 0 ∉ arg →
    arg.length < n → readString read n a = some arg
  | [], n + 1, a, h, _, _ => by
    have hzero := h 0 (by simp)
    simp only [Nat.add_zero, List.nil_append, List.getElem?_cons_zero] at hzero
    simp [readString, hzero]
  | b :: arg, n + 1, a, h, hnul, hlen => by
    rw [List.length_cons] at hlen
    obtain ⟨hb, hrest⟩ := @standsAt_append read a [b] (arg ++ [0]) h
    have hhead := hb 0 (by simp)
    simp only [Nat.add_zero, List.getElem?_cons_zero] at hhead
    have hne : b ≠ 0 := fun heq => hnul (heq ▸ List.mem_cons_self)
    rw [readString, hhead]
    simp only [Option.bind_eq_bind, Option.bind_some, if_neg hne]
    have htail : readString read n (a + 1) = some arg :=
      readString_eq hrest (fun h => hnul (List.mem_cons_of_mem b h)) (by omega)
    rw [htail, Option.map_some]

/-- The pointers lead to the strings, and NULL ends them. -/
theorem readArgv_eq {pageTop : Nat} : ∀ {args : List (List (BitVec 8))} {n a : Nat},
    (∀ i ≤ args.length, readWord read (a + 8 * i) = (stringAddrs pageTop args ++ [0])[i]?) →
    StandsAt read (pageTop - stringBytes args) (stringBlock args) → (∀ arg ∈ args, 0 ∉ arg) →
    stringBytes args < pageTop → stringBytes args ≤ pageSize → args.length < n →
    readArgv read n a = some ((stringAddrs pageTop args).zip args)
  | [], n + 1, a, hwords, _, _, _, _, _ => by
    have hnull := hwords 0 le_rfl
    simp only [Nat.mul_zero, Nat.add_zero, stringAddrs, List.nil_append, List.getElem?_cons_zero]
      at hnull
    simp [readArgv, hnull]
  | arg :: args, n + 1, a, hwords, hblock, hnul, htop, hsize, hlen => by
    rw [stringBytes] at htop hsize
    rw [List.length_cons] at hlen
    have hfirst := hwords 0 (Nat.zero_le _)
    simp only [Nat.mul_zero, Nat.add_zero, stringAddrs, List.cons_append, List.getElem?_cons_zero]
      at hfirst
    obtain ⟨harg, hrest⟩ := standsAt_append hblock
    have hend : pageTop - stringBytes (arg :: args) + (arg ++ [0]).length =
        pageTop - stringBytes args := by
      rw [stringBytes, List.length_append, List.length_singleton]
      omega
    rw [hend] at hrest
    have hne : pageTop - stringBytes (arg :: args) ≠ 0 := by
      rw [stringBytes]
      omega
    have hstring := readString_eq harg (hnul arg List.mem_cons_self) (show arg.length < pageSize by omega)
    have htail := @readArgv_eq pageTop args n (a + 8) (fun i hi => by
        have := hwords (i + 1) (Nat.succ_le_succ hi)
        rw [stringAddrs, List.cons_append, List.getElem?_cons_succ] at this
        rw [← this]
        congr 1
        omega) hrest (fun x hx => hnul x (List.mem_cons_of_mem arg hx)) (by omega) (by omega) (by omega)
    rw [readArgv, hfirst]
    simp only [Option.bind_eq_bind, Option.bind_some, if_neg hne, hstring, htail, Option.map_some]
    rw [stringAddrs, List.zip_cons_cons]

end Reading

/-! ## 4. The round trip -/

/-- What the program reads from its stack's page. -/
def stackRead (m : Memory) (root stackVirtual v : Nat) : Option (BitVec 8) :=
  if stackVirtual ≤ v ∧ v < stackVirtual + pageSize then view m root v else none

/-- The arguments that are accepted: some, fewer than 32, and at most 2KB of them. -/
def ArgvFits (args : List (List (BitVec 8))) : Prop :=
  1 ≤ args.length ∧ args.length ≤ 31 ∧ argvBytes args ≤ 2048

/-- The page after the block was written. -/
def argvMemory (m : Memory) (f stackVirtual : Nat) (args : List (List (BitVec 8))) : Memory :=
  writeWords (writeBytes m (frameAddr f + (pageSize - stringBytes args)) (stringBlock args))
    (frameAddr f + (pageSize - argvBytes args))
    (stringAddrs (stackVirtual + pageSize) args ++ [0])

section RoundTrip

variable {t : Machine} {root stackVirtual f : Nat} {args : List (List (BitVec 8))}

theorem stringBytes_le_argvBytes (args : List (List (BitVec 8))) :
    stringBytes args + 8 * (args.length + 1) ≤ argvBytes args := by
  unfold argvBytes roundUp8
  omega

/-- **`build_argv_stack`** accepts the arguments that fit, and writes their block. -/
theorem buildArgvStack_eq (h : Dir t root) (hlow : LowerHalf stackVirtual)
    (halign : stackVirtual % pageSize = 0) (hf : leaf t.mem root stackVirtual = some f) :
    (ArgvFits args → buildArgvStack 0 (frameAddr root) stackVirtual (some args) t =
      (some (args.length, stackVirtual + pageSize - argvBytes args),
        argvMemory t.mem f stackVirtual args)) ∧
    (¬ ArgvFits args → (buildArgvStack 0 (frameAddr root) stackVirtual (some args) t).1 = none) := by
  have hend := frameAddr_add_le f
  have htop : (stackVirtual + pageSize) % pageSize = 0 := by rw [Nat.add_mod_right, halign]
  obtain ⟨hfits, hlarge⟩ := @placeArgv_eq (frameAddr f) (stackVirtual + pageSize) htop (by omega) hend
    args t.mem
  rw [buildArgvStack, pageBase_eq h hlow halign hf 0]
  by_cases hdrop : args = [] ∨ args.length ≥ maxArgvCount
  · rw [if_pos hdrop]
    refine ⟨fun h => ?_, fun _ => rfl⟩
    obtain ⟨hone, hmax, -⟩ := h
    rcases hdrop with rfl | hcount
    · cases hone
    · unfold maxArgvCount at hcount
      omega
  · rw [if_neg hdrop]
    obtain ⟨hne, hcount⟩ := not_or.mp hdrop
    have hone := List.length_pos_of_ne_nil hne
    unfold maxArgvCount at hcount
    refine ⟨fun h => hfits h.2.2, fun h => hlarge (Nat.lt_of_not_le fun hle => h ⟨hone, ?_, hle⟩)⟩
    omega

/-- The block is in the stack's page. -/
theorem onlyIn_argvMemory (m : Memory) (hf : f < 2 ^ 40) (hfit : argvBytes args ≤ 2048) :
    OnlyIn m (argvMemory m f stackVirtual args) {f} := by
  have hend := frameAddr_add_le f
  have hle := stringBytes_le_argvBytes args
  have hwords := length_stringAddrs (stackVirtual + pageSize) args
  have hblock := length_stringBlock args
  refine onlyIn_of_outside (4096 - argvBytes args) (argvBytes args) hf (by omega) fun x hx => ?_
  unfold argvMemory pageSize
  rw [writeWords_of_outside, writeBytes_of_outside]
  all_goals
    simp only [List.length_append, List.length_singleton, hblock]
    unfold pageSize at hwords
    omega

/-- What stands in the stack's page afterwards. -/
theorem stackRead_eq {m : Memory} (ht : t.Wf) (h : Dir t root) (halign : stackVirtual % pageSize = 0)
    (hf : leaf t.mem root stackVirtual = some f) (honly : OnlyIn t.mem m {f}) {k : Nat} (hk : k < pageSize) :
    stackRead m root stackVirtual (stackVirtual + k) = some (m (frameAddr f + k)) := by
  have hpage : (stackVirtual + k) / pageSize = stackVirtual / pageSize := by
    unfold pageSize at *
    omega
  have hmod : (stackVirtual + k) % 4096 = k := by
    unfold pageSize at *
    omega
  have hleaf : leaf m root (stackVirtual + k) = some f := by
    have hpath := path_of_page hpage
    unfold leaf at hf ⊢
    rw [h.follow_page ht hf honly, hpath, hf]
  rw [stackRead, if_pos (by omega), view, hleaf, Option.map_some, hmod]

/-- The pointers of the block, as the program reads them. -/
theorem readWord_argvMemory (hread : ∀ k < pageSize,
      stackRead (argvMemory t.mem f stackVirtual args) root stackVirtual (stackVirtual + k) =
        some (argvMemory t.mem f stackVirtual args (frameAddr f + k)))
    (hlow : LowerHalf stackVirtual) (hfit : argvBytes args ≤ 2048) {i : Nat} (hi : i ≤ args.length) :
    readWord (stackRead (argvMemory t.mem f stackVirtual args) root stackVirtual)
        (stackVirtual + pageSize - argvBytes args + 8 * i) =
      (stringAddrs (stackVirtual + pageSize) args ++ [0])[i]? := by
  have hle := stringBytes_le_argvBytes args
  have hend := frameAddr_add_le f
  have hlen := length_stringAddrs (stackVirtual + pageSize) args
  have hbyte : ∀ k < 8, stackRead (argvMemory t.mem f stackVirtual args) root stackVirtual
      (stackVirtual + pageSize - argvBytes args + 8 * i + k) =
      some (argvMemory t.mem f stackVirtual args
        (frameAddr f + (pageSize - argvBytes args) + 8 * i + k)) := by
    intro k hk
    have := hread (pageSize - argvBytes args + 8 * i + k) (by unfold pageSize; omega)
    rw [show stackVirtual + pageSize - argvBytes args + 8 * i + k =
        stackVirtual + (pageSize - argvBytes args + 8 * i + k) by unfold pageSize; omega, this]
    simp only [Nat.add_assoc]
  have hall : ((List.range 8).all fun k => (stackRead (argvMemory t.mem f stackVirtual args) root
      stackVirtual (stackVirtual + pageSize - argvBytes args + 8 * i + k)).isSome) = true := by
    rw [List.all_eq_true]
    intro k hk
    rw [hbyte k (List.mem_range.mp hk)]
    rfl
  have hload : load64 (fun x => (stackRead (argvMemory t.mem f stackVirtual args) root
      stackVirtual x).getD 0) (stackVirtual + pageSize - argvBytes args + 8 * i) =
      load64 (argvMemory t.mem f stackVirtual args) (frameAddr f + (pageSize - argvBytes args) + 8 * i) :=
    load64_eq_of_bytes fun k hk => by rw [hbyte k hk, Option.getD_some]
  rw [readWord, if_pos hall, hload]
  refine load64_writeWords ?_ ?_ ?_
  · rw [List.length_append, List.length_singleton, hlen]
    unfold pageSize at *
    omega
  · intro w hw
    rcases List.mem_append.mp hw with hw | hw
    · have := stringAddrs_le w hw
      unfold LowerHalf at hlow
      unfold pageSize at *
      omega
    · rw [List.mem_singleton.mp hw]
      decide
  · rw [List.length_append, List.length_singleton, hlen]
    omega

/-- The strings of the block, as the program reads them. -/
theorem standsAt_argvMemory (hread : ∀ k < pageSize,
      stackRead (argvMemory t.mem f stackVirtual args) root stackVirtual (stackVirtual + k) =
        some (argvMemory t.mem f stackVirtual args (frameAddr f + k)))
    (hfit : argvBytes args ≤ 2048) :
    StandsAt (stackRead (argvMemory t.mem f stackVirtual args) root stackVirtual)
      (stackVirtual + pageSize - stringBytes args) (stringBlock args) := by
  intro j hj
  have hblock := length_stringBlock args
  have hle := stringBytes_le_argvBytes args
  have hend := frameAddr_add_le f
  have hlen := length_stringAddrs (stackVirtual + pageSize) args
  rw [show stackVirtual + pageSize - stringBytes args + j =
      stackVirtual + (pageSize - stringBytes args + j) by unfold pageSize; omega,
    hread _ (by unfold pageSize; omega), argvMemory, writeWords_of_outside]
  · rw [← Nat.add_assoc]
    refine writeBytes_inside ?_ hj
    unfold pageSize
    omega
  · rw [List.length_append, List.length_singleton, hlen]
    unfold pageSize at *
    omega
  · rw [List.length_append, List.length_singleton, hlen]
    unfold pageSize at *
    omega

end RoundTrip

/-- **The arguments make the round trip.**  `build_argv_stack` accepts exactly the arguments that fit;
the block then is in the upper half of the stack's page, and the program reads from there, following the
pointers up to NULL and each up to its terminator, the strings that were passed.  The pointers, the
strings and the terminators do not overlap. -/
theorem argv_round_trip {t : Machine} {root stackVirtual f : Nat} (args : List (List (BitVec 8)))
    (hnul : ∀ arg ∈ args, 0 ∉ arg) (ht : t.Wf) (h : Dir t root) (hlow : LowerHalf stackVirtual)
    (halign : stackVirtual % pageSize = 0) (hf : leaf t.mem root stackVirtual = some f) :
    ((∃ argc top, (buildArgvStack 0 (frameAddr root) stackVirtual (some args) t).1 =
        some (argc, top)) ↔
      1 ≤ args.length ∧ args.length ≤ 31 ∧
        roundUp8 (stringBytes args) + 8 * (args.length + 1) ≤ 2048) ∧
    ∀ argc top m,
      buildArgvStack 0 (frameAddr root) stackVirtual (some args) t = (some (argc, top), m) →
      argc = args.length ∧ top % 8 = 0 ∧ stackVirtual + pageSize - 2048 ≤ top ∧
        ∃ strings, readArgv (stackRead m root stackVirtual) (argc + 1) top = some strings ∧
          strings.map Prod.snd = args ∧
          (∀ e ∈ strings, top + 8 * (argc + 1) ≤ e.1 ∧
            e.1 + (e.2.length + 1) ≤ stackVirtual + pageSize) ∧
          strings.Pairwise fun e e' => e.1 + (e.2.length + 1) ≤ e'.1 := by
  obtain ⟨hfits, hlarge⟩ := @buildArgvStack_eq t root stackVirtual f args h hlow halign hf
  have hiff : (∃ argc top, (buildArgvStack 0 (frameAddr root) stackVirtual (some args) t).1 =
      some (argc, top)) ↔ ArgvFits args := by
    constructor
    · rintro ⟨argc, top, hsome⟩
      by_contra hnot
      rw [hlarge hnot] at hsome
      cases hsome
    · intro hok
      exact ⟨_, _, congrArg Prod.fst (hfits hok)⟩
  refine ⟨hiff, fun argc top m hbuild => ?_⟩
  have hok := hiff.mp ⟨argc, top, congrArg Prod.fst hbuild⟩
  obtain ⟨ho, rfl⟩ := Prod.mk.inj ((hfits hok).symm.trans hbuild)
  obtain ⟨rfl, rfl⟩ := Prod.mk.inj (Option.some.inj ho)
  obtain ⟨-, -, hfit⟩ := hok
  have hle := stringBytes_le_argvBytes args
  have hread := fun k hk => @stackRead_eq t root stackVirtual f (argvMemory t.mem f stackVirtual args) ht h halign hf
    (onlyIn_argvMemory t.mem (frames_lt (mem_frames_of_leaf hf)) hfit) k hk
  have hargv := @readArgv_eq (stackRead (argvMemory t.mem f stackVirtual args) root stackVirtual)
    (stackVirtual + pageSize) args (args.length + 1) (stackVirtual + pageSize - argvBytes args)
    (fun i hi => readWord_argvMemory hread hlow hfit hi) (standsAt_argvMemory hread hfit) hnul
    (by unfold pageSize; omega) (by unfold pageSize; omega) (Nat.lt_succ_self _)
  refine ⟨rfl, ?_, by omega, _, hargv, ?_, fun e he => ?_, ?_⟩
  · unfold argvBytes roundUp8 pageSize at *
    omega
  · rw [List.map_snd_zip (by rw [length_stringAddrs])]
  · have := stringAddrs_bounds (by unfold pageSize; omega) e he
    unfold argvBytes roundUp8 pageSize at *
    omega
  · exact stringAddrs_pairwise (by unfold pageSize; omega)

/-- `hello` with the argument `x` on a stack at address 0, where `onePageMachine` has its page. -/
theorem argv_round_trip_hello : ∃ top m,
    buildArgvStack 0 (frameAddr 1) 0 (some [[0x68, 0x65, 0x6C, 0x6C, 0x6F], [0x78]]) onePageMachine =
      (some (2, top), m) ∧ top % 8 = 0 ∧ 2048 ≤ top ∧
      ∃ strings, readArgv (stackRead m 1 0) 3 top = some strings ∧
        strings.map Prod.snd = [[0x68, 0x65, 0x6C, 0x6C, 0x6F], [0x78]] := by
  have hleaf : leaf onePageMachine.mem 1 0 = some 5 := leaf_onePageMachine (by decide)
  obtain ⟨hiff, hread⟩ := argv_round_trip [[0x68, 0x65, 0x6C, 0x6C, 0x6F], [0x78]] (by decide)
    onePageMachine_wf dir_onePageMachine (by unfold LowerHalf; decide) (by decide) hleaf
  obtain ⟨argc, top, hsome⟩ := hiff.mpr (by decide)
  obtain ⟨rfl, haligned, hlow, strings, hstrings, hargs, -⟩ :=
    hread argc top _ (Prod.ext hsome rfl)
  exact ⟨top, _, Prod.ext hsome rfl, haligned, hlow, strings, hstrings, hargs⟩

end AcornOS
