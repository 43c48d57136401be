/-
# The shell (`apps/shell/shell.c`)

What becomes of a line that is typed: which command is run, and what `run` makes of its arguments.

* `cmd_run` cuts the line into words WHERE IT LIES, by putting a 0 after each (`tokenise`).  Once it
  stands at a word it finds all of them (`tokenise_spec`).
* It skips ONE space before it begins, where its comment says any number: **`cmdRun_words_iff`**, the
  arguments are the words just if no two spaces come first.
* `process_command` compares the beginning of the line with each name, and does not look whether a word
  ends there: **`processCommand_word_iff`**, a command is run by its name just if the first word is not a
  longer one that begins with a name, and no space comes before it.
-/
import AcornOS.FileSystem.ShadowFs
import AcornOS.Lib.Words

namespace AcornOS

open Lib

/-! ## 1. `cmd_run` -/

/-- `' '` -/
def space : BitVec 8 := 0x20

/-- `SHELL_MAX_ARGS` -/
def shellMaxArgs : Nat := 16

/-- The string at an offset of the buffer, up to the first 0. -/
def stringAt (buf : List (BitVec 8)) (p : Nat) : CString := (buf.drop p).takeWhile (· ≠ 0)

/-- A round of the loop of `cmd_run`: the cursor, which stands between `before` and `rest`, passes a word,
the space after it becomes a 0, and the spaces after that are skipped. -/
def cutWord (before rest : List (BitVec 8)) : List (BitVec 8) × List (BitVec 8) :=
  let word := rest.takeWhile (· ≠ space)
  match rest.dropWhile (· ≠ space) with
  | [] => (before ++ word, [])
  | _ :: rest => (before ++ (word ++ 0 :: rest.takeWhile (· = space)), rest.dropWhile (· = space))

/-- The loop of `cmd_run`, with room for so many arguments: what the buffer becomes, and the offsets in
`argv`. -/
def tokenise : (room : Nat) → (before rest : List (BitVec 8)) → (argv : List Nat) →
    List (BitVec 8) × List Nat
  | 0, before, rest, argv => (before ++ rest, argv)
  | room + 1, before, rest, argv =>
    if rest = [] then (before, argv)
    else
      let (before', rest') := cutWord before rest
      tokenise room before' rest' (argv ++ [before.length])

/-- What `cmd_run` does: it prints how it is used, or calls `process_spawn` with a path and the pointers of
`argv`, of which the last is NULL. -/
inductive RunOutcome where
  | usage
  | spawn (path : CString) (argv : List (Option CString))
deriving Repr, DecidableEq

/-- `cmd_run` on what follows the name of the command. -/
def cmdRun (args : CString) : RunOutcome :=
  let start := if args.head? = some space then 1 else 0
  if args.drop start = [] then .usage
  else
    let (buf, argv) := tokenise (shellMaxArgs - 1) (args.take start) (args.drop start) []
    .spawn (stringAt buf start) (argv.map (fun p => some (stringAt buf p)) ++ [none])

/-- **The arguments are the words**, cut to fifteen, and the path is the first of them; without a word
nothing is run. -/
def RunsWords (args : CString) : Prop :=
  match cmdRun args with
  | .usage => words space args = []
  | .spawn path argv => argv = ((words space args).take (shellMaxArgs - 1)).map some ++ [none] ∧
      (words space args).head? = some path

example : cmdRun [0x20, 0x61, 0x20, 0x20, 0x62, 0x63] =
    .spawn [0x61] [some [0x61], some [0x62, 0x63], none] := by decide

section Tokenise

variable {before rest : List (BitVec 8)} {argv : List Nat} {room : Nat}

/-- A string that ends before the cursor is not touched any more. -/
theorem stringAt_append {u w v : List (BitVec 8)} (hw : 0 ∉ w) (hv : v = [] ∨ ∃ v', v = 0 :: v') :
    stringAt (u ++ (w ++ v)) u.length = w := by
  rw [stringAt, List.drop_left]
  have hword : w.takeWhile (· ≠ 0) = w := by
    rw [List.takeWhile_eq_self_iff]
    intro x hx
    rw [decide_eq_true_eq]
    exact fun hzero => hw (hzero ▸ hx)
  rw [List.takeWhile_append, hword, if_pos rfl]
  rcases hv with rfl | ⟨v', rfl⟩
  · exact List.append_nil w
  · rw [List.takeWhile_cons_of_neg (by simp), List.append_nil]

theorem cutWord_rest (before : List (BitVec 8)) (hhead : rest.head? ≠ some space) (hne : rest ≠ []) :
    words space rest = rest.takeWhile (· ≠ space) :: words space (cutWord before rest).2 := by
  rw [words_of_head hne hhead, cutWord]
  rcases dropWhile_ne_cases space rest with hend | ⟨rest', hrest⟩
  · rw [hend]
  · rw [hrest, words_sep, ← words_dropWhile rest']

/-- The cursor is past the spaces. -/
theorem head_cutWord (before rest : List (BitVec 8)) : (cutWord before rest).2.head? ≠ some space := by
  rw [cutWord]
  split
  · exact nofun
  · exact head_dropWhile_eq _

theorem notMem_cutWord (before : List (BitVec 8)) {x : BitVec 8} (hx : x ∉ rest) : x ∉ (cutWord before rest).2 := by
  rw [cutWord]
  split
  · exact List.not_mem_nil
  · rename_i y rest' hrest
    intro hmem
    have htail : x ∈ rest.dropWhile (· ≠ space) :=
      hrest ▸ List.mem_cons_of_mem y ((List.dropWhile_suffix _).subset hmem)
    exact hx ((List.dropWhile_suffix _).subset htail)

theorem tokenise_nil (room : Nat) (before : List (BitVec 8)) (argv : List Nat) :
    tokenise room before [] argv = (before, argv) := by
  cases room with
  | zero => rw [tokenise, List.append_nil]
  | succ room => rw [tokenise, if_pos rfl]

/-- What is behind the cursor stays as it is. -/
theorem prefix_tokenise (room : Nat) : ∀ (before rest : List (BitVec 8)) (argv : List Nat),
    before <+: (tokenise room before rest argv).1 := by
  induction room with
  | zero => exact fun before rest argv => List.prefix_append _ _
  | succ room ih =>
    intro before rest argv
    rw [tokenise]
    split
    · exact List.prefix_rfl
    · refine List.IsPrefix.trans ?_ (ih (cutWord before rest).1 _ _)
      rw [cutWord]
      split
      · exact List.prefix_append _ _
      · exact List.prefix_append _ _

/-- **The string at a cursor** is the word that begins there, whatever becomes of the rest. -/
theorem stringAt_tokenise (room : Nat) (before : List (BitVec 8)) (argv : List Nat) (hne : rest ≠ [])
    (hzero : 0 ∉ rest) :
    stringAt (tokenise (room + 1) before rest argv).1 before.length = rest.takeWhile (· ≠ space) := by
  have hword : 0 ∉ rest.takeWhile (· ≠ space) :=
    fun h => hzero ((List.takeWhile_prefix _).mem h)
  rw [tokenise, if_neg hne]
  rcases hcut : cutWord before rest with ⟨before', rest'⟩
  dsimp only
  rw [cutWord] at hcut
  split at hcut
  · cases hcut
    rw [tokenise_nil]
    have hstring := stringAt_append (u := before) hword (.inl rfl)
    rwa [List.append_nil] at hstring
  · cases hcut
    obtain ⟨tail, htail⟩ := prefix_tokenise room (before ++ (rest.takeWhile (· ≠ space) ++ 0 :: _))
      (List.dropWhile (· = space) _) (argv ++ [before.length])
    rw [← htail, List.append_assoc, List.append_assoc]
    exact stringAt_append hword (.inr ⟨_, rfl⟩)

/-- **From a word on**, the offsets lead to the words. -/
theorem tokenise_spec (room : Nat) : ∀ (before rest : List (BitVec 8)) (argv : List Nat), 0 ∉ rest →
    rest.head? ≠ some space → ∃ new, (tokenise room before rest argv).2 = argv ++ new ∧
      new.map (stringAt (tokenise room before rest argv).1) = (words space rest).take room := by
  induction room with
  | zero => exact fun before rest argv _ _ => ⟨[], (List.append_nil argv).symm, rfl⟩
  | succ room ih =>
    intro before rest argv hzero hhead
    by_cases hne : rest = []
    · rw [hne, tokenise_nil]
      exact ⟨[], (List.append_nil argv).symm, by rw [words_nil]; rfl⟩
    · have hstring := stringAt_tokenise room before argv hne hzero
      obtain ⟨new, hargv, hstrings⟩ := ih (cutWord before rest).1 _ (argv ++ [before.length])
        (notMem_cutWord before hzero) (head_cutWord before rest)
      rw [cutWord_rest before hhead hne, List.take_succ_cons]
      rw [tokenise, if_neg hne] at hstring ⊢
      refine ⟨before.length :: new, ?_, ?_⟩
      · rw [hargv, List.append_assoc]
        rfl
      · rw [List.map_cons, hstring, hstrings]

end Tokenise

/-! ## 2. When the arguments are the words -/

section Run

variable {args : CString}

/-- **Where `run` begins**, the string up to a space is the path and the first argument, empty if the space
comes at once; the other arguments are the words that follow. -/
theorem cmdRun_spawn {start : Nat} (hstart : (if args.head? = some space then 1 else 0) = start)
    (hzero : 0 ∉ args) (hne : args.drop start ≠ []) :
    cmdRun args = .spawn ((args.drop start).takeWhile (· ≠ space))
      (((args.drop start).takeWhile (· ≠ space) ::
        (words space (cutWord (args.take start) (args.drop start)).2).take (shellMaxArgs - 2)).map some ++
          [none]) := by
  have hzero' : 0 ∉ args.drop start := fun h => hzero (List.mem_of_mem_drop h)
  have hlen : (args.take start).length = start := by
    have hpos := List.length_pos_iff.mpr hne
    rw [List.length_drop] at hpos
    rw [List.length_take]
    omega
  have hstring := stringAt_tokenise (shellMaxArgs - 2) (args.take start) [] hne hzero'
  obtain ⟨new, hargv, hstrings⟩ := tokenise_spec (shellMaxArgs - 2)
    (cutWord (args.take start) (args.drop start)).1 _ [(args.take start).length]
    (notMem_cutWord (args.take start) hzero') (head_cutWord _ _)
  have hstep : tokenise (shellMaxArgs - 1) (args.take start) (args.drop start) [] =
      tokenise (shellMaxArgs - 2) (cutWord (args.take start) (args.drop start)).1
        (cutWord (args.take start) (args.drop start)).2 [(args.take start).length] := if_neg hne
  rw [show shellMaxArgs - 2 + 1 = shellMaxArgs - 1 from rfl, hstep, hlen] at hstring
  rw [hlen] at hargv hstrings hstep
  rw [cmdRun]
  simp only [hstart, if_neg hne, hstep, hargv, hstring, ← hstrings, List.map_cons, List.map_map,
    List.singleton_append]
  rfl

/-- Skipping a space does not lose a word. -/
theorem words_drop_start {start : Nat} (hstart : (if args.head? = some space then 1 else 0) = start) :
    words space (args.drop start) = words space args := by
  subst hstart
  split
  · rename_i hspace
    obtain ⟨rest, rfl⟩ := List.head?_eq_some_iff.mp hspace
    rw [words_sep]
    rfl
  · rfl

/-- A space that is left is the second one. -/
theorem head_drop_start_iff {start : Nat} (hstart : (if args.head? = some space then 1 else 0) = start) :
    (args.drop start).head? = some space ↔ [space, space] <+: args := by
  constructor
  · intro hhead
    obtain ⟨rest, hrest⟩ := List.head?_eq_some_iff.mp hhead
    have hfirst : args.head? = some space := by
      by_contra hother
      rw [if_neg hother] at hstart
      rw [← hstart] at hhead
      exact hother hhead
    obtain ⟨rest', rfl⟩ := List.head?_eq_some_iff.mp hfirst
    rw [if_pos hfirst] at hstart
    subst hstart
    rw [List.drop_one, List.tail_cons] at hrest
    exact ⟨rest, by rw [hrest]; rfl⟩
  · rintro ⟨rest, rfl⟩
    rw [if_pos (show ([space, space] ++ rest).head? = some space from rfl)] at hstart
    subst hstart
    rfl

/-- **The arguments are the words, just if at most one space comes first.** -/
theorem cmdRun_words_iff (args : CString) (hzero : 0 ∉ args) :
    RunsWords args ↔ ¬ [space, space] <+: args := by
  obtain ⟨start, hstart⟩ : ∃ start, (if args.head? = some space then 1 else 0) = start := ⟨_, rfl⟩
  have hwords := words_drop_start hstart
  rw [← head_drop_start_iff hstart]
  by_cases hne : args.drop start = []
  · have husage : cmdRun args = .usage := by
      rw [cmdRun]
      simp only [hstart, if_pos hne]
    have hnone : words space args = [] := by rw [← hwords, hne, words_nil]
    rw [RunsWords, husage, hne]
    exact iff_of_true hnone nofun
  · rw [RunsWords, cmdRun_spawn hstart hzero hne]
    dsimp only
    by_cases hhead : (args.drop start).head? = some space
    · -- The second space is taken for the end of a word that is empty.
      obtain ⟨rest, hrest⟩ := List.head?_eq_some_iff.mp hhead
      have hempty : (args.drop start).takeWhile (· ≠ space) = [] := by
        rw [hrest, List.takeWhile_cons_of_neg (by simp)]
      refine iff_of_false ?_ (not_not_intro hhead)
      rintro ⟨-, hpath⟩
      rw [hempty] at hpath
      exact nil_notMem_words (List.mem_of_mem_head? hpath)
    · have hall := cutWord_rest (args.take start) hhead hne
      rw [hwords] at hall
      rw [hall]
      exact iff_of_true ⟨rfl, rfl⟩ hhead

/-- `run snake a`, with two spaces before the `a`. -/
theorem cmdRun_words_iff_snake : RunsWords [0x20, 0x73, 0x6E, 0x61, 0x6B, 0x65, 0x20, 0x20, 0x61] :=
  (cmdRun_words_iff _ (by decide)).mpr (by decide)

/-- `run  snake`: the first argument is empty, and so is the path. -/
theorem run_two_spaces : cmdRun [0x20, 0x20, 0x73, 0x6E, 0x61, 0x6B, 0x65] =
    .spawn [] [some [], some [0x73, 0x6E, 0x61, 0x6B, 0x65], none] ∧
      ¬ RunsWords [0x20, 0x20, 0x73, 0x6E, 0x61, 0x6B, 0x65] := by
  have hrun : cmdRun [0x20, 0x20, 0x73, 0x6E, 0x61, 0x6B, 0x65] =
      .spawn [] [some [], some [0x73, 0x6E, 0x61, 0x6B, 0x65], none] := by decide
  refine ⟨hrun, ?_⟩
  rw [RunsWords, hrun]
  rintro ⟨-, hpath⟩
  exact nil_notMem_words (List.mem_of_mem_head? hpath)

end Run

/-! ## 3. `process_command` -/

/-- The entries of `commands`. -/
inductive Command where
  | help | clear | about | uptime | mem | date | ps | echo | ls | cat | mkdir | rm | run
deriving Repr, DecidableEq

/-- `name` -/
def Command.name : Command → CString
  | help => [0x68, 0x65, 0x6C, 0x70]
  | clear => [0x63, 0x6C, 0x65, 0x61, 0x72]
  | about => [0x61, 0x62, 0x6F, 0x75, 0x74]
  | uptime => [0x75, 0x70, 0x74, 0x69, 0x6D, 0x65]
  | mem => [0x6D, 0x65, 0x6D]
  | date => [0x64, 0x61, 0x74, 0x65]
  | ps => [0x70, 0x73]
  | echo => [0x65, 0x63, 0x68, 0x6F]
  | ls => [0x6C, 0x73]
  | cat => [0x63, 0x61, 0x74]
  | mkdir => [0x6D, 0x6B, 0x64, 0x69, 0x72]
  | rm => [0x72, 0x6D]
  | run => [0x72, 0x75, 0x6E]

/-- `commands`, in the order of the table. -/
def commands : List Command :=
  [.help, .clear, .about, .uptime, .mem, .date, .ps, .echo, .ls, .cat, .mkdir, .rm, .run]

/-- `starts_with`: what follows the prefix. -/
def startsWith : (str : CString) → (strPrefix : CString) → Option CString
  | str, [] => some str
  | [], _ :: _ => none
  | c :: str, p :: strPrefix => if c ≠ p then none else startsWith str strPrefix

/-- What `process_command` does: nothing, or it calls a handler, or it prints that it does not know the
command. -/
inductive Dispatch where
  | nothing
  | ran (c : Command) (args : CString)
  | unknown (line : CString)
deriving Repr, DecidableEq

/-- `process_command` -/
def processCommand (buffer : CString) : Dispatch :=
  if buffer = [] then .nothing
  else
    match commands.findSome? fun c => (startsWith buffer c.name).map (.ran c) with
    | some dispatch => dispatch
    | none =>
      match startsWith buffer Command.echo.name with
      | some echoText => .ran .echo echoText
      | none => .unknown buffer

/-- **A command is run by its name**: the handler of an entry is called just if the first word of the line
is its name, with what follows the word; and where there is no such entry, that is said. -/
def DispatchesWords (line : CString) : Prop :=
  match firstWord space line with
  | none => ∀ c args, processCommand line ≠ .ran c args
  | some (w, rest) => (∀ c, (∃ args, processCommand line = .ran c args) ↔ w = c.name) ∧
      (∀ c, w = c.name → processCommand line = .ran c rest) ∧
      ((∀ c : Command, w ≠ c.name) → processCommand line = .unknown line)

example : processCommand [0x6C, 0x73, 0x20, 0x2F] = .ran .ls [0x20, 0x2F] := by decide

section Dispatch

variable {line w rest args : CString} {c : Command}

theorem startsWith_eq_some {str strPrefix : CString} :
    startsWith str strPrefix = some rest ↔ str = strPrefix ++ rest := by
  induction strPrefix generalizing str with
  | nil =>
    rw [startsWith, List.nil_append]
    exact Option.some_inj
  | cons p strPrefix ih =>
    cases str with
    | nil => exact iff_of_false nofun nofun
    | cons x str =>
      rw [startsWith, List.cons_append, List.cons.injEq, ← ih]
      by_cases hx : x = p
      · rw [if_neg (not_not_intro hx)]
        exact ⟨fun h => ⟨hx, h⟩, And.right⟩
      · rw [if_pos hx]
        exact iff_of_false nofun fun h => hx h.1

/-- No name is the beginning of another. -/
theorem name_prefix_name {c d : Command} (h : c.name <+: d.name) : c = d := by
  revert h
  cases c <;> cases d <;> decide

theorem name_ne_nil (c : Command) : c.name ≠ [] := by
  cases c <;> exact List.cons_ne_nil _ _

theorem space_notMem_name (c : Command) : space ∉ c.name := by
  cases c <;> decide

theorem mem_commands (c : Command) : c ∈ commands := by
  cases c <;> decide

/-- Two names at the beginning of one line are the same. -/
theorem name_unique {c d : Command} {args' : CString} (h : c.name ++ args = d.name ++ args') : c = d := by
  have hprefix : c.name <+: d.name ++ args' := h ▸ List.prefix_append c.name args
  rcases List.prefix_or_prefix_of_prefix hprefix (List.prefix_append d.name args') with hcd | hdc
  · exact name_prefix_name hcd
  · exact (name_prefix_name hdc).symm

/-- **What is called** is the handler whose name the line begins with. -/
theorem processCommand_ran_iff : processCommand line = .ran c args ↔ line = c.name ++ args := by
  constructor
  · intro h
    rw [processCommand] at h
    split at h
    · cases h
    · split at h
      · rename_i hfound
        obtain ⟨d, -, hd⟩ := List.exists_of_findSome?_eq_some hfound
        rw [h] at hd
        obtain ⟨rest, hrest, heq⟩ := Option.map_eq_some_iff.mp hd
        cases heq
        exact startsWith_eq_some.mp hrest
      · split at h
        · rename_i hecho
          cases h
          exact startsWith_eq_some.mp hecho
        · cases h
  · intro h
    have hne : line ≠ [] := fun hnil => name_ne_nil c (List.append_eq_nil_iff.mp (h ▸ hnil)).1
    have hfound : (commands.findSome? fun d => (startsWith line d.name).map (Dispatch.ran d)) =
        some (.ran c args) := by
      have hsome : ((startsWith line c.name).map (Dispatch.ran c)).isSome = true := by
        rw [startsWith_eq_some.mpr h]
        rfl
      have hany : (commands.findSome? fun d => (startsWith line d.name).map (Dispatch.ran d)).isSome := by
        rw [List.findSome?_isSome_iff]
        exact ⟨c, mem_commands c, hsome⟩
      obtain ⟨x, hx⟩ := Option.isSome_iff_exists.mp hany
      obtain ⟨d, -, hd⟩ := List.exists_of_findSome?_eq_some hx
      obtain ⟨rest, hrest, rfl⟩ := Option.map_eq_some_iff.mp hd
      have hline := startsWith_eq_some.mp hrest
      obtain rfl := name_unique (h.symm.trans hline)
      rw [hx, List.append_cancel_left (h.symm.trans hline)]
    rw [processCommand, if_neg hne, hfound]

/-- **What is not known** is a line that begins with no name. -/
theorem processCommand_unknown_iff (hne : line ≠ []) :
    processCommand line = .unknown line ↔ ∀ (c : Command) (args : CString), line ≠ c.name ++ args := by
  constructor
  · intro h c args hline
    rw [processCommand_ran_iff.mpr hline] at h
    cases h
  · intro h
    have hstart : ∀ c : Command, startsWith line c.name = none := by
      intro c
      cases hc : startsWith line c.name with
      | none => rfl
      | some args => exact absurd (startsWith_eq_some.mp hc) (h c args)
    have hnone : (commands.findSome? fun c => (startsWith line c.name).map (Dispatch.ran c)) = none := by
      rw [List.findSome?_eq_none_iff]
      intro c _
      rw [hstart, Option.map_none]
    rw [processCommand, if_neg hne, hnone, hstart]

/-- The first word is longer than a name it begins with. -/
def ExtendsName (w : CString) : Prop := ∃ c : Command, c.name <+: w ∧ w ≠ c.name

/-- A name at the beginning of a line lies within its first word. -/
theorem name_prefix_word (hrest : rest = [] ∨ ∃ rest', rest = space :: rest')
    (h : w ++ rest = c.name ++ args) : c.name <+: w := by
  rcases List.append_eq_append_iff.mp h with ⟨more, hname, hrest'⟩ | ⟨more, hw, -⟩
  · rcases hrest with rfl | ⟨rest', rfl⟩
    · rw [List.nil_eq, List.append_eq_nil_iff] at hrest'
      rw [hname, hrest'.1, List.append_nil]
    · cases more with
      | nil =>
        rw [hname, List.append_nil]
      | cons x more =>
        rw [List.cons_append, List.cons.injEq] at hrest'
        refine absurd ?_ (space_notMem_name c)
        rw [hname, hrest'.1]
        simp
  · exact ⟨more, hw.symm⟩

/-- No name begins with a space. -/
theorem head_ne_space (h : line = c.name ++ args) : line.head? ≠ some space := by
  obtain ⟨x, name, hname⟩ := List.exists_cons_of_ne_nil (name_ne_nil c)
  rw [h, hname]
  intro hhead
  refine space_notMem_name c ?_
  rw [hname, ← Option.some.inj hhead]
  exact List.mem_cons_self

/-- A line that begins with a space runs nothing. -/
theorem dispatchesWords_space (hhead : line.head? = some space) : DispatchesWords line ↔
    ∀ w rest, firstWord space line = some (w, rest) → ∀ c : Command, w ≠ c.name := by
  have hne : line ≠ [] := fun hnil => by rw [hnil] at hhead; cases hhead
  have hran : ∀ (c : Command) (args : CString), processCommand line ≠ .ran c args :=
    fun c args h => head_ne_space (processCommand_ran_iff.mp h) hhead
  have hunknown : processCommand line = .unknown line :=
    (processCommand_unknown_iff hne).mpr fun c args h => head_ne_space h hhead
  rw [DispatchesWords]
  cases hfirst : firstWord space line with
  | none => exact iff_of_true hran nofun
  | some x =>
    obtain ⟨w, rest⟩ := x
    constructor
    · rintro ⟨hiff, -, -⟩ w' rest' heq c hw
      cases heq
      obtain ⟨args, hargs⟩ := (hiff c).mpr hw
      exact hran c args hargs
    · intro h
      have hw := h w rest rfl
      exact ⟨fun c => iff_of_false (fun ⟨args, hargs⟩ => hran c args hargs) (hw c),
        fun c hc => absurd hc (hw c), fun _ => hunknown⟩

/-- Which handlers a line can call, by its first word. -/
theorem ran_iff_prefix_word (hline : w ++ rest = line) (hrest : rest = [] ∨ ∃ rest', rest = space :: rest') :
    (∃ args, processCommand line = .ran c args) ↔ c.name <+: w := by
  constructor
  · rintro ⟨args, hargs⟩
    exact name_prefix_word hrest (hline.trans (processCommand_ran_iff.mp hargs))
  · rintro ⟨more, rfl⟩
    rw [List.append_assoc] at hline
    exact ⟨more ++ rest, processCommand_ran_iff.mpr hline.symm⟩

/-- A line that begins with a word runs the command with that name, or one that the word begins with. -/
theorem dispatchesWords_word (hline : w ++ rest = line) (hne : line ≠ [])
    (hrest : rest = [] ∨ ∃ rest', rest = space :: rest') (hfirst : firstWord space line = some (w, rest)) :
    DispatchesWords line ↔ ¬ ExtendsName w := by
  have hran := fun c : Command => @ran_iff_prefix_word line w rest c hline hrest
  rw [DispatchesWords, hfirst]
  constructor
  · rintro ⟨hiff, -, -⟩ ⟨c, hc, hw⟩
    exact hw ((hiff c).mp ((hran c).mpr hc))
  · intro hextends
    refine ⟨fun c => ⟨fun hc => ?_, fun hw => ?_⟩, fun c hw => ?_, fun hw => ?_⟩
    · by_contra hw
      exact hextends ⟨c, (hran c).mp hc, hw⟩
    · exact (hran c).mpr (hw ▸ List.prefix_rfl)
    · rw [← hline, hw]
      exact processCommand_ran_iff.mpr rfl
    · refine (processCommand_unknown_iff hne).mpr fun c args h => ?_
      exact hextends ⟨c, name_prefix_word hrest (hline.trans h), hw c⟩

/-- **A command is run by its name**, just if no space comes before it, and the first word is not one
that begins with a name and goes on. -/
theorem processCommand_word_iff (line : CString) : DispatchesWords line ↔
    ∀ w rest, firstWord space line = some (w, rest) →
      if line.head? = some space then ∀ c : Command, w ≠ c.name else ¬ ExtendsName w := by
  by_cases hhead : line.head? = some space
  · simp only [if_pos hhead]
    exact dispatchesWords_space hhead
  · simp only [if_neg hhead]
    by_cases hne : line = []
    · subst hne
      exact iff_of_true nofun nofun
    · have hfirst := firstWord_of_head hne hhead
      rw [dispatchesWords_word List.takeWhile_append_dropWhile hne (dropWhile_ne_cases space line) hfirst,
        hfirst]
      constructor
      · intro h w rest heq
        cases heq
        exact h
      · exact fun h => h _ _ rfl

/-- `lsx`: the word is the name of no command, and `ls` is run. -/
theorem longer_word_runs_ls : processCommand [0x6C, 0x73, 0x78] = .ran .ls [0x78] ∧
    ¬ DispatchesWords [0x6C, 0x73, 0x78] := by
  have hran : processCommand [0x6C, 0x73, 0x78] = .ran .ls [0x78] := by decide
  refine ⟨hran, ?_⟩
  rintro ⟨hiff, -, -⟩
  exact absurd ((hiff .ls).mp ⟨[0x78], hran⟩) (by decide)

end Dispatch

end AcornOS
