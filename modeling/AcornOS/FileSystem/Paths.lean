/-
# Paths as strings and paths as components

A path is cut at its slashes, and two pieces of `vfs.c` treat it as a plain string nevertheless.

* `vfs_find_mount` takes the longest mount point that is an initial part of the path, whether or not it
  ends where a component ends.  **`find_mount_respects_iff`**: it finds the mount that owns the path BY
  COMPONENTS exactly when every mount point that merely begins like the path is shorter than one that
  owns it.
* `vfs_resolve_path` and the three splitters copy characters into buffers of 64 without counting them.
  `Mounted.accesses` lists what a call reads and writes, for ANY file systems that are mounted, and
  **`path_accesses_inBounds_iff`** says for which paths all of it is in bounds.
-/
import AcornOS.FileSystem.Names

namespace AcornOS

open Lib

/-! ## 1. Which mount owns a path -/

/-- A mount point owns a path: it is the path, or `/`, or the path goes on with a `/` behind it. -/
def MountOwns (mountPoint path : CString) : Prop :=
  path = mountPoint ∨ mountPoint = [slash] ∨ mountPoint ++ [slash] <+: path

instance (mountPoint path : CString) : Decidable (MountOwns mountPoint path) :=
  inferInstanceAs (Decidable (_ ∨ _ ∨ _))

/-- The mount with the longest mount point that owns the path. -/
structure OwnedBy (mountPoint : Nat → CString) (mountCount : Nat) (path : CString) (i : Nat) :
    Prop where
  lt : i < mountCount
  owns : MountOwns (mountPoint i) path
  longest : ∀ j < mountCount, MountOwns (mountPoint j) path →
    (mountPoint j).length ≤ (mountPoint i).length

section OwnedBy

variable {mountPoint : Nat → CString} {mountCount i j : Nat} {path : CString}

/-- What owns an absolute path is an initial part of it. -/
theorem MountOwns.isPrefix {m : CString} (h : MountOwns m path) (habs : path.head? = some slash) :
    m <+: path := by
  rcases h with rfl | rfl | h
  · exact List.prefix_rfl
  · cases path with
    | nil => cases habs
    | cons c path =>
      obtain rfl := Option.some.inj habs
      exact ⟨path, rfl⟩
  · exact (List.prefix_append m [slash]).trans h

/-- Initial parts of one path that are equally long are equal, and so are the mounts if no two have the
same mount point. -/
theorem eq_of_length_eq (hdistinct : ∀ i < mountCount, ∀ j < mountCount,
      mountPoint i = mountPoint j → i = j) (hi : i < mountCount) (hj : j < mountCount)
    (hpi : mountPoint i <+: path) (hpj : mountPoint j <+: path)
    (hlen : (mountPoint i).length = (mountPoint j).length) : i = j := by
  refine hdistinct i hi j hj ?_
  rw [List.prefix_iff_eq_take.mp hpi, List.prefix_iff_eq_take.mp hpj, hlen]

/-- The mount that serves a path owns it, if any initial part that does not is outdone by one that
does. -/
theorem Serves.ownedBy (habs : path.head? = some slash) (h : Serves mountPoint mountCount path i)
    (hbetter : ∀ j < mountCount, mountPoint j <+: path → ¬ MountOwns (mountPoint j) path →
      ∃ k < mountCount, MountOwns (mountPoint k) path ∧ (mountPoint j).length < (mountPoint k).length) :
    OwnedBy mountPoint mountCount path i := by
  refine ⟨h.lt, ?_, fun j hj howns => h.longest j hj (howns.isPrefix habs)⟩
  by_contra hnot
  obtain ⟨k, hk, howns, hlt⟩ := hbetter i h.lt h.isPre hnot
  have := h.longest k hk (howns.isPrefix habs)
  omega

/-- ... and then there is no other owner. -/
theorem OwnedBy.unique (habs : path.head? = some slash) (hdistinct : ∀ i < mountCount,
      ∀ j < mountCount, mountPoint i = mountPoint j → i = j)
    (hi : OwnedBy mountPoint mountCount path i) (hj : OwnedBy mountPoint mountCount path j) :
    i = j := by
  refine eq_of_length_eq hdistinct hi.lt hj.lt (hi.owns.isPrefix habs) (hj.owns.isPrefix habs) ?_
  exact Nat.le_antisymm (hj.longest i hi.lt hi.owns) (hi.longest j hj.lt hj.owns)

end OwnedBy

/-- `vfs_find_mount` finds the mount that owns the path, and a path that no mount owns resolves to
nothing. -/
structure FileSystem.FindsOwner (fs : FileSystem) (path : CString) : Prop where
  found : ∀ i, vfsFindMount fs path = some i ↔ OwnedBy fs.mountPoint fs.mountCount path i
  missing : vfsFindMount fs path = none ↔ ∀ i < fs.mountCount, ¬ MountOwns (fs.mountPoint i) path
  outside : (∀ i < fs.mountCount, ¬ MountOwns (fs.mountPoint i) path) → vfsResolvePath fs path = .ok none

/-- **Mount lookup respects components iff no mount point merely begins like the path**, or if it does
it is shorter than one that owns the path. -/
theorem find_mount_respects_iff (fs : FileSystem) (path : CString) (habs : path.head? = some slash)
    (hdistinct : ∀ i < fs.mountCount, ∀ j < fs.mountCount,
      fs.mountPoint i = fs.mountPoint j → i = j) :
    fs.FindsOwner path ↔
      ∀ i < fs.mountCount, fs.mountPoint i <+: path → ¬ MountOwns (fs.mountPoint i) path →
        ∃ k < fs.mountCount, MountOwns (fs.mountPoint k) path ∧
          (fs.mountPoint i).length < (fs.mountPoint k).length := by
  constructor
  · intro h i hi hpre hnot
    cases hfind : vfsFindMount fs path with
    | none => exact absurd hpre (findMount_eq_none.mp hfind i hi)
    | some k =>
      have hk := (h.found k).mp hfind
      have hle := (findMount_eq_some.mp hfind).longest i hi hpre
      refine ⟨k, hk.lt, hk.owns, Nat.lt_of_le_of_ne hle fun hlen => hnot ?_⟩
      rw [eq_of_length_eq hdistinct hi hk.lt hpre (hk.owns.isPrefix habs) hlen]
      exact hk.owns
  · intro hbetter
    have hnone : vfsFindMount fs path = none ↔
        ∀ i < fs.mountCount, ¬ MountOwns (fs.mountPoint i) path := by
      refine findMount_eq_none.trans ⟨fun h i hi howns => h i hi (howns.isPrefix habs), ?_⟩
      intro h i hi hpre
      obtain ⟨k, hk, howns, -⟩ := hbetter i hi hpre (h i hi)
      exact h k hk howns
    refine ⟨fun i => ⟨fun hfind => (findMount_eq_some.mp hfind).ownedBy habs hbetter, ?_⟩, hnone, ?_⟩
    · intro hi
      cases hfind : vfsFindMount fs path with
      | none => exact absurd hi.owns (hnone.mp hfind i hi.lt)
      | some k =>
        rw [hi.unique habs hdistinct ((findMount_eq_some.mp hfind).ownedBy habs hbetter)]
    · intro hall
      rw [vfsResolvePath, hnone.mpr hall]

/-- `/home` -/
def homePath : CString := [0x2F, 0x68, 0x6F, 0x6D, 0x65]

/-- One file system on `/` and another on `/home`. -/
def homeFs : FileSystem :=
  let fs := (shadowfsMount .vfsInit 65536 0x1000 [slash] 1048576).2
  (shadowfsMount fs 65536 0x2000 homePath 1048576).2

theorem homeFs_distinct : ∀ i < homeFs.mountCount, ∀ j < homeFs.mountCount,
    homeFs.mountPoint i = homeFs.mountPoint j → i = j := by
  decide +kernel

/-- `/home/work` is found below `/home`. -/
theorem find_mount_respects_home : homeFs.FindsOwner (homePath ++ [0x2F, 0x77, 0x6F, 0x72, 0x6B]) :=
  (find_mount_respects_iff homeFs _ rfl homeFs_distinct).mpr (by decide +kernel)

/-- **`/homework` is looked for below `/home`**, and it is a path of the file system on `/`. -/
theorem homework_found_in_home :
    (homePath ++ [0x77, 0x6F, 0x72, 0x6B]).head? = some slash ∧
      (∀ i < homeFs.mountCount, ∀ j < homeFs.mountCount,
        homeFs.mountPoint i = homeFs.mountPoint j → i = j) ∧
      vfsFindMount homeFs (homePath ++ [0x77, 0x6F, 0x72, 0x6B]) = some 1 ∧
      ¬ homeFs.FindsOwner (homePath ++ [0x77, 0x6F, 0x72, 0x6B]) := by
  have hfind : vfsFindMount homeFs (homePath ++ [0x77, 0x6F, 0x72, 0x6B]) = some 1 := by
    decide +kernel
  refine ⟨rfl, homeFs_distinct, hfind, fun h => ?_⟩
  exact absurd ((h.found 1).mp hfind).owns (by decide +kernel)

/-! ## 2. What the path handling touches

The loops of `vfs.c` over the characters of a path, each as the list of what it reads and writes.  A
buffer that is too short does not stop a loop: the list goes on as if it were long enough, and what
matters is whether everything on it is in bounds. -/

/-- A character of a string is read, or one of the two buffers on the stack is written. -/
inductive Access where
  | read (s : CString) (i : Nat)
  | component (i : Nat)
  | parentPath (i : Nat)
deriving Repr, DecidableEq

/-- A string may be read up to its terminator. -/
def Access.InBounds : Access → Prop
  | .read s i => i ≤ s.length
  | .component i => i < vfsMaxName
  | .parentPath i => i < vfsMaxPath

instance : DecidablePred Access.InBounds
  | .read .. => inferInstanceAs (Decidable (_ ≤ _))
  | .component _ => inferInstanceAs (Decidable (_ < _))
  | .parentPath _ => inferInstanceAs (Decidable (_ < _))

section Loops

variable (path : CString)

/-- `kstrlen` -/
def kstrlenReads : List Access := (List.range (path.length + 1)).map (.read path)

/-- `kstrcpy` of what begins at `start`, up to the terminator or to `VFS_MAX_NAME - 1` characters. -/
def kstrcpyReads (start : Nat) : List Access :=
  (List.range (min (path.length - start) (vfsMaxName - 1) + 1)).map fun i => .read path (start + i)

/-- The comparison of `vfs_find_mount` with one mount point, which stops at the first difference. -/
def prefixReads : CString → CString → Nat → List Access
  | [], _, _ => []
  | m :: mount, rest, j =>
    .read path j :: if rest.head? = some m then prefixReads mount rest.tail (j + 1) else []

/-- `kstrcmp` of the path with a mount point: one of them has ended, or they differ. -/
def kstrcmpReads : CString → CString → Nat → List Access
  | m :: mount, c :: rest, j =>
    .read path j :: if c = m then kstrcmpReads mount rest (j + 1) else []
  | _, _, j => [.read path j]

/-- `while(*path && *path != '/') component[i++] = *path++;` and `component[i] = 0;`.  What is left of
the path begins at `pos`. -/
def copyAccesses : CString → Nat → Nat → List Access
  | [], pos, i => [.read path pos, .component i]
  | c :: rest, pos, i =>
    if c = slash then [.read path pos, .component i]
    else .read path pos :: .component i :: copyAccesses rest (pos + 1) (i + 1)

/-- What is left of a path behind its first component, and behind the slash there. -/
def afterComponent (rest : CString) : CString := (rest.dropWhile (· ≠ slash)).tail

theorem length_afterComponent_lt {rest : CString} (h : rest ≠ []) :
    (afterComponent rest).length < rest.length := by
  have hle := (List.dropWhile_suffix (fun c => decide (c ≠ slash)) (l := rest)).length_le
  have hpos := List.length_pos_iff.mpr h
  rw [afterComponent, List.length_tail]
  omega

variable {σ : Type} (lookup : σ → Nat → CString → Except Fault (Option Nat × σ))

/-- The loop of `vfs_resolve_path` over what is left of the path, which begins at `pos`. -/
def walkAccesses : CString → Nat → Nat → σ → List Access
  | [], pos, _, _ => [.read path pos]
  | c :: cs, pos, current, s =>
    let component := (c :: cs).takeWhile (· ≠ slash)
    let next := if slash ∈ c :: cs then pos + component.length + 1 else pos + component.length
    copyAccesses path (c :: cs) pos 0 ++ .read path (pos + component.length) ::
      if component = [] then walkAccesses (afterComponent (c :: cs)) next current s
      else
        match lookup s current component with
        | .ok (some inode, s) => walkAccesses (afterComponent (c :: cs)) next inode s
        | _ => []
termination_by rest => rest.length
decreasing_by all_goals exact length_afterComponent_lt (List.cons_ne_nil c cs)

/-- The components that the walk copies: those it finds, and the first one that it does not. -/
def copied : List CString → Nat → σ → List CString
  | [], _, _ => []
  | name :: names, current, s =>
    name ::
      match lookup s current name with
      | .ok (some inode, s) => copied names inode s
      | _ => []

end Loops

/-- The mounted file systems, whose lookups work on a state of type `σ`. -/
structure Mounted (σ : Type) where
  mountPoint : Nat → CString
  mountCount : Nat
  root : Nat → Nat
  lookup : σ → Nat → CString → Except Fault (Option Nat × σ)

/-- A call of a user program that takes a path. -/
inductive PathCall where
  | open (path : CString) (flags : BitVec 32)
  | mkdir (path : CString)
  | delete (path : CString)

/-- The splitting of a path in `vfs_open_file`, `vfs_mkdir` and `vfs_delete`. -/
def splitAccesses (path : CString) : List Access :=
  let first := (lastSlash path).getD 0
  kstrlenReads path ++ (List.range' first (path.length - first)).reverse.map (.read path) ++
    match lastSlash path with
    | some (i + 1) =>
      (List.range (i + 1)).flatMap (fun j => [.read path j, .parentPath j]) ++
        .parentPath (i + 1) :: kstrcpyReads path (i + 2)
    | _ => .parentPath 0 :: .parentPath 1 :: kstrcpyReads path 1

namespace Mounted

variable {σ : Type} (m : Mounted σ)

/-- `vfs_resolve_path` -/
def resolve (path : CString) (s : σ) : Except Fault (Option Nat × σ) :=
  match findMount m.mountPoint m.mountCount path with
  | none => .ok (none, s)
  | some i => resolveIn m.lookup (m.mountPoint i) (m.root i) path s

/-- Where the walk begins: behind the mount point, and behind a slash there. -/
def start (i : Nat) (path : CString) : Nat :=
  let mlen := (m.mountPoint i).length
  if (path.drop mlen).head? = some slash then mlen + 1 else mlen

def resolveAccesses (path : CString) (s : σ) : List Access :=
  (List.range m.mountCount).flatMap (fun i => prefixReads path (m.mountPoint i) path 0) ++
    match findMount m.mountPoint m.mountCount path with
    | none => []
    | some i =>
      if m.root i = 0 then []
      else
        kstrcmpReads path (m.mountPoint i) path 0 ++
          if path = m.mountPoint i then []
          else
            -- path[0] == '/' && path[1] == 0
            .read path 0 :: (if path.head? = some slash then [.read path 1] else []) ++
              if path = [slash] then []
              else
                .read path (m.mountPoint i).length ::
                  walkAccesses path m.lookup (path.drop (m.start i path)) (m.start i path) (m.root i) s

/-- Splitting the path and resolving its parent. -/
def parentAccesses (path : CString) (s : σ) : List Access :=
  splitAccesses path ++
    match splitPath path with
    | .error _ => []
    | .ok (parentPath, _) => m.resolveAccesses parentPath s

/-- What a call does to the path and to the two buffers. -/
def accesses (s : σ) : PathCall → List Access
  | .open path flags =>
    m.resolveAccesses path s ++
      match m.resolve path s with
      | .ok (none, s) => if Sets flags oCreat then m.parentAccesses path s else []
      | _ => []
  | .mkdir path => m.parentAccesses path s
  | .delete path => m.parentAccesses path s

/-- The components that the walk along a path copies. -/
def copiedOf (path : CString) (s : σ) : List CString :=
  match findMount m.mountPoint m.mountCount path with
  | none => []
  | some i =>
    if m.root i = 0 ∨ path = m.mountPoint i ∨ path = [slash] then []
    else copied m.lookup (components (belowMount (m.mountPoint i) path)) (m.root i) s

/-- Every component that the walk gets to has room in `component[VFS_MAX_NAME]`. -/
def WalkFits (path : CString) (s : σ) : Prop := ∀ name ∈ m.copiedOf path s, name.length < vfsMaxName

end Mounted

/-- The path has a first character to step over, and its last slash is at one of the first 64. -/
def SplitFits (path : CString) : Prop := path ≠ [] ∧ ∀ i, lastSlash path = some i → i < vfsMaxPath

namespace Mounted

variable {σ : Type} (m : Mounted σ)

def ParentFits (path : CString) (s : σ) : Prop :=
  SplitFits path ∧ ∀ parentPath name, splitPath path = .ok (parentPath, name) → m.WalkFits parentPath s

/-- What a path has to satisfy.  Only a path that is not found is split by `vfs_open`. -/
def Fits (s : σ) : PathCall → Prop
  | .open path flags => m.WalkFits path s ∧
      ∀ s', m.resolve path s = .ok (none, s') → Sets flags oCreat → m.ParentFits path s'
  | .mkdir path => m.ParentFits path s
  | .delete path => m.ParentFits path s

end Mounted

/-! ## 3. When all of it is in bounds -/

section InBounds

variable {path : CString}

theorem read_inBounds {pos n : Nat} (h : pos + n = path.length) : (Access.read path pos).InBounds :=
  Nat.le.intro h

theorem component_inBounds {i : Nat} : (Access.component i).InBounds ↔ i < vfsMaxName := Iff.rfl

theorem kstrlenReads_inBounds : ∀ x ∈ kstrlenReads path, x.InBounds := by
  intro x hx
  obtain ⟨i, hi, rfl⟩ := List.mem_map.mp hx
  exact Nat.le_of_lt_succ (List.mem_range.mp hi)

/-- `kstrcpy` reads nothing beyond the terminator unless it begins there. -/
theorem kstrcpyReads_inBounds_iff {start : Nat} :
    (∀ x ∈ kstrcpyReads path start, x.InBounds) ↔ start ≤ path.length := by
  constructor
  · intro h
    exact h (.read path start) (List.mem_map.mpr ⟨0, by simp, rfl⟩)
  · intro hle x hx
    obtain ⟨i, hi, rfl⟩ := List.mem_map.mp hx
    rw [List.mem_range] at hi
    have : i ≤ path.length - start := Nat.le_of_lt_succ (lt_of_lt_of_le hi (by omega))
    exact (Nat.add_le_add_left this start).trans (by omega)

theorem prefixReads_inBounds : ∀ (mount rest : CString) (j : Nat), j + rest.length = path.length →
    ∀ x ∈ prefixReads path mount rest j, x.InBounds
  | [], _, _, _, _, hx => absurd hx List.not_mem_nil
  | m :: mount, rest, j, hlen, x, hx => by
    rcases List.mem_cons.mp hx with rfl | hx
    · exact read_inBounds hlen
    · split at hx
      · rename_i hhead
        cases rest with
        | nil => cases hhead
        | cons c rest =>
          exact prefixReads_inBounds mount rest (j + 1) (by rw [← hlen, List.length_cons]; omega) x hx
      · cases hx

theorem kstrcmpReads_inBounds : ∀ (mount rest : CString) (j : Nat), j + rest.length = path.length →
    ∀ x ∈ kstrcmpReads path mount rest j, x.InBounds
  | [], rest, j, hlen, x, hx => by
    obtain rfl := List.mem_singleton.mp (by simpa [kstrcmpReads] using hx)
    exact read_inBounds hlen
  | m :: mount, [], j, hlen, x, hx => by
    obtain rfl := List.mem_singleton.mp (by simpa [kstrcmpReads] using hx)
    exact read_inBounds hlen
  | m :: mount, c :: rest, j, hlen, x, hx => by
    rcases List.mem_cons.mp hx with rfl | hx
    · exact read_inBounds hlen
    · split at hx
      · exact kstrcmpReads_inBounds mount rest (j + 1) (by rw [← hlen, List.length_cons]; omega) x hx
      · cases hx

/-- Copying a component stays in the buffer iff there is room for it and its terminator. -/
theorem copyAccesses_inBounds_iff : ∀ (rest : CString) (pos i : Nat),
    pos + rest.length = path.length →
      ((∀ x ∈ copyAccesses path rest pos i, x.InBounds) ↔
        i + (rest.takeWhile (· ≠ slash)).length < vfsMaxName)
  | [], pos, i, hlen => by
    have hpos := read_inBounds hlen
    simp [copyAccesses, hpos, component_inBounds]
  | c :: rest, pos, i, hlen => by
    have hpos := read_inBounds hlen
    rw [copyAccesses]
    split
    · rename_i hc
      simp [hc, hpos, component_inBounds]
    · rename_i hc
      have ih := copyAccesses_inBounds_iff rest (pos + 1) (i + 1) (by
        rw [← hlen, List.length_cons]
        omega)
      rw [List.forall_mem_cons, List.forall_mem_cons, ih, List.takeWhile_cons_of_pos (by simpa using hc),
        List.length_cons]
      simp only [hpos, true_and, component_inBounds]
      omega

/-- Cutting at slashes, from the first piece on. -/
theorem splitOn_slash (rest : CString) : rest.splitOn slash = rest.takeWhile (· ≠ slash) ::
    if slash ∈ rest then (afterComponent rest).splitOn slash else [] := by
  induction rest with
  | nil => simp
  | cons c rest ih =>
    rw [List.splitOn_cons_eq_if_modifyHead]
    by_cases hc : c = slash
    · simp [hc, afterComponent]
    · have hne : (c == slash) = false := by simpa using hc
      simp only [hne, Bool.false_eq_true, if_false]
      rw [ih, List.modifyHead_cons, List.takeWhile_cons_of_pos (by simpa using hc)]
      simp [afterComponent, hc, Ne.symm hc]

/-- Without a slash nothing is left. -/
theorem afterComponent_of_notMem {rest : CString} (h : slash ∉ rest) : afterComponent rest = [] := by
  have hdrop : rest.dropWhile (fun c => decide (c ≠ slash)) = [] := by
    rw [List.dropWhile_eq_nil_iff]
    intro c hc
    simpa using fun heq : c = slash => h (heq ▸ hc)
  rw [afterComponent, hdrop, List.tail_nil]

/-- The components of a path, from the first one on. -/
theorem components_eq (rest : CString) : components rest =
    if rest.takeWhile (· ≠ slash) = [] then components (afterComponent rest)
    else rest.takeWhile (· ≠ slash) :: components (afterComponent rest) := by
  have hrest : (if slash ∈ rest then (afterComponent rest).splitOn slash else []).filter (· ≠ []) =
      components (afterComponent rest) := by
    split
    · rfl
    · rename_i hmem
      rw [afterComponent_of_notMem hmem]
      rfl
  unfold components at hrest ⊢
  rw [splitOn_slash, List.filter_cons, hrest]
  split <;> simp_all

/-- Where the next component begins. -/
theorem length_afterComponent (rest : CString) :
    (rest.takeWhile (· ≠ slash)).length + (if slash ∈ rest then 1 else 0) +
      (afterComponent rest).length = rest.length := by
  induction rest with
  | nil => simp [afterComponent]
  | cons c rest ih =>
    by_cases hc : c = slash
    · simp [hc, afterComponent]
      omega
    · have hafter : afterComponent (c :: rest) = afterComponent rest := by
        simp [afterComponent, hc]
      have hmem : slash ∈ c :: rest ↔ slash ∈ rest := by simp [Ne.symm hc]
      rw [hafter, List.takeWhile_cons_of_pos (by simpa using hc)]
      simp only [hmem, List.length_cons]
      omega

/-- **The walk stays in bounds iff every component it copies fits.** -/
theorem walkAccesses_inBounds_iff {σ : Type}
    {lookup : σ → Nat → CString → Except Fault (Option Nat × σ)} :
    ∀ (rest : CString) (pos current : Nat) (s : σ), pos + rest.length = path.length →
      ((∀ x ∈ walkAccesses path lookup rest pos current s, x.InBounds) ↔
        ∀ name ∈ copied lookup (components rest) current s, name.length < vfsMaxName)
  | [], pos, current, s, hlen => by
    have hnone : components [] = [] := rfl
    simp [walkAccesses, copied, hnone, read_inBounds hlen]
  | c :: cs, pos, current, s, hlen => by
    have hafter := length_afterComponent (c :: cs)
    have hnext : (if slash ∈ c :: cs then pos + ((c :: cs).takeWhile (· ≠ slash)).length + 1
        else pos + ((c :: cs).takeWhile (· ≠ slash)).length) + (afterComponent (c :: cs)).length =
        path.length := by
      split <;> simp_all <;> omega
    have hread : (Access.read path (pos + ((c :: cs).takeWhile (· ≠ slash)).length)).InBounds := by
      refine Nat.le_trans ?_ hlen.le
      omega
    have hcopy := copyAccesses_inBounds_iff (c :: cs) pos 0 hlen
    have ih := fun inode s' =>
      @walkAccesses_inBounds_iff σ lookup (afterComponent (c :: cs)) _ inode s' hnext
    rw [walkAccesses, components_eq]
    simp only [List.forall_mem_append, List.forall_mem_cons, hcopy, hread, true_and, Nat.zero_add]
    by_cases hempty : (c :: cs).takeWhile (fun x => decide (x ≠ slash)) = []
    · simp only [hempty, if_true, List.length_nil] at ih ⊢
      rw [ih]
      simp [vfsMaxName]
    · rw [if_neg hempty, if_neg hempty, copied, List.forall_mem_cons]
      refine and_congr_right fun _ => ?_
      match hl : lookup s current ((c :: cs).takeWhile fun x => decide (x ≠ slash)) with
      | .ok (some inode, s') => exact ih inode s'
      | .ok (none, _) => simp
      | .error _ => simp
termination_by rest => rest.length
decreasing_by exact length_afterComponent_lt (List.cons_ne_nil c cs)

theorem lastSlash_lt {i : Nat} (h : lastSlash path = some i) : i < path.length := by
  have := List.mem_of_find?_eq_some h
  simpa using this

/-- The scan for the last slash. -/
theorem scan_inBounds (first : Nat) :
    ∀ x ∈ (List.range' first (path.length - first)).reverse.map (Access.read path), x.InBounds := by
  intro x hx
  obtain ⟨i, hi, rfl⟩ := List.mem_map.mp hx
  have := List.mem_range'_1.mp (List.mem_reverse.mp hi)
  exact (show i ≤ path.length by omega)

/-- Copying the parent. -/
theorem parentCopy_inBounds {n : Nat} (hlen : n ≤ path.length) (hn : n ≤ vfsMaxPath) :
    ∀ x ∈ (List.range n).flatMap (fun j => [Access.read path j, Access.parentPath j]),
      x.InBounds := by
  intro x hx
  obtain ⟨j, hj, hx⟩ := List.mem_flatMap.mp hx
  rw [List.mem_range] at hj
  rcases List.mem_cons.mp hx with rfl | hx
  · exact hj.le.trans hlen
  · obtain rfl := List.mem_singleton.mp hx
    exact Nat.lt_of_lt_of_le hj hn

/-- **The splitting stays in bounds** iff there is a character to step over and the last slash is not
too far. -/
theorem splitAccesses_inBounds_iff :
    (∀ x ∈ splitAccesses path, x.InBounds) ↔ SplitFits path := by
  unfold splitAccesses SplitFits
  rw [List.forall_mem_append, List.forall_mem_append,
    and_iff_right ⟨kstrlenReads_inBounds, scan_inBounds _⟩]
  match hlast : lastSlash path with
  | none =>
    have hfront : (Access.parentPath 0).InBounds ∧ (Access.parentPath 1).InBounds := by decide
    simp only [List.forall_mem_cons, hfront, true_and, kstrcpyReads_inBounds_iff]
    simp [Nat.one_le_iff_ne_zero]
  | some 0 =>
    have hfront : (Access.parentPath 0).InBounds ∧ (Access.parentPath 1).InBounds := by decide
    have hlt := lastSlash_lt hlast
    have hne := List.ne_nil_of_length_pos hlt
    simp only [List.forall_mem_cons, hfront, true_and, kstrcpyReads_inBounds_iff]
    refine ⟨fun _ => ⟨hne, fun i hi => ?_⟩, fun _ => hlt⟩
    obtain rfl := Option.some.inj hi
    decide
  | some (i + 1) =>
    have hlt := lastSlash_lt hlast
    have hne := List.ne_nil_of_length_pos ((Nat.zero_lt_succ i).trans hlt)
    constructor
    · intro h
      refine ⟨hne, fun j hj => ?_⟩
      obtain rfl := Option.some.inj hj
      exact h (.parentPath (i + 1)) (by simp)
    · rintro ⟨-, hfits⟩
      have hfits := hfits _ rfl
      rw [List.forall_mem_append, List.forall_mem_cons]
      exact ⟨parentCopy_inBounds hlt.le hfits.le, hfits, kstrcpyReads_inBounds_iff.mpr hlt⟩

end InBounds

namespace Mounted

variable {σ : Type} {m : Mounted σ} {path : CString} {i : Nat} {s : σ}

/-- What is left below the mount point is what begins at `start`. -/
theorem belowMount_eq : belowMount (m.mountPoint i) path = path.drop (m.start i path) := by
  simp only [belowMount, start]
  split
  · rw [List.tail_drop]
  · rfl

theorem start_le (h : m.mountPoint i <+: path) : m.start i path ≤ path.length := by
  have hle := h.length_le
  simp only [start]
  split
  · rename_i hhead
    by_contra hgt
    rw [List.drop_eq_nil_of_le (by omega)] at hhead
    cases hhead
  · exact hle

/-- **`vfs_resolve_path` stays in bounds iff the components it copies fit.** -/
theorem resolveAccesses_inBounds_iff :
    (∀ x ∈ m.resolveAccesses path s, x.InBounds) ↔ m.WalkFits path s := by
  have hmounts : ∀ x ∈ (List.range m.mountCount).flatMap
      (fun i => prefixReads path (m.mountPoint i) path 0), x.InBounds := by
    intro x hx
    obtain ⟨i, -, hx⟩ := List.mem_flatMap.mp hx
    exact prefixReads_inBounds _ path 0 (Nat.zero_add _) x hx
  unfold resolveAccesses WalkFits copiedOf
  rw [List.forall_mem_append, and_iff_right hmounts]
  cases hfind : findMount m.mountPoint m.mountCount path with
  | none => simp
  | some i =>
    have hpre := (findMount_eq_some.mp hfind).isPre
    by_cases hroot : m.root i = 0
    · simp [hroot]
    have hcmp := kstrcmpReads_inBounds (m.mountPoint i) path 0 (Nat.zero_add path.length)
    simp only [hroot, if_false, false_or, List.forall_mem_append, and_iff_right hcmp]
    by_cases hpoint : path = m.mountPoint i
    · simp [hpoint]
    have hfirst : ∀ x ∈ Access.read path 0 ::
        (if path.head? = some slash then [Access.read path 1] else []), x.InBounds := by
      intro x hx
      rcases List.mem_cons.mp hx with rfl | hx
      · exact Nat.zero_le _
      · split at hx
        · rename_i hhead
          obtain rfl := List.mem_singleton.mp hx
          cases path with
          | nil => cases hhead
          | cons c path => exact Nat.succ_le_succ (Nat.zero_le _)
        · cases hx
    simp only [hpoint, if_false, false_or, List.forall_mem_append, and_iff_right hfirst]
    by_cases hslash : path = [slash]
    · simp [hslash]
    have hstart := start_le hpre
    have hwalk := @walkAccesses_inBounds_iff path σ m.lookup (path.drop (m.start i path))
      (m.start i path) (m.root i) s (by rw [List.length_drop]; omega)
    simp only [hslash, if_false, List.forall_mem_cons, hwalk, belowMount_eq]
    exact and_iff_right hpre.length_le

theorem parentAccesses_inBounds_iff :
    (∀ x ∈ m.parentAccesses path s, x.InBounds) ↔ m.ParentFits path s := by
  unfold parentAccesses ParentFits
  rw [List.forall_mem_append, splitAccesses_inBounds_iff]
  refine and_congr_right fun _ => ?_
  match splitPath path with
  | .error _ => simp
  | .ok (parentPath, name) =>
    simp only [resolveAccesses_inBounds_iff, Except.ok.injEq, Prod.mk.injEq]
    exact ⟨fun h _ _ heq => heq.1 ▸ h, fun h => h parentPath name ⟨rfl, rfl⟩⟩

end Mounted

/-! ## 4. The same bounds in the model of the calls

There a call that leaves a buffer has no result but `Fault.overrun`. -/

section Overrun

variable {σ : Type} {lookup : σ → Nat → CString → Except Fault (Option Nat × σ)}

theorem walkPath_overrun_iff (hlookup : ∀ s d name, lookup s d name ≠ .error .overrun) :
    ∀ (names : List CString) (current : Nat) (s : σ),
      walkPath lookup names current s = .error .overrun ↔
        ¬ ∀ name ∈ copied lookup names current s, name.length < vfsMaxName
  | [], _, _ => by simp [walkPath, copied]
  | name :: names, current, s => by
    rw [walkPath, copied, List.forall_mem_cons]
    by_cases hlong : name.length ≥ vfsMaxName
    · simp [hlong, Nat.not_lt.mpr hlong]
    · rw [if_neg hlong, and_iff_right (Nat.lt_of_not_le hlong)]
      cases hl : lookup s current name with
      | error e =>
        have hne : e ≠ .overrun := fun he => hlookup s current name (he ▸ hl)
        simp [bind, Except.bind, hne]
      | ok r =>
        obtain ⟨found, s'⟩ := r
        cases found with
        | none => simp [bind, Except.bind]
        | some inode => exact walkPath_overrun_iff hlookup names inode s'

/-- The walk faults iff a component that it copies does not fit. -/
theorem Mounted.resolve_overrun_iff {m : Mounted σ}
    (hlookup : ∀ s d name, m.lookup s d name ≠ .error .overrun) (path : CString) (s : σ) :
    m.resolve path s = .error .overrun ↔ ¬ m.WalkFits path s := by
  unfold resolve WalkFits copiedOf resolveIn
  cases findMount m.mountPoint m.mountCount path with
  | none => simp
  | some i =>
    by_cases hroot : m.root i = 0
    · simp [hroot]
    by_cases hpoint : path = m.mountPoint i
    · simp [hroot, hpoint]
    by_cases hslash : path = [slash]
    · simp [hroot, hslash]
    simpa [hroot, hpoint, hslash] using walkPath_overrun_iff hlookup _ _ s

/-- The splitting faults iff the path does not fit. -/
theorem splitPath_overrun_iff (path : CString) :
    splitPath path = .error .overrun ↔ ¬ SplitFits path := by
  unfold splitPath SplitFits
  match hlast : lastSlash path with
  | some (i + 1) =>
    have hne := List.ne_nil_of_length_pos ((Nat.zero_lt_succ i).trans (lastSlash_lt hlast))
    by_cases hlt : i + 1 < vfsMaxPath
    · simp [hlt, hne]
    · simp [hlt]
  | some 0 =>
    cases path with
    | nil => cases lastSlash_lt hlast
    | cons c path => simp [vfsMaxPath]
  | none =>
    cases path with
    | nil => simp
    | cons c path => simp

end Overrun

/-- ShadowFS mounts. -/
def FileSystem.mounts (fs : FileSystem) : Mounted FileSystem where
  mountPoint := fs.mountPoint
  mountCount := fs.mountCount
  root i := (fs.mountTable i).root
  lookup fs dir name := (shadowfsLookup fs dir name).map (·, fs)

theorem shadowfsLookup_ne_overrun (fs : FileSystem) (d : Nat) (name : CString) :
    shadowfsLookup fs d name ≠ .error .overrun := by
  unfold shadowfsLookup FileSystem.deref
  cases fs.inodes d with
  | none => simp [bind, Except.bind]
  | some n => cases hdata : n.privateData <;> simp [bind, Except.bind, hdata]

/-- `vfs_resolve_path` over shadowFS faults iff a component does not fit. -/
theorem vfsResolvePath_overrun_iff (fs : FileSystem) (path : CString) :
    vfsResolvePath fs path = .error .overrun ↔ ¬ fs.mounts.WalkFits path fs := by
  have hlookup : ∀ s d name, fs.mounts.lookup s d name ≠ .error .overrun := by
    intro s d name h
    have hne := shadowfsLookup_ne_overrun s d name
    change (shadowfsLookup s d name).map (·, s) = .error .overrun at h
    cases hl : shadowfsLookup s d name with
    | ok r =>
      rw [hl] at h
      cases h
    | error e =>
      rw [hl] at h hne
      obtain rfl := Except.error.inj h
      exact hne rfl
  have hmap : vfsResolvePath fs path = (fs.mounts.resolve path fs).map Prod.fst := by
    unfold vfsResolvePath Mounted.resolve
    change (match findMount fs.mountPoint fs.mountCount path with | none => _ | some i => _) =
      Except.map Prod.fst (match findMount fs.mountPoint fs.mountCount path with | none => _ | some i => _)
    cases findMount fs.mountPoint fs.mountCount path <;> rfl
  rw [hmap, ← Mounted.resolve_overrun_iff hlookup]
  cases fs.mounts.resolve path fs <;> simp [Except.map]

/-- **Path handling stays inside its buffers iff the path fits**: every component that is looked up is
shorter than 64 characters, and a path that is split has a character and its last slash among the first
64. -/
theorem path_accesses_inBounds_iff {σ : Type} (m : Mounted σ) (s : σ) (call : PathCall) :
    (∀ x ∈ m.accesses s call, x.InBounds) ↔ m.Fits s call := by
  cases call with
  | «open» path flags =>
    simp only [Mounted.accesses, Mounted.Fits, List.forall_mem_append,
      Mounted.resolveAccesses_inBounds_iff]
    refine and_congr_right fun _ => ?_
    match hres : m.resolve path s with
    | .ok (none, s') =>
      by_cases hcreat : Sets flags oCreat
      · simp [hcreat, Mounted.parentAccesses_inBounds_iff]
      · simp [hcreat]
    | .ok (some inode, s') => simp
    | .error _ => simp
  | mkdir path => exact Mounted.parentAccesses_inBounds_iff
  | delete path => exact Mounted.parentAccesses_inBounds_iff

/-- **A component of 64 characters is copied past the end of its buffer.** -/
theorem long_component_overruns :
    ¬ ∀ x ∈ homeFs.mounts.accesses homeFs (.open (slash :: List.replicate 64 0x61) oRdonly),
      x.InBounds := by
  intro h
  have hwalk := Mounted.resolveAccesses_inBounds_iff.mp (List.forall_mem_append.mp h).1
  have hlong := hwalk (List.replicate 64 0x61) (by decide +kernel)
  rw [List.length_replicate] at hlong
  exact absurd hlong (by decide)

end AcornOS
