/-
# Resolving a path is a fold of lookups

`vfs_resolve_path` does not cut a path into a list of names first.  One loop over a moving pointer copies
a name, ends it, steps over a slash, drops the name if it is empty and looks it up otherwise.  `scanPath`
is that loop, character by character, over ANY file systems: the lookup of an inode is the operation its
`ops` hold, if they hold one.

* **`scanPath_eq`**: the loop is `walkPath` over the components, for every string, long names included.
  `vfsResolvePath`, which the other modules use, is therefore the loop over shadowFS
  (`vfsResolvePath_eq_scan`).
* **`resolve_path_fold`**: below a mount point the result is the fold of the lookups over the components,
  and slashes put in beside others or at the end do not change it AS LONG AS the same mount serves the
  path.

The last condition is needed.  A mount point is compared as a string (`Paths.lean`), so a slash more can
lead to another mount: `slash_changes_mount`.
-/
import AcornOS.FileSystem.Paths

namespace AcornOS

open Lib

/-! ## 1. The loop over the characters -/

/-- `while(*path && *path != '/') component[i++] = *path++;`: the name copied so far, and what is left of
the path. -/
def copyComponent : CString → CString → CString × CString
  | component, [] => (component, [])
  | component, c :: path =>
    if c = slash then (component, c :: path) else copyComponent (component ++ [c]) path

/-- `if(*path == '/') path++;` -/
def skipSlash : CString → CString
  | [] => []
  | c :: path => if c = slash then path else c :: path

theorem copyComponent_eq : ∀ (path component : CString), copyComponent component path =
    (component ++ path.takeWhile (· ≠ slash), path.dropWhile (· ≠ slash))
  | [], component => by simp [copyComponent]
  | c :: path, component => by
    rw [copyComponent]
    by_cases hc : c = slash
    · simp [hc]
    · rw [if_neg hc, copyComponent_eq path]
      simp [hc]

theorem skipSlash_dropWhile (path : CString) :
    skipSlash (path.dropWhile (· ≠ slash)) = afterComponent path := by
  induction path with
  | nil => rfl
  | cons c path ih =>
    by_cases hc : c = slash
    · simp [hc, skipSlash, afterComponent]
    · rw [List.dropWhile_cons_of_pos (by simpa using hc), ih]
      simp [afterComponent, hc]

/-- One round of the loop, up to the lookup: the name and where the next round begins. -/
theorem skipSlash_copyComponent (path : CString) :
    (copyComponent [] path).1 = path.takeWhile (· ≠ slash) ∧
      skipSlash (copyComponent [] path).2 = afterComponent path := by
  rw [copyComponent_eq]
  exact ⟨List.nil_append _, skipSlash_dropWhile path⟩

section Scan

variable {σ : Type}

/-- `current->ops->lookup` of the inodes, `none` where `ops` or the operation in it is NULL. -/
abbrev LookupOps (σ : Type) := σ → Nat → Option (CString → Except Fault (Option Nat × σ))

variable (ops : LookupOps σ)

/-- Looking a name up; where there is no operation nothing is found. -/
def LookupOps.lookup (s : σ) (inode : Nat) (name : CString) : Except Fault (Option Nat × σ) :=
  match ops s inode with
  | none => .ok (none, s)
  | some lookup => lookup name

/-- The loop of `vfs_resolve_path`. -/
def scanPath : CString → Nat → σ → Except Fault (Option Nat × σ)
  | [], current, s => .ok (some current, s)
  | c :: cs, current, s =>
    let component := (copyComponent [] (c :: cs)).1
    let path := skipSlash (copyComponent [] (c :: cs)).2
    -- component[i] = 0
    if component.length ≥ vfsMaxName then .error .overrun
    else if component = [] then scanPath path current s
    else
      match ops s current with
      | none => .ok (none, s)
      | some lookup => do
        let (next, s) ← lookup component
        match next with
        | none => .ok (none, s)
        | some next => scanPath path next s
termination_by path => path.length
decreasing_by
  all_goals
    rw [(skipSlash_copyComponent (c :: cs)).2]
    exact length_afterComponent_lt (List.cons_ne_nil c cs)

/-- **The loop over the characters is the loop over the components.** -/
theorem scanPath_eq (path : CString) (current : Nat) (s : σ) :
    scanPath ops path current s = walkPath ops.lookup (components path) current s := by
  induction hn : path.length using Nat.strong_induction_on generalizing path current s with
  | _ n ih =>
  subst hn
  cases path with
  | nil =>
    rw [scanPath]
    rfl
  | cons c cs =>
    have hlt := length_afterComponent_lt (List.cons_ne_nil c cs)
    obtain ⟨hname, hafter⟩ := skipSlash_copyComponent (c :: cs)
    rw [scanPath, components_eq]
    simp only [hname, hafter]
    by_cases hempty : (c :: cs).takeWhile (· ≠ slash) = []
    · simp only [hempty, List.length_nil]
      exact ih _ hlt _ current s rfl
    · simp only [if_neg hempty, walkPath, LookupOps.lookup]
      split
      · rfl
      · cases ops s current with
        | none => rfl
        | some lookup =>
          refine bind_congr fun found => ?_
          obtain ⟨_ | next, s⟩ := found
          · rfl
          · exact ih _ hlt _ next s rfl

/-- The step of the fold: the inode found so far, if any, and the state the lookups have left. -/
def lookupNext : Option Nat × σ → CString → Except Fault (Option Nat × σ)
  | (none, s), _ => .ok (none, s)
  | (some inode, s), name => ops.lookup s inode name

theorem foldlM_lookupNext_none (names : List CString) (s : σ) :
    names.foldlM (lookupNext ops) (none, s) = .ok (none, s) := by
  induction names with
  | nil => rfl
  | cons name names ih => exact ih

/-- The walk over names that all have room in the buffer. -/
theorem walkPath_eq_foldlM : ∀ (names : List CString) (current : Nat) (s : σ),
    (∀ name ∈ names, name.length < vfsMaxName) →
      walkPath ops.lookup names current s = names.foldlM (lookupNext ops) (some current, s)
  | [], _, _, _ => rfl
  | name :: names, current, s, hfit => by
    rw [List.forall_mem_cons] at hfit
    rw [walkPath, if_neg (by omega), List.foldlM_cons]
    refine bind_congr fun found => ?_
    obtain ⟨_ | next, s⟩ := found
    · exact (foldlM_lookupNext_none ops names s).symm
    · exact walkPath_eq_foldlM names next s hfit.2

end Scan

/-! ## 2. The whole function -/

/-- The mount table, and the operations of the inodes. -/
structure MountedOps (σ : Type) where
  mountPoint : Nat → CString
  mountCount : Nat
  root : Nat → Nat
  ops : LookupOps σ

namespace MountedOps

variable {σ : Type} (t : MountedOps σ)

/-- `vfs_resolve_path` -/
def resolvePath (path : CString) (s : σ) : Except Fault (Option Nat × σ) :=
  match findMount t.mountPoint t.mountCount path with
  | none => .ok (none, s)
  | some i =>
    if t.root i = 0 then .ok (none, s)
    else if path = t.mountPoint i then .ok (some (t.root i), s)
    else if path = [slash] then .ok (some (t.root i), s)
    else scanPath t.ops (skipSlash (path.drop (t.mountPoint i).length)) (t.root i) s

/-- The table with one lookup for all inodes. -/
def toMounted : Mounted σ where
  mountPoint := t.mountPoint
  mountCount := t.mountCount
  root := t.root
  lookup := t.ops.lookup

/-- The mount's root inode, if it has one. -/
def rootOf (i : Nat) : Option Nat := if t.root i = 0 then none else some (t.root i)

end MountedOps

theorem skipSlash_drop (mountPoint path : CString) :
    skipSlash (path.drop mountPoint.length) = belowMount mountPoint path := by
  rw [belowMount]
  cases path.drop mountPoint.length with
  | nil => rfl
  | cons c rest => simp [skipSlash]

/-- Scanning a path and resolving it by components are the same. -/
theorem MountedOps.resolvePath_eq {σ : Type} (t : MountedOps σ) (path : CString) (s : σ) :
    t.resolvePath path s = t.toMounted.resolve path s := by
  rw [resolvePath, Mounted.resolve]
  cases hfind : findMount t.mountPoint t.mountCount path with
  | none => simp [toMounted, hfind]
  | some i =>
    simp only [toMounted, hfind, resolveIn, scanPath_eq, skipSlash_drop]
    rfl

/-- shadowFS mounts: every inode, a file's too, has the operations `shadowfs_ops`. -/
def FileSystem.mountedOps (fs : FileSystem) : MountedOps FileSystem where
  mountPoint := fs.mountPoint
  mountCount := fs.mountCount
  root i := (fs.mountTable i).root
  ops fs inode := some fun name => (shadowfsLookup fs inode name).map (·, fs)

theorem vfsResolvePath_eq_scan (fs : FileSystem) (path : CString) :
    vfsResolvePath fs path = (fs.mountedOps.resolvePath path fs).map Prod.fst := by
  rw [MountedOps.resolvePath_eq, vfsResolvePath, Mounted.resolve]
  cases hfind : vfsFindMount fs path with
  | none =>
    rw [vfsFindMount] at hfind
    simp [MountedOps.toMounted, FileSystem.mountedOps, hfind, Except.map]
  | some i =>
    rw [vfsFindMount] at hfind
    simp [MountedOps.toMounted, FileSystem.mountedOps, hfind]
    rfl

/-! ## 3. Extra slashes -/

/-- The second string is the first with slashes put in: in front, beside another one, or at the end. -/
inductive MoreSlashes : CString → CString → Prop
  | refl (rest : CString) : MoreSlashes rest rest
  | front (rest : CString) : MoreSlashes rest (slash :: rest)
  | beside (a b : CString) : MoreSlashes (a ++ slash :: b) (a ++ slash :: slash :: b)
  | back (rest : CString) : MoreSlashes rest (rest ++ [slash])
  | trans {a b c : CString} : MoreSlashes a b → MoreSlashes b c → MoreSlashes a c

theorem MoreSlashes.components_eq {rest rest' : CString} (h : MoreSlashes rest rest') :
    components rest' = components rest := by
  induction h with
  | refl => rfl
  | front rest => exact components_append_slash [] rest
  | beside a b =>
    rw [components_append_slash, components_append_slash]
    exact congrArg _ (components_append_slash [] b)
  | back rest =>
    rw [components_append_slash]
    exact List.append_nil _
  | trans _ _ ih₁ ih₂ => exact ih₂.trans ih₁

theorem belowMount_append_slash (mountPoint rest : CString) :
    belowMount mountPoint (mountPoint ++ slash :: rest) = rest := by
  simp [belowMount]

/-- A path that goes on behind its mount point: the fold from the mount's root. -/
theorem MountedOps.resolvePath_below {σ : Type} (t : MountedOps σ) (s : σ) {i : Nat} {rest : CString}
    (hfind : findMount t.mountPoint t.mountCount (t.mountPoint i ++ slash :: rest) = some i)
    (hnames : ∀ name ∈ components rest, name.length ≤ 63) :
    t.resolvePath (t.mountPoint i ++ slash :: rest) s =
      (components rest).foldlM (lookupNext t.ops) (t.rootOf i, s) := by
  have hfit : ∀ name ∈ components rest, name.length < vfsMaxName := fun name hname =>
    Nat.lt_succ_of_le (hnames name hname)
  have hne : t.mountPoint i ++ slash :: rest ≠ t.mountPoint i := by simp
  simp only [resolvePath, hfind, rootOf, if_neg hne]
  by_cases hroot : t.root i = 0
  · rw [if_pos hroot, if_pos hroot, foldlM_lookupNext_none]
  · rw [if_neg hroot, if_neg hroot]
    split
    · -- the path is a single slash, and nothing is left of it
      rename_i hslash
      have hrest : rest = [] := by
        have hlen := congrArg List.length hslash
        rw [List.length_append, List.length_cons, List.length_singleton] at hlen
        exact List.length_eq_zero_iff.mp (by omega)
      rw [hrest]
      rfl
    · rw [scanPath_eq, skipSlash_drop, belowMount_append_slash, walkPath_eq_foldlM t.ops _ _ _ hfit]

/-- **Path resolution is a fold of lookups**, whatever file systems are mounted, from the mount's root and
over the components of what follows the mount point; and slashes more do not change its result as long as
the same mount serves the path. -/
theorem resolve_path_fold {σ : Type} (t : MountedOps σ) (s : σ) {i : Nat} {rest : CString}
    (hfind : findMount t.mountPoint t.mountCount (t.mountPoint i ++ slash :: rest) = some i)
    (hnames : ∀ name ∈ components rest, name.length ≤ 63) :
    t.resolvePath (t.mountPoint i ++ slash :: rest) s =
        (components rest).foldlM (lookupNext t.ops) (t.rootOf i, s) ∧
      ∀ rest', MoreSlashes rest rest' →
        findMount t.mountPoint t.mountCount (t.mountPoint i ++ slash :: rest') = some i →
          t.resolvePath (t.mountPoint i ++ slash :: rest') s =
            t.resolvePath (t.mountPoint i ++ slash :: rest) s := by
  refine ⟨t.resolvePath_below s hfind hnames, fun rest' hmore hfind' => ?_⟩
  have hsame := hmore.components_eq
  rw [t.resolvePath_below s hfind hnames, t.resolvePath_below s hfind' (hsame ▸ hnames), hsame]

/-- `/home/a/b` and `/home/a///b/` on `/` and `/home`. -/
theorem resolve_path_fold_home :
    findMount homeFs.mountPoint homeFs.mountCount (homePath ++ slash :: [0x61, slash, 0x62]) = some 1 ∧
      homeFs.mountedOps.resolvePath (homePath ++ slash :: [0x61, slash, slash, slash, 0x62, slash])
          homeFs =
        homeFs.mountedOps.resolvePath (homePath ++ slash :: [0x61, slash, 0x62]) homeFs := by
  have hmore : MoreSlashes [0x61, slash, 0x62] [0x61, slash, slash, slash, 0x62, slash] :=
    ((MoreSlashes.beside [0x61] [0x62]).trans (.beside [0x61] [slash, 0x62])).trans
      (.back [0x61, slash, slash, slash, 0x62])
  exact ⟨by decide +kernel,
    (@resolve_path_fold FileSystem homeFs.mountedOps homeFs 1 [0x61, slash, 0x62] (by decide +kernel)
      (by decide +kernel)).2 _ hmore (by decide +kernel)⟩

/-- One file system on `/a` and another on `/a/b/`. -/
def nestedFs : FileSystem :=
  let fs := (shadowfsMount .vfsInit 65536 0x1000 [slash, 0x61] 1048576).2
  (shadowfsMount fs 65536 0x2000 [slash, 0x61, slash, 0x62, slash] 1048576).2

/-- **A slash more leads to another mount**: `/a/b` is looked up below `/a` and does not exist, and
`/a/b/` is the root of the other file system. -/
theorem slash_changes_mount :
    nestedFs.mountPoint 0 = [slash, 0x61] ∧
      vfsFindMount nestedFs (nestedFs.mountPoint 0 ++ slash :: [0x62]) = some 0 ∧
      (∀ name ∈ components [0x62], name.length ≤ 63) ∧ MoreSlashes [0x62] [0x62, slash] ∧
      (nestedFs.mountedOps.resolvePath (nestedFs.mountPoint 0 ++ slash :: [0x62]) nestedFs).map
        Prod.fst = .ok none ∧
      (nestedFs.mountedOps.resolvePath (nestedFs.mountPoint 0 ++ slash :: [0x62, slash]) nestedFs).map
        Prod.fst = .ok (some 0x2000) := by
  refine ⟨by decide +kernel, by decide +kernel, by decide +kernel, .back [0x62], ?_, ?_⟩
  · rw [← vfsResolvePath_eq_scan]
    decide +kernel
  · rw [← vfsResolvePath_eq_scan]
    decide +kernel

end AcornOS
