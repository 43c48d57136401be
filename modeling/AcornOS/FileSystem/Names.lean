/-
# Names

What a path names, apart from how `vfs_resolve_path` finds it.

* `follow` goes from directory to directory along the entries; a file has none.  `resolve` is that walk
  from the root of the mount that serves the path.
* **`vfsResolvePath_spec`**: the loop of the source returns exactly this.  It takes a file for a
  directory only when a file is ON THE WAY (`PassesFile`), and it never meets a freed inode.
* `findMount_eq_some`: which mount serves a path.
-/
import AcornOS.FileSystem.Tree

namespace AcornOS

open Lib Relation

/-! ## 1. Mount points -/

section FindMount

variable {mountPoint : Nat → CString} {mountCount i : Nat} {path : CString}

/-- The mount `i` serves the path: no mount point that is an initial part of the path is longer, and no
earlier one is as long. -/
structure Serves (mountPoint : Nat → CString) (mountCount : Nat) (path : CString) (i : Nat) : Prop where
  lt : i < mountCount
  isPre : mountPoint i <+: path
  longest : ∀ j < mountCount, mountPoint j <+: path → (mountPoint j).length ≤ (mountPoint i).length
  first : ∀ j < i, mountPoint j <+: path → (mountPoint j).length < (mountPoint i).length

/-- What the loop knows after the first `n` mounts. -/
def BestOf (mountPoint : Nat → CString) (path : CString) (n : Nat) : Option Nat → Prop
  | none => ∀ j < n, ¬ mountPoint j <+: path
  | some i => Serves mountPoint n path i

theorem findMount_spec :
    BestOf mountPoint path mountCount (findMount mountPoint mountCount path) := by
  refine loop_invariant (I := BestOf mountPoint path) (fun j hj => absurd hj (Nat.not_lt_zero j)) ?_
  intro n best _ hbest
  cases best with
  | none =>
    simp only [Option.all_none, Bool.and_true, List.isPrefixOf_iff_prefix]
    by_cases hpre : mountPoint n <+: path
    · simp only [hpre, if_true]
      refine ⟨Nat.lt_succ_self n, hpre, fun j hj hj' => ?_, fun j hj hj' => absurd hj' (hbest j hj)⟩
      rcases Nat.lt_succ_iff_lt_or_eq.mp hj with hlt | rfl
      · exact absurd hj' (hbest j hlt)
      · exact le_rfl
    · simp only [hpre, if_false]
      intro j hj
      rcases Nat.lt_succ_iff_lt_or_eq.mp hj with hlt | rfl
      · exact hbest j hlt
      · exact hpre
  | some b =>
    simp only [Option.all_some, Bool.and_eq_true, List.isPrefixOf_iff_prefix, decide_eq_true_eq]
    by_cases hpre : mountPoint n <+: path ∧ (mountPoint b).length < (mountPoint n).length
    · rw [if_pos hpre]
      refine ⟨Nat.lt_succ_self n, hpre.1, fun j hj hj' => ?_, fun j hj hj' => ?_⟩
      · rcases Nat.lt_succ_iff_lt_or_eq.mp hj with hlt | rfl
        · exact (hbest.longest j hlt hj').trans hpre.2.le
        · exact le_rfl
      · exact (hbest.longest j hj hj').trans_lt hpre.2
    · rw [if_neg hpre]
      refine ⟨Nat.lt_succ_of_lt hbest.lt, hbest.isPre, fun j hj hj' => ?_, hbest.first⟩
      rcases Nat.lt_succ_iff_lt_or_eq.mp hj with hlt | rfl
      · exact hbest.longest j hlt hj'
      · exact Nat.le_of_not_lt fun hlt => hpre ⟨hj', hlt⟩

theorem findMount_eq_none : findMount mountPoint mountCount path = none ↔
    ∀ j < mountCount, ¬ mountPoint j <+: path := by
  have hspec := @findMount_spec mountPoint mountCount path
  constructor
  · intro h
    rw [h] at hspec
    exact hspec
  · intro h
    cases hfind : findMount mountPoint mountCount path with
    | none => rfl
    | some i =>
      rw [hfind] at hspec
      exact absurd hspec.isPre (h i hspec.lt)

/-- At most one mount serves a path. -/
theorem Serves.unique {j : Nat} (hi : Serves mountPoint mountCount path i)
    (hj : Serves mountPoint mountCount path j) : i = j := by
  have h₁ := hi.longest j hj.lt hj.isPre
  have h₂ := hj.longest i hi.lt hi.isPre
  rcases Nat.lt_trichotomy i j with hlt | heq | hlt
  · exact absurd (hj.first i hlt hi.isPre) (by omega)
  · exact heq
  · exact absurd (hi.first j hlt hj.isPre) (by omega)

/-- **`vfs_find_mount`** -/
theorem findMount_eq_some : findMount mountPoint mountCount path = some i ↔
    Serves mountPoint mountCount path i := by
  have hspec := @findMount_spec mountPoint mountCount path
  constructor
  · intro h
    rw [h] at hspec
    exact hspec
  · intro h
    cases hfind : findMount mountPoint mountCount path with
    | none =>
      rw [hfind] at hspec
      exact absurd h.isPre (hspec i h.lt)
    | some j =>
      rw [hfind] at hspec
      rw [h.unique hspec]

end FindMount

/-! ## 2. Following entries -/

namespace FileSystem

/-- The inode a directory has under a name. -/
def lookup (fs : FileSystem) (d : Nat) (name : CString) : Option Nat :=
  ((fs.entriesOf d).find? fun e => e.name = name).map ShadowfsDentry.inode

/-- Following names from an inode on. -/
def follow (fs : FileSystem) : List CString → Nat → Option Nat
  | [], d => some d
  | name :: names, d => (fs.lookup d name).bind (fs.follow names)

/-- What a path names. -/
def resolve (fs : FileSystem) (path : CString) : Option Nat :=
  match vfsFindMount fs path with
  | none => none
  | some i =>
    if (fs.mountTable i).root = 0 then none
    else if path = fs.mountPoint i then some (fs.mountTable i).root
    else if path = [slash] then some (fs.mountTable i).root
    else fs.follow (components (belowMount (fs.mountPoint i) path)) (fs.mountTable i).root

/-- Some proper initial part of the names leads to a file. -/
def FollowsFile (fs : FileSystem) (names : List CString) (d : Nat) : Prop :=
  ∃ ns b, ns <+: names ∧ ns ≠ names ∧ fs.follow ns d = some b ∧ fs.IsFile b

/-- A file is on the way along the path. -/
def PassesFile (fs : FileSystem) (path : CString) : Prop :=
  ∃ i, vfsFindMount fs path = some i ∧ (fs.mountTable i).root ≠ 0 ∧ path ≠ fs.mountPoint i ∧
    path ≠ [slash] ∧
    fs.FollowsFile (components (belowMount (fs.mountPoint i) path)) (fs.mountTable i).root

variable {fs : FileSystem} {a b d : Nat} {name : CString} {names : List CString} {path : CString}

theorem lookup_eq_some : fs.lookup d name = some b →
    ∃ e ∈ fs.entriesOf d, e.name = name ∧ e.inode = b := by
  intro h
  obtain ⟨e, he, rfl⟩ := Option.map_eq_some_iff.mp h
  exact ⟨e, List.mem_of_find?_eq_some he, by simpa using List.find?_some he, rfl⟩

theorem Ok.lookup_live (hfs : fs.Ok) (h : fs.lookup d name = some b) : fs.inodes b ≠ none := by
  obtain ⟨e, he, -, rfl⟩ := lookup_eq_some h
  exact hfs.live d e he

theorem Ok.follow_live (hfs : fs.Ok) : ∀ {names : List CString} {d : Nat}, fs.inodes d ≠ none →
    fs.follow names d = some b → fs.inodes b ≠ none
  | [], d, hd, h => Option.some.inj h ▸ hd
  | name :: names, d, _, h => by
    obtain ⟨c, hc, h⟩ := Option.bind_eq_some_iff.mp h
    exact hfs.follow_live (hfs.lookup_live hc) h

theorem Ok.root_live (hfs : fs.Ok) {i : Nat} (h : (fs.mountTable i).root ≠ 0) :
    fs.inodes (fs.mountTable i).root ≠ none := by
  obtain ⟨n, hn, -⟩ := (hfs.roots i h).1
  rw [hn]
  simp

/-- What a path names has not been freed. -/
theorem Ok.resolve_live (hfs : fs.Ok) (h : fs.resolve path = some b) : fs.inodes b ≠ none := by
  unfold resolve at h
  split at h
  · cases h
  · split at h
    · cases h
    · rename_i hroot
      split at h
      · exact Option.some.inj h ▸ hfs.root_live hroot
      · split at h
        · exact Option.some.inj h ▸ hfs.root_live hroot
        · exact hfs.follow_live (hfs.root_live hroot) h

/-! ## 3. The loop of `vfs_resolve_path` -/

/-- `shadowfs_lookup` in an inode that has not been freed. -/
theorem shadowfsLookup_spec (h : fs.inodes d ≠ none) :
    Ensures (shadowfsLookup fs d name) (fun e => e = .wrongView ∧ fs.IsFile d)
      (fun r => r = fs.lookup d name) := by
  obtain ⟨n, hn⟩ := Option.ne_none_iff_exists'.mp h
  rw [shadowfsLookup, deref_eq hn]
  cases hdata : n.privateData with
  | file blocks count =>
    simp only [bind, Except.bind, hdata, ensures_error, true_and]
    exact isFile_iff.mpr ⟨n, blocks, count, hn, hdata⟩
  | dir entries count =>
    simp only [bind, Except.bind, hdata, ensures_ok, lookup, entriesOf_dir hn hdata]

/-- **The walk.** -/
theorem walkPath_spec (hfs : fs.Ok) : ∀ (names : List CString) (d : Nat), fs.inodes d ≠ none →
    Ensures (walkPath (fun fs dir name => (shadowfsLookup fs dir name).map (·, fs)) names d fs)
      (fun e => (e = .overrun ∧ ∃ name ∈ names, vfsMaxName ≤ name.length) ∨
        (e = .wrongView ∧ fs.FollowsFile names d))
      (fun r => r = (fs.follow names d, fs))
  | [], d, _ => by
    rw [walkPath, ensures_ok]
    rfl
  | name :: names, d, hd => by
    rw [walkPath]
    split
    · rename_i hlong
      exact ensures_error.mpr (Or.inl ⟨rfl, name, List.mem_cons_self, hlong⟩)
    have hlookup := @shadowfsLookup_spec fs d name hd
    cases hl : shadowfsLookup fs d name with
    | error e =>
      obtain ⟨rfl, hfile⟩ := hlookup.of_error hl
      refine ensures_error.mpr (Or.inr ⟨rfl, [], d, List.nil_prefix, ?_, rfl, hfile⟩)
      exact (List.cons_ne_nil name names).symm
    | ok r =>
      obtain rfl := hlookup.of_ok hl
      cases hr : fs.lookup d name with
      | none =>
        simp only [bind, Except.bind, Except.map, ensures_ok, follow, hr, Option.bind_none]
      | some c =>
        have ih := walkPath_spec hfs names c (hfs.lookup_live hr)
        simp only [bind, Except.bind, Except.map]
        refine ih.mono (fun e he => ?_) fun r hr' => ?_
        · rcases he with ⟨he, long, hmem, hlong⟩ | ⟨he, ns, b, hpre, hne, hns, hb⟩
          · exact Or.inl ⟨he, long, List.mem_cons_of_mem name hmem, hlong⟩
          · refine Or.inr ⟨he, name :: ns, b, ?_, ?_, ?_, hb⟩
            · exact (List.prefix_cons_inj name).mpr hpre
            · simpa using hne
            · rw [follow, hr]
              exact hns
        · rw [hr', follow, hr]
          rfl

end FileSystem

/-- The components of a path are no longer than the path. -/
theorem length_le_of_mem_components {path name : CString} (h : name ∈ components path) :
    name.length ≤ path.length := by
  have hsplit : ∀ path : CString, ∀ name ∈ path.splitOn slash, name.length ≤ path.length := by
    intro path
    induction path with
    | nil => simp
    | cons c path ih =>
      intro name hname
      rw [List.splitOn_cons_eq_if_modifyHead] at hname
      split at hname
      · rcases List.mem_cons.mp hname with rfl | hname
        · exact Nat.zero_le _
        · exact (ih name hname).trans (Nat.le_succ _)
      · cases hparts : path.splitOn slash with
        | nil => exact absurd hparts (List.splitOn_ne_nil slash path)
        | cons first rest =>
          rw [hparts, List.modifyHead_cons] at hname
          rw [hparts] at ih
          rcases List.mem_cons.mp hname with rfl | hname
          · exact Nat.succ_le_succ (ih first List.mem_cons_self)
          · exact (ih name (List.mem_cons_of_mem first hname)).trans (Nat.le_succ _)
  exact hsplit path name (List.mem_of_mem_filter h)

theorem length_belowMount_le (mountPoint path : CString) :
    (belowMount mountPoint path).length ≤ path.length := by
  simp only [belowMount]
  split
  · rw [List.length_tail, List.length_drop]
    omega
  · rw [List.length_drop]
    omega

/-- **`vfs_resolve_path`** returns what the path names.  It faults only when a component is too long or
when a file is on the way. -/
theorem vfsResolvePath_spec {fs : FileSystem} (hfs : fs.Ok) (path : CString) :
    Ensures (vfsResolvePath fs path)
      (fun e => (e = .overrun ∧ vfsMaxName ≤ path.length) ∨ (e = .wrongView ∧ fs.PassesFile path))
      (fun r => r = fs.resolve path) := by
  unfold vfsResolvePath FileSystem.resolve
  cases hi : vfsFindMount fs path with
  | none => exact ensures_ok.mpr rfl
  | some i =>
    simp only [resolveIn]
    by_cases hroot : (fs.mountTable i).root = 0
    · simp only [if_pos hroot, Except.map, ensures_ok]
    by_cases hpoint : path = fs.mountPoint i
    · simp only [if_neg hroot, if_pos hpoint, Except.map, ensures_ok]
    by_cases hslash : path = [slash]
    · simp only [if_neg hroot, if_neg hpoint, if_pos hslash, Except.map, ensures_ok]
    simp only [if_neg hroot, if_neg hpoint, if_neg hslash]
    have hwalk := FileSystem.walkPath_spec hfs
      (components (belowMount (fs.mountPoint i) path)) _ (hfs.root_live hroot)
    refine (hwalk.mono (fun e he => ?_) fun r hr => hr).map fun r hr => by rw [hr]
    rcases he with ⟨h, name, hmem, hlong⟩ | ⟨h, hfile⟩
    · have hle := length_le_of_mem_components hmem
      exact Or.inl ⟨h, hlong.trans (hle.trans (length_belowMount_le _ _))⟩
    · exact Or.inr ⟨h, i, hi, hroot, hpoint, hslash, hfile⟩

end AcornOS
