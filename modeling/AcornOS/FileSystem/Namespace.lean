/-
# Creating names

`vfs_mkdir` and `vfs_open` cut a path at its LAST SLASH to find out where a name goes; resolution strips
the mount point and cuts the rest at every slash, skipping what is empty.  The two agree on a path
exactly when (`SplitsWell`)

* it has a slash: without one its first character is lost, and the name goes to `/`;
* it does not end in one: such a path names the directory itself, and the name created in there is
  EMPTY, which no path ever looks up;
* it is served by the mount that serves the part before the slash: a mount point may reach into the
  last component.

Nothing that could be found before is lost in any case (`Extends`).
-/
import AcornOS.FileSystem.OpenFailure

namespace AcornOS

open Lib Relation

/-! ## 1. Components -/

section Components

variable {mountPoint path pre suf name : CString}

theorem components_name (hslash : slash ∉ name) (hne : name ≠ []) : components name = [name] := by
  rw [components, List.splitOn_eq_singleton hslash]
  simp [hne]

@[simp] theorem components_nil : components [] = [] := rfl

/-- A path as long as its mount point, or one slash longer, is the root. -/
theorem components_belowMount_self : components (belowMount path path) = [] := by
  simp [belowMount]

/-- One more name behind a path that goes on from the mount point. -/
theorem components_belowMount_append (hpre : mountPoint <+: pre) (hslash : slash ∉ suf)
    (hne : suf ≠ []) : components (belowMount mountPoint (pre ++ slash :: suf)) =
      components (belowMount mountPoint pre) ++ [suf] := by
  obtain ⟨rest, rfl⟩ := hpre
  cases rest with
  | nil => simp [belowMount, components_name hslash hne]
  | cons c rest =>
    have hdrop : (mountPoint ++ c :: rest ++ slash :: suf).drop mountPoint.length =
        c :: rest ++ slash :: suf := by simp
    have hdrop' : (mountPoint ++ c :: rest).drop mountPoint.length = c :: rest := by simp
    simp only [belowMount, hdrop, hdrop', List.cons_append, List.head?_cons, List.tail_cons]
    split
    · rw [components_append_slash, components_name hslash hne]
    · rw [← List.cons_append, components_append_slash, components_name hslash hne]

end Components

/-! ## 2. The last slash -/

section Split

variable {path parentPath name : CString}

theorem lastSlash_concat (path : CString) (c : BitVec 8) :
    lastSlash (path ++ [c]) = if c = slash then some path.length else lastSlash path := by
  have hrest : ((List.range path.length).reverse.find? fun i => (path ++ [c])[i]? = some slash) =
      (List.range path.length).reverse.find? fun i => path[i]? = some slash := by
    refine List.find?_congr fun i hi => ?_
    have hlt : i < path.length := by simpa using hi
    rw [List.getElem?_append_left hlt]
  rw [lastSlash, List.length_append, List.length_singleton, List.range_succ, List.reverse_append,
    List.reverse_singleton, List.singleton_append, List.find?_cons]
  by_cases hc : c = slash
  · simp [hc]
  · simp only [List.getElem?_concat_length, Option.some.injEq, hc, decide_false, if_false]
    exact hrest

/-- What is before and behind the last slash. -/
theorem lastSlash_spec : ∀ path : CString, match lastSlash path with
    | none => slash ∉ path
    | some i => path = path.take i ++ slash :: path.drop (i + 1) ∧ slash ∉ path.drop (i + 1) := by
  intro path
  induction path using List.reverseRecOn with
  | nil => simp [lastSlash]
  | append_singleton path c ih =>
    rw [lastSlash_concat]
    by_cases hc : c = slash
    · simp [hc]
    · rw [if_neg hc]
      cases hlast : lastSlash path with
      | none =>
        rw [hlast] at ih
        simpa [Ne.symm hc] using ih
      | some i =>
        rw [hlast] at ih
        obtain ⟨hsplit, hnot⟩ := ih
        have hlt : i + 1 ≤ path.length := by
          have := congrArg List.length hsplit
          simp at this
          omega
        simp only
        rw [List.take_append_of_le_length (by omega), List.drop_append_of_le_length hlt]
        refine ⟨?_, ?_⟩
        · rw [← List.cons_append, ← List.append_assoc, ← hsplit]
        · simpa [Ne.symm hc] using hnot

/-- **Where a path is cut.**  A path with a slash is cut at the last one, and `/` stands for an empty
first part; a path without one loses its first character. -/
theorem splitPath_cases (hlen : path.length < vfsMaxPath) (h : splitPath path = .ok (parentPath, name)) :
    (∃ pre, path = pre ++ slash :: name ∧ slash ∉ name ∧
      parentPath = if pre = [] then [slash] else pre) ∨
    (∃ c, path = c :: name ∧ slash ∉ path ∧ parentPath = [slash]) := by
  have hcopy : ∀ k, kstrcpy (path.drop k) vfsMaxName = path.drop k := by
    intro k
    refine List.take_of_length_le ?_
    rw [List.length_drop]
    unfold vfsMaxPath at hlen
    unfold vfsMaxName
    omega
  have hspec := lastSlash_spec path
  unfold splitPath at h
  cases hlast : lastSlash path with
  | none =>
    rw [hlast] at h hspec
    cases path with
    | nil => cases h
    | cons c rest =>
      have hrest := hcopy 1
      rw [List.drop_one, List.tail_cons] at hrest
      simp only [hrest] at h
      cases h
      exact Or.inr ⟨c, rfl, hspec, rfl⟩
  | some i =>
    rw [hlast] at h hspec
    obtain ⟨hsplit, hnot⟩ := hspec
    cases i with
    | zero =>
      cases path with
      | nil => cases h
      | cons c rest =>
        have hrest := hcopy 1
        rw [List.drop_one, List.tail_cons] at hrest
        simp only [hrest] at h
        cases h
        exact Or.inl ⟨[], hsplit, hnot, rfl⟩
    | succ i =>
      simp only [hcopy] at h
      split at h
      · cases h
        refine Or.inl ⟨path.take (i + 1), hsplit, hnot, ?_⟩
        rw [if_neg]
        intro hnil
        rcases List.take_eq_nil_iff.mp hnil with hzero | rfl
        · omega
        · cases hlast
      · cases h

/-- The parent's components and the name are the path's components, where one mount serves both. -/
theorem components_split {pre mountPoint : CString} (hslash : slash ∉ name) (hne : name ≠ [])
    (hmount : mountPoint <+: if pre = [] then [slash] else pre) :
    components (belowMount mountPoint (pre ++ slash :: name)) =
      components (belowMount mountPoint (if pre = [] then [slash] else pre)) ++ [name] := by
  by_cases hpre : pre = []
  · subst hpre
    rw [if_pos rfl] at hmount ⊢
    rcases List.prefix_cons_iff.mp hmount with rfl | ⟨rest, rfl, hrest⟩
    · simp [belowMount, components_name hslash hne]
    · obtain rfl := List.prefix_nil.mp hrest
      have hhead : name.head? ≠ some slash := by
        intro h
        exact hslash (List.mem_of_mem_head? h)
      simp [belowMount, components_name hslash hne, hhead]
  · rw [if_neg hpre] at hmount ⊢
    exact components_belowMount_append hmount hslash hne

end Split

/-! ## 3. Resolution before and after -/

namespace FileSystem

variable {fs fs' : FileSystem} {a b d dir i j r : Nat} {path name : CString} {names : List CString}

/-- The two special cases of `vfs_resolve_path` are none. -/
theorem resolve_eq_follow (hi : vfsFindMount fs path = some i) (hroot : (fs.mountTable i).root ≠ 0) :
    fs.resolve path =
      fs.follow (components (belowMount (fs.mountPoint i) path)) (fs.mountTable i).root := by
  have hmount : fs.mountPoint i <+: path := (findMount_eq_some.mp hi).isPre
  simp only [resolve, hi, if_neg hroot]
  split
  · rename_i hpoint
    rw [← hpoint, components_belowMount_self]
    rfl
  · split
    · rename_i hslash
      subst hslash
      rcases List.prefix_cons_iff.mp hmount with hnil | ⟨rest, hrest, hpre⟩
      · rw [hnil]
        rfl
      · obtain rfl := List.prefix_nil.mp hpre
        rw [hrest]
        rfl
    · rfl

/-- A path that names something is served by a mount with a root. -/
theorem resolve_eq_some (h : fs.resolve path = some b) : ∃ i, vfsFindMount fs path = some i ∧
    (fs.mountTable i).root ≠ 0 ∧
    fs.follow (components (belowMount (fs.mountPoint i) path)) (fs.mountTable i).root = some b := by
  cases hi : vfsFindMount fs path with
  | none => simp [resolve, hi] at h
  | some i =>
    by_cases hroot : (fs.mountTable i).root = 0
    · simp [resolve, hi, hroot] at h
    · exact ⟨i, rfl, hroot, (resolve_eq_follow hi hroot).symm.trans h⟩

theorem follow_append (names names' : List CString) (d : Nat) :
    fs.follow (names ++ names') d = (fs.follow names d).bind (fs.follow names') := by
  induction names generalizing d with
  | nil => simp [follow]
  | cons n names ih =>
    rw [List.cons_append, follow, follow, Option.bind_assoc]
    exact congrArg _ (funext fun b => ih b)

theorem follow_concat (names : List CString) (name : CString) (d : Nat) :
    fs.follow (names ++ [name]) d = (fs.follow names d).bind fun b => fs.lookup b name := by
  rw [follow_append]
  refine congrArg _ (funext fun b => ?_)
  simp [follow]

/-- A file has no names in it. -/
theorem IsFile.lookup (h : fs.IsFile b) (name : CString) : fs.lookup b name = none := by
  obtain ⟨n, blocks, count, hn, hdata⟩ := isFile_iff.mp h
  rw [FileSystem.lookup, entriesOf_file hn hdata]
  rfl

/-- No file is on the way to a name in a directory. -/
theorem not_followsFile_concat (h : fs.follow names r = some d) (hdir : fs.IsDir d) :
    ¬ fs.FollowsFile (names ++ [name]) r := by
  rintro ⟨ns, b, hpre, hne, hns, hfile⟩
  rw [List.prefix_concat_iff] at hpre
  obtain ⟨rest, rfl⟩ := hpre.resolve_left hne
  rw [follow_append, hns] at h
  cases rest with
  | nil =>
    obtain rfl : b = d := Option.some.inj h
    exact hdir.not_isFile hfile
  | cons n rest =>
    rw [Option.bind_some, follow, hfile.lookup] at h
    cases h

/-- **Roots are unique**: two roots from which the same inode is reached are the same. -/
theorem Ok.root_unique (hfs : fs.Ok) (hi : (fs.mountTable i).root ≠ 0) (hj : (fs.mountTable j).root ≠ 0)
    (names names' : List CString) (h : fs.follow names (fs.mountTable i).root = some b)
    (h' : fs.follow names' (fs.mountTable j).root = some b) : i = j := by
  -- by induction from the end: an inode has one parent, and a root none
  have hroot : ∀ {k d : Nat} {n : CString}, (fs.mountTable k).root ≠ 0 →
      fs.lookup d n ≠ some (fs.mountTable k).root := by
    intro k d n hk hlook
    obtain ⟨e, he, -, heq⟩ := lookup_eq_some hlook
    exact (hfs.roots k hk).2 d e he heq
  induction names using List.reverseRecOn generalizing names' b with
  | nil =>
    cases h
    induction names' using List.reverseRecOn with
    | nil => exact hfs.distinct i j hi (Option.some.inj h').symm
    | append_singleton names' n' _ =>
      rw [follow_concat] at h'
      obtain ⟨d', -, hlook⟩ := Option.bind_eq_some_iff.mp h'
      exact absurd hlook (hroot hi)
  | append_singleton names n ih =>
    rw [follow_concat] at h
    obtain ⟨d, hd, hlook⟩ := Option.bind_eq_some_iff.mp h
    rcases List.eq_nil_or_concat names' with rfl | ⟨names', n', rfl⟩
    · cases h'
      exact absurd hlook (hroot hj)
    · rw [List.concat_eq_append, follow_concat] at h'
      obtain ⟨d', hd', hlook'⟩ := Option.bind_eq_some_iff.mp h'
      obtain ⟨e, he, -, heq⟩ := lookup_eq_some hlook
      obtain ⟨e', he', -, heq'⟩ := lookup_eq_some hlook'
      obtain rfl : d = d' := hfs.parent d d' e e' he he' (heq.trans heq'.symm)
      exact ih names' hd hd'

/-- `fs'` has all the names of `fs`: the same mounts, and behind the entries of a directory perhaps some
more. -/
structure Extends (fs fs' : FileSystem) : Prop where
  count : fs'.mountCount = fs.mountCount
  mountPoint : ∀ i, fs'.mountPoint i = fs.mountPoint i
  root : ∀ i, (fs'.mountTable i).root = (fs.mountTable i).root
  entries : ∀ d n entries count, fs.inodes d = some n → n.privateData = .dir entries count →
    ∃ n' entries' count', fs'.inodes d = some n' ∧ n'.privateData = .dir entries' count' ∧
      entries <+: entries'

theorem Extends.refl (fs : FileSystem) : Extends fs fs :=
  ⟨rfl, fun _ => rfl, fun _ => rfl, fun _ n entries count hn hdata =>
    ⟨n, entries, count, hn, hdata, List.prefix_rfl⟩⟩

theorem Extends.trans {fs'' : FileSystem} (h : Extends fs fs') (h' : Extends fs' fs'') :
    Extends fs fs'' where
  count := h'.count.trans h.count
  mountPoint i := (h'.mountPoint i).trans (h.mountPoint i)
  root i := (h'.root i).trans (h.root i)
  entries d n entries count hn hdata := by
    obtain ⟨n', entries', count', hn', hdata', hpre⟩ := h.entries d n entries count hn hdata
    obtain ⟨n'', entries'', count'', hn'', hdata'', hpre'⟩ := h'.entries d n' entries' count' hn' hdata'
    exact ⟨n'', entries'', count'', hn'', hdata'', hpre.trans hpre'⟩

theorem Extends.findMount (h : Extends fs fs') (path : CString) :
    vfsFindMount fs' path = vfsFindMount fs path := by
  have hpoint : fs'.mountPoint = fs.mountPoint := funext h.mountPoint
  rw [vfsFindMount, vfsFindMount, hpoint, h.count]

theorem Extends.lookup (h : Extends fs fs') (hlook : fs.lookup d name = some b) :
    fs'.lookup d name = some b := by
  obtain ⟨e, he, rfl⟩ := Option.map_eq_some_iff.mp hlook
  obtain ⟨n, entries, count, hn, hdata, -⟩ := inode_of_mem_entriesOf (List.mem_of_find?_eq_some he)
  obtain ⟨n', entries', count', hn', hdata', hpre⟩ := h.entries d n entries count hn hdata
  rw [entriesOf_dir hn hdata] at he
  rw [FileSystem.lookup, entriesOf_dir hn' hdata', hpre.find?_eq_some he]
  rfl

theorem Extends.follow (h : Extends fs fs') : ∀ {names : List CString} {d : Nat},
    fs.follow names d = some b → fs'.follow names d = some b
  | [], _, hfollow => hfollow
  | name :: names, d, hfollow => by
    obtain ⟨c, hc, hfollow⟩ := Option.bind_eq_some_iff.mp hfollow
    rw [FileSystem.follow, h.lookup hc]
    exact h.follow hfollow

theorem Extends.resolve (h : Extends fs fs') (hres : fs.resolve path = some b) :
    fs'.resolve path = some b := by
  obtain ⟨i, hi, hroot, hfollow⟩ := resolve_eq_some hres
  have hi' : vfsFindMount fs' path = some i := (h.findMount path).trans hi
  have hroot' : (fs'.mountTable i).root ≠ 0 := by
    rw [h.root]
    exact hroot
  rw [resolve_eq_follow hi' hroot', h.mountPoint, h.root]
  exact h.follow hfollow

theorem Extends.isDir (h : Extends fs fs') (hdir : fs.IsDir d) : fs'.IsDir d := by
  obtain ⟨n, entries, count, hn, hdata⟩ := isDir_iff.mp hdir
  obtain ⟨n', entries', count', hn', hdata', -⟩ := h.entries d n entries count hn hdata
  exact isDir_iff.mpr ⟨n', entries', count', hn', hdata'⟩

theorem Extends.shadowfsLookup (h : Extends fs fs')
    (hlook : AcornOS.shadowfsLookup fs d name = .ok (some b)) :
    AcornOS.shadowfsLookup fs' d name = .ok (some b) := by
  obtain ⟨n, hn, hlook⟩ := bind_eq_ok.mp hlook
  have hn := deref_eq_ok.mp hn
  cases hdata : n.privateData with
  | file blocks count =>
    simp only [hdata] at hlook
    cases hlook
  | dir entries count =>
    simp only [hdata] at hlook
    obtain ⟨e, he, rfl⟩ := Option.map_eq_some_iff.mp (Except.ok.inj hlook)
    obtain ⟨n', entries', count', hn', hdata', hpre⟩ := h.entries d n entries count hn hdata
    rw [AcornOS.shadowfsLookup, deref_eq hn']
    simp only [bind, Except.bind, hdata', hpre.find?_eq_some he]
    rfl

theorem Extends.walkPath {s : FileSystem} (h : Extends fs fs') : ∀ (names : List CString) (d : Nat),
    AcornOS.walkPath (fun fs dir name => (AcornOS.shadowfsLookup fs dir name).map (·, fs)) names d fs =
      .ok (some b, s) →
    AcornOS.walkPath (fun fs dir name => (AcornOS.shadowfsLookup fs dir name).map (·, fs)) names d fs' =
      .ok (some b, fs')
  | [], d, hwalk => by
    cases hwalk
    rfl
  | name :: names, d, hwalk => by
    rw [AcornOS.walkPath] at hwalk ⊢
    split at hwalk
    · cases hwalk
    rename_i hshort
    rw [if_neg hshort]
    cases hlook : AcornOS.shadowfsLookup fs d name with
    | error e =>
      rw [hlook] at hwalk
      cases hwalk
    | ok r =>
      rw [hlook] at hwalk
      cases r with
      | none => cases hwalk
      | some c =>
        rw [h.shadowfsLookup hlook]
        exact h.walkPath names c hwalk

/-- **No name is lost.** -/
theorem Extends.vfsResolvePath (h : Extends fs fs')
    (hres : AcornOS.vfsResolvePath fs path = .ok (some b)) :
    AcornOS.vfsResolvePath fs' path = .ok (some b) := by
  unfold AcornOS.vfsResolvePath at hres ⊢
  rw [h.findMount]
  cases hi : vfsFindMount fs path with
  | none =>
    rw [hi] at hres
    cases hres
  | some i =>
    simp only [hi, resolveIn, h.root, h.mountPoint] at hres ⊢
    split at hres
    · cases hres
    rename_i hroot
    rw [if_neg hroot]
    split at hres
    · rename_i hpoint
      rw [if_pos hpoint]
      exact hres
    rename_i hpoint
    rw [if_neg hpoint]
    split at hres
    · rename_i hslash
      rw [if_pos hslash]
      exact hres
    rename_i hslash
    rw [if_neg hslash]
    cases hwalk : AcornOS.walkPath
        (fun fs dir name => (AcornOS.shadowfsLookup fs dir name).map (·, fs))
        (components (belowMount (fs.mountPoint i) path)) (fs.mountTable i).root fs with
    | error e =>
      rw [hwalk] at hres
      cases hres
    | ok x =>
      rw [hwalk] at hres
      obtain ⟨r, s⟩ := x
      obtain rfl : r = some b := Except.ok.inj hres
      rw [h.walkPath _ _ hwalk]
      rfl

theorem extends_rewritten {n : Inode} {blocks : List ShadowfsBlock} (blocks' : List ShadowfsBlock)
    (used : Nat) (h : fs.FileAt a n blocks) : fs.Extends (fs.rewritten a n blocks' used) := by
  refine ⟨rfl, fun i => mountPoint_rewritten, fun i => root_rewritten, ?_⟩
  intro b m entries count hm hdata
  have hb : b ≠ a := by
    rintro rfl
    obtain rfl : n = m := Option.some.inj (h.inode.symm.trans hm)
    cases h.data.symm.trans hdata
  exact ⟨m, entries, count, (inodes_rewritten_of_ne hb).trans hm, hdata, List.prefix_rfl⟩

end FileSystem

/-- A call other than `vfs_delete` loses no name. -/
theorem Mutation.extends {fs fs' : FileSystem} (hmut : Mutation fs fs') : fs.Extends fs' := by
  cases hmut with
  | @create a dir d entries count name type h ha hfresh =>
    refine ⟨rfl, fun i => FileSystem.mountPoint_created, fun i => FileSystem.root_created, ?_⟩
    intro b n es c hn hdata
    by_cases hb : b = dir
    · subst hb
      obtain rfl : d = n := Option.some.inj (h.inode.symm.trans hn)
      obtain ⟨rfl, rfl⟩ : entries = es ∧ count = c := by simpa [hdata] using h.data.symm
      exact ⟨_, _, _, FileSystem.inodes_created_dir, rfl, List.prefix_append _ _⟩
    · have hba : b ≠ a := by
        rintro rfl
        cases hfresh.symm.trans hn
      exact ⟨n, es, c, (FileSystem.inodes_created_of_ne hb hba).trans hn, hdata, List.prefix_rfl⟩
  | write h => exact FileSystem.extends_rewritten _ _ h.file
  | truncate h => exact FileSystem.extends_rewritten _ _ h
  | files => exact ⟨rfl, fun _ => rfl, fun _ => rfl, (FileSystem.Extends.refl fs).entries⟩

theorem Mutation.type_run {fs fs' : FileSystem} {b : Nat} {type : VfsType}
    (h : ReflTransGen Mutation fs fs') (hb : ∃ n, fs.inodes b = some n ∧ n.type = type) :
    ∃ n, fs'.inodes b = some n ∧ n.type = type := by
  refine reach_invariant (I := fun fs => ∃ n, fs.inodes b = some n ∧ n.type = type) h hb ?_
  rintro _ _ ⟨n, hn, htype⟩ hmut
  obtain ⟨n', hn', htype', -⟩ := hmut.inode hn
  exact ⟨n', hn', htype'.trans htype⟩

theorem Mutation.extends_run {fs fs' : FileSystem} (h : ReflTransGen Mutation fs fs') :
    fs.Extends fs' :=
  reach_invariant (I := fs.Extends) h (.refl fs) fun _ _ hext hmut => hext.trans hmut.extends

/-! ## 4. The two parsers -/

/-- The path is cut where resolution would cut it: it has a slash, does not end in one, and is served by
the mount that serves the part before it. -/
def SplitsWell (fs : FileSystem) (path : CString) : Prop :=
  slash ∈ path ∧ path.getLast? ≠ some slash ∧ ∀ parentPath name,
    splitPath path = .ok (parentPath, name) → vfsFindMount fs path = vfsFindMount fs parentPath

/-- The path named nothing, it names the new inode at `a` now, and what named something names it still. -/
structure NamesNew (fs fs' : FileSystem) (a : Nat) (path : CString) (type : VfsType) : Prop where
  before : vfsResolvePath fs path = .ok none
  after : vfsResolvePath fs' path = .ok (some a)
  inode : ∃ n, fs'.inodes a = some n ∧ n.type = type
  others : ∀ q b, vfsResolvePath fs q = .ok (some b) → vfsResolvePath fs' q = .ok (some b)

section Creation

variable {fs fs₁ fs' : FileSystem} {a dir count : Nat} {d : Inode} {entries : List ShadowfsDentry}
  {path parentPath name : CString} {type : VfsType}

/-- The new name is found in its directory. -/
theorem FileSystem.lookup_created (h : fs.Enters dir d entries count name) (hfresh : fs.inodes a = none)
    (hname : name.length < vfsMaxName) :
    (fs.created a dir d entries count name type).lookup dir name = some a := by
  have hcopy : kstrcpy name vfsMaxName = name := List.take_of_length_le (Nat.le_sub_one_of_lt hname)
  have hnone : (fs.entriesOf dir).find? (fun e => e.name = name) = none := by
    rw [FileSystem.entriesOf_dir h.inode h.data]
    simpa using h.new
  rw [FileSystem.lookup, FileSystem.entriesOf_created h hfresh, if_pos rfl, List.find?_append, hnone,
    hcopy]
  simp

/-- Only the new entry leads to the new inode. -/
theorem FileSystem.lookup_created_eq_new (hfs : fs.Ok) (h : fs.Enters dir d entries count name)
    (hfresh : fs.inodes a = none) {b : Nat} {n : CString}
    (hlook : (fs.created a dir d entries count name type).lookup b n = some a) :
    b = dir ∧ n = kstrcpy name vfsMaxName := by
  obtain ⟨e, he, hn, hinode⟩ := FileSystem.lookup_eq_some hlook
  have hold : ∀ b, e ∉ fs.entriesOf b := fun b hb => hfs.live b e hb (hinode ▸ hfresh)
  rw [FileSystem.entriesOf_created h hfresh] at he
  split at he
  · rename_i hb
    rcases List.mem_append.mp he with he | he
    · exact absurd he (hold dir)
    · rw [List.mem_singleton.mp he] at hn
      exact ⟨hb, hn.symm⟩
  · exact absurd he (hold b)

/-- **A created name is found again** exactly when the path is cut where resolution cuts it. -/
theorem resolve_created_iff (hfs : fs.Ok) (ha : a ≠ 0) (hfresh : fs.inodes a = none)
    (hlen : path.length < vfsMaxPath) (hsplit : splitPath path = .ok (parentPath, name))
    (hpar : fs.resolve parentPath = some dir) (henters : fs.Enters dir d entries count name) :
    (fs.created a dir d entries count name type).resolve path = some a ↔ SplitsWell fs path := by
  have hext : fs.Extends (fs.created a dir d entries count name type) :=
    (Mutation.create henters ha hfresh).extends
  have hok : (fs.created a dir d entries count name type).Ok := hfs.created henters ha hfresh
  obtain ⟨i, hi, hroot, hfollow⟩ := FileSystem.resolve_eq_some hpar
  have hmount : fs.mountPoint i <+: parentPath := (findMount_eq_some.mp hi).isPre
  have hcases := splitPath_cases hlen hsplit
  have hname : name.length < vfsMaxName := by
    have hle : name.length ≤ path.length := by
      rcases hcases with ⟨pre, rfl, -, -⟩ | ⟨c, rfl, -, -⟩
      · simp
        omega
      · simp
    exact hle.trans_lt hlen
  constructor
  · intro hres
    obtain ⟨j, hj, hrootj, hfollowj⟩ := FileSystem.resolve_eq_some hres
    rw [hext.findMount] at hj
    rw [FileSystem.mountPoint_created] at hfollowj
    -- the path ends in the new entry of the directory
    rcases List.eq_nil_or_concat (components (belowMount (fs.mountPoint j) path)) with
      hnil | ⟨names, last, hconcat⟩
    · rw [hnil, FileSystem.follow, FileSystem.root_created] at hfollowj
      rw [FileSystem.root_created] at hrootj
      refine absurd hfresh ?_
      rw [← Option.some.inj hfollowj]
      exact hfs.root_live hrootj
    rw [List.concat_eq_append] at hconcat
    rw [hconcat, FileSystem.follow_concat] at hfollowj
    obtain ⟨b, hb, hlook⟩ := Option.bind_eq_some_iff.mp hfollowj
    obtain ⟨rfl, hlast⟩ := FileSystem.lookup_created_eq_new hfs henters hfresh hlook
    have hcopy : kstrcpy name vfsMaxName = name :=
      List.take_of_length_le (Nat.le_sub_one_of_lt hname)
    rw [hcopy] at hlast
    subst hlast
    -- so one mount serves the path and its parent
    have hrooti : ((fs.created a b d entries count last type).mountTable i).root ≠ 0 := by
      rw [FileSystem.root_created]
      exact hroot
    have hfollowi := hext.follow hfollow
    rw [← hext.root i] at hfollowi
    obtain rfl : i = j := hok.root_unique hrooti hrootj _ _ hfollowi hb
    have hne : last ≠ [] := by
      have hmem : last ∈ components (belowMount (fs.mountPoint i) path) := by simp [hconcat]
      simpa [components] using List.of_mem_filter hmem
    have hsame : ∀ parentPath' name', splitPath path = .ok (parentPath', name') →
        vfsFindMount fs path = vfsFindMount fs parentPath' := by
      intro parentPath' name' hsplit'
      rw [hsplit] at hsplit'
      cases hsplit'
      rw [hj, hi]
    rcases hcases with ⟨pre, rfl, hslash, rfl⟩ | ⟨c, rfl, hslash, rfl⟩
    · refine ⟨by simp, ?_, hsame⟩
      intro hend
      rw [List.getLast?_append_cons, List.getLast?_cons_of_ne_nil hne] at hend
      exact hslash (List.mem_of_getLast? hend)
    · -- without a slash, the whole path is one component
      exfalso
      have hc : c ≠ slash := fun h => hslash (h ▸ List.mem_cons_self)
      have hpoint : fs.mountPoint i = [] := by
        have hpre : fs.mountPoint i <+: c :: last := (findMount_eq_some.mp hj).isPre
        rcases List.prefix_cons_iff.mp hmount with hnil | ⟨rest, hrest, -⟩
        · exact hnil
        · rw [hrest] at hpre
          obtain ⟨t, ht⟩ := hpre
          exact absurd (List.cons.inj ht).1.symm hc
      have hcomp : components (belowMount (fs.mountPoint i) (c :: last)) = [c :: last] := by
        rw [hpoint]
        have hbelow : belowMount [] (c :: last) = c :: last := by simp [belowMount, hc]
        rw [hbelow]
        exact components_name hslash (List.cons_ne_nil c last)
      rw [hcomp] at hconcat
      have hlen' := congrArg List.getLast? hconcat
      rw [List.getLast?_singleton, List.getLast?_concat] at hlen'
      have := congrArg List.length (Option.some.inj hlen')
      simp at this
  · rintro ⟨hin, hend, hsame⟩
    rcases hcases with ⟨pre, rfl, hslash, rfl⟩ | ⟨c, rfl, hslash, rfl⟩
    · have hne : name ≠ [] := by
        rintro rfl
        exact hend List.getLast?_concat
      have hi' : vfsFindMount (fs.created a dir d entries count name type) (pre ++ slash :: name) =
          some i := by
        rw [hext.findMount, hsame _ _ hsplit, hi]
      have hroot' : ((fs.created a dir d entries count name type).mountTable i).root ≠ 0 := by
        rw [FileSystem.root_created]
        exact hroot
      rw [FileSystem.resolve_eq_follow hi' hroot', FileSystem.mountPoint_created,
        FileSystem.root_created, components_split hslash hne hmount, FileSystem.follow_concat,
        hext.follow hfollow]
      exact FileSystem.lookup_created henters hfresh hname
    · exact absurd hin hslash

/-- On a short path without a file on the way, `vfs_resolve_path` returns. -/
theorem vfsResolvePath_eq (hfs : fs.Ok) (hlen : path.length < vfsMaxPath) (h : ¬ fs.PassesFile path) :
    vfsResolvePath fs path = .ok (fs.resolve path) := by
  have hspec := vfsResolvePath_spec hfs path
  cases hres : vfsResolvePath fs path with
  | ok r => rw [hspec.of_ok hres]
  | error e =>
    rcases hspec.of_error hres with ⟨-, hlong⟩ | ⟨-, hpasses⟩
    · exact absurd hlong (Nat.not_le_of_lt hlen)
    · exact absurd hpasses h

/-- No file is on the way along a path that is cut well and whose parent is a directory. -/
theorem SplitsWell.not_passesFile (h : SplitsWell fs path) (hlen : path.length < vfsMaxPath)
    (hsplit : splitPath path = .ok (parentPath, name)) (hpar : fs.resolve parentPath = some dir)
    (hdir : fs.IsDir dir) : ¬ fs.PassesFile path := by
  rintro ⟨j, hj, -, -, -, hfile⟩
  obtain ⟨i, hi, hroot, hfollow⟩ := FileSystem.resolve_eq_some hpar
  obtain ⟨hin, hend, hsame⟩ := h
  rw [hsame _ _ hsplit, hi] at hj
  obtain rfl : i = j := Option.some.inj hj
  have hmount : fs.mountPoint i <+: parentPath := (findMount_eq_some.mp hi).isPre
  rcases splitPath_cases hlen hsplit with ⟨pre, rfl, hslash, rfl⟩ | ⟨c, rfl, hslash, rfl⟩
  · have hne : name ≠ [] := by
      rintro rfl
      exact hend List.getLast?_concat
    rw [components_split hslash hne hmount] at hfile
    exact FileSystem.not_followsFile_concat hfollow hdir hfile
  · exact hslash hin

theorem SplitsWell.extends (h : SplitsWell fs path) (hext : fs.Extends fs') : SplitsWell fs' path := by
  refine ⟨h.1, h.2.1, fun parentPath name hsplit => ?_⟩
  rw [hext.findMount, hext.findMount]
  exact h.2.2 parentPath name hsplit

/-- The same mounts and the same entries: the same names. -/
theorem FileSystem.resolve_congr (hcount : fs'.mountCount = fs.mountCount)
    (hpoint : ∀ i, fs'.mountPoint i = fs.mountPoint i)
    (hroot : ∀ i, (fs'.mountTable i).root = (fs.mountTable i).root)
    (hentries : ∀ d, fs'.entriesOf d = fs.entriesOf d) : fs'.resolve path = fs.resolve path := by
  have hfollow : ∀ (names : List CString) (d : Nat), fs'.follow names d = fs.follow names d := by
    intro names
    induction names with
    | nil => exact fun d => rfl
    | cons n names ih =>
      intro d
      simp only [FileSystem.follow, FileSystem.lookup, hentries]
      exact congrArg _ (funext ih)
  have hfind : vfsFindMount fs' path = vfsFindMount fs path := by
    rw [vfsFindMount, vfsFindMount, funext hpoint, hcount]
  simp only [FileSystem.resolve, hfind, hpoint, hroot, hfollow]

/-- A creation, followed by something that leaves the names alone. -/
theorem Creation.namesNew_iff (hfs : fs.Ok) (ha : a ≠ 0) (hfresh : fs.inodes a = none)
    (hlen : path.length < vfsMaxPath) (hcreate : Creation fs a path type fs₁)
    (hrun : ReflTransGen Mutation fs₁ fs') (hentries : ∀ d, fs'.entriesOf d = fs₁.entriesOf d) :
    NamesNew fs fs' a path type ↔ SplitsWell fs path := by
  have hext₁ : fs.Extends fs₁ := (hcreate.mutation ha hfresh).extends
  have hext : fs₁.Extends fs' := Mutation.extends_run hrun
  have hok₁ : fs₁.Ok := (hcreate.mutation ha hfresh).ok hfs
  have hok : fs'.Ok := Mutation.ok_run hrun hok₁
  have hsame : fs'.resolve path = fs₁.resolve path :=
    FileSystem.resolve_congr hext.count hext.mountPoint hext.root hentries
  obtain ⟨parentPath, name, dir, d, entries, count, hsplit, hpar, henters, rfl⟩ := hcreate
  have hiff : (fs.created a dir d entries count name type).resolve path = some a ↔ SplitsWell fs path :=
    resolve_created_iff hfs ha hfresh hlen hsplit hpar henters
  have hdir : fs.IsDir dir := FileSystem.isDir_iff.mpr ⟨d, entries, count, henters.inode, henters.data⟩
  constructor
  · intro h
    rw [← hiff, ← hsame]
    exact ((vfsResolvePath_spec hok path).of_ok h.after).symm
  · intro h
    have hafter : fs'.resolve path = some a := hsame.trans (hiff.mpr h)
    refine ⟨?_, ?_, ?_, fun q b hq => (hext₁.trans hext).vfsResolvePath hq⟩
    · rw [vfsResolvePath_eq hfs hlen (h.not_passesFile hlen hsplit hpar hdir)]
      cases hbefore : fs.resolve path with
      | none => rfl
      | some b =>
        have hb := (hext₁.trans hext).resolve hbefore
        rw [hafter] at hb
        cases hb
        exact absurd hfresh (hfs.resolve_live hbefore)
    · have hext' := hext₁.trans hext
      rw [vfsResolvePath_eq hok hlen ((h.extends hext').not_passesFile hlen hsplit
        (hext'.resolve hpar) (hext'.isDir hdir)), hafter]
    · have hnew : (fs.created a dir d entries count name type).inodes a =
          some (fs.newInode d.sb type) := FileSystem.inodes_created_new (henters.ne hfresh)
      obtain ⟨n, hn, htype⟩ := Mutation.type_run hrun ⟨_, hnew, rfl⟩
      refine ⟨n, hn, htype.trans ?_⟩
      cases type <;> rfl

end Creation

/-- **The namespace law for creation** holds exactly on the paths that are cut well: there the path named
nothing before, names the new inode afterwards, and every other path names what it named. -/
theorem creation_law_iff (fs : FileSystem) (hfs : fs.Ok) (a : Nat) (ha : a ≠ 0)
    (hfresh : fs.inodes a = none) (path : CString) (hlen : path.length < 64) :
    (∀ fs', vfsMkdir fs a path = .ok (0, fs') →
      (NamesNew fs fs' a path .dir ↔ SplitsWell fs path)) ∧
    ∀ flags fd fs', Sets flags oCreat → vfsResolvePath fs path = .ok none →
      vfsOpen fs a path flags = .ok (fd, fs') → 0 ≤ fd →
      (NamesNew fs fs' a path .file ↔ SplitsWell fs path) := by
  constructor
  · intro fs' h
    rcases (vfsMkdir_spec hfs).of_ok h with hr | ⟨fs₁, hcreate, hr⟩
    · have hzero : (0 : Int) = -1 := congrArg Prod.fst hr
      exact absurd hzero (by decide)
    · obtain rfl : fs' = fs₁ := congrArg Prod.snd hr
      exact hcreate.namesNew_iff hfs ha hfresh hlen .refl fun d => rfl
  · intro flags fd fs' hflag hbefore h hfd
    obtain ⟨file, fs₁, hopens, hr⟩ := (vfsOpen_spec hfs ha hfresh).of_ok h
    have hnone : fs.resolve path = none := ((vfsResolvePath_spec hfs path).of_ok hbefore).symm
    rcases hr with ⟨hr, -⟩ | ⟨f, fd', rfl, -, hr⟩
    · have : fd = -1 := congrArg Prod.fst hr
      omega
    obtain rfl : fs' = fs₁.setFile fd' (some f) := congrArg Prod.snd hr
    cases hopens with
    | found hres hempty hn => cases hnone.symm.trans hres
    | new hres hflag' hcreate hempty hn =>
      exact hcreate.namesNew_iff hfs ha hfresh hlen (hempty.mutation.tail .files) hempty.entriesOf

/-- `/temp/d` -/
theorem creation_law_new_directory : ∃ fs', vfsMkdir tempFs 0x2000 (tempPath ++ [0x2F, 0x64]) =
    .ok (0, fs') ∧ NamesNew tempFs fs' 0x2000 (tempPath ++ [0x2F, 0x64]) .dir := by
  have hlaw := creation_law_iff tempFs (tempFs_reached (fun _ _ => True) trivial).ok 0x2000 (by decide)
    (by decide +kernel) (tempPath ++ [0x2F, 0x64]) (by decide)
  refine ⟨tempFs.after 0x2000 (.mkdir (tempPath ++ [0x2F, 0x64])), by rfl, ?_⟩
  refine (hlaw.1 _ (by rfl)).mpr ⟨by decide, by decide, fun parentPath name hsplit => ?_⟩
  have hok : splitPath (tempPath ++ [0x2F, 0x64]) = .ok (tempPath, [0x64]) := by decide +kernel
  rw [hok] at hsplit
  cases hsplit
  decide +kernel

/-- `vfs_mkdir("/temp/")` succeeds, although the path names the root of the mount, and goes on naming
it. -/
theorem mkdir_trailing_slash : ∃ fs', vfsMkdir tempFs 0x2000 (tempPath ++ [0x2F]) = .ok (0, fs') ∧
    vfsResolvePath tempFs (tempPath ++ [0x2F]) = .ok (some 0x1000) ∧
    vfsResolvePath fs' (tempPath ++ [0x2F]) = .ok (some 0x1000) :=
  ⟨tempFs.after 0x2000 (.mkdir (tempPath ++ [0x2F])), by rfl, by rfl, by rfl⟩

end AcornOS
