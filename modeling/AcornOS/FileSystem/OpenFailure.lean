/-
# A failed open

`vfs_open` looks for a free descriptor LAST, when the name has been created and the file emptied, and it
undoes neither.  So a failed call has changed nothing exactly when there was a descriptor to be had, or
when there was nothing to create and nothing to empty.
-/
import AcornOS.FileSystem.Descriptors

namespace AcornOS

open Lib Relation

/-- The same entries, sizes, contents, charges and descriptors. -/
structure Unchanged (fs fs' : FileSystem) : Prop where
  entries : ∀ d, fs'.entriesOf d = fs.entriesOf d
  sizes : ∀ b, (fs'.inodes b).map Inode.size = (fs.inodes b).map Inode.size
  contents : ∀ b, bytesOf (fs'.blocksOf b) = bytesOf (fs.blocksOf b)
  used : ∀ i, (fs'.mountOf i).used = (fs.mountOf i).used
  files : fs'.fileTable = fs.fileTable

/-- The path names nothing, and `vfs_open` with these flags would create it. -/
def WouldCreate (fs : FileSystem) (path : CString) (flags : BitVec 32) : Prop :=
  Sets flags oCreat ∧ vfsResolvePath fs path = .ok none ∧
    ∃ parentPath name dir d entries count, splitPath path = .ok (parentPath, name) ∧
      vfsResolvePath fs parentPath = .ok (some dir) ∧ fs.Enters dir d entries count name

/-- The path names a file that is not empty, and `vfs_open` with these flags would empty it. -/
def WouldEmpty (fs : FileSystem) (path : CString) (flags : BitVec 32) : Prop :=
  Sets flags oTrunc ∧ ∃ b n blocks, vfsResolvePath fs path = .ok (some b) ∧ fs.FileAt b n blocks ∧
    blocks ≠ []

section OpenFailure

variable {fs fs' : FileSystem} {a b : Nat} {path : CString} {flags : BitVec 32}

theorem Unchanged.refl (fs : FileSystem) : Unchanged fs fs :=
  ⟨fun _ => rfl, fun _ => rfl, fun _ => rfl, fun _ => rfl, rfl⟩

/-! ## 1. What has happened when it fails -/

theorem FileSystem.freeFd_congr (h : fs'.fileTable = fs.fileTable) : fs'.freeFd = fs.freeFd := by
  simp only [FileSystem.freeFd, h]

/-- Steps 1 and 2 of `vfs_open_file`, taken apart. -/
theorem vfsFindOrCreate_cases {r : Option Nat × FileSystem}
    (h : vfsFindOrCreate fs a path flags = .ok r) :
    (∃ b, vfsResolvePath fs path = .ok (some b) ∧ r = (some b, fs)) ∨ r = (none, fs) ∨
      (WouldCreate fs path flags ∧ r.1 = some a) := by
  obtain ⟨x, fs'⟩ := r
  unfold vfsFindOrCreate at h
  obtain ⟨inode, hres, h⟩ := bind_eq_ok.mp h
  cases inode with
  | some b =>
    cases h
    exact Or.inl ⟨b, hres, rfl⟩
  | none =>
    simp only at h
    split at h
    · cases h
      exact Or.inr (Or.inl rfl)
    rename_i hflag
    obtain ⟨⟨parentPath, name⟩, hsplit, h⟩ := bind_eq_ok.mp h
    obtain ⟨parent, hpar, h⟩ := bind_eq_ok.mp h
    cases parent with
    | none =>
      cases h
      exact Or.inr (Or.inl rfl)
    | some dir =>
      rcases shadowfsCreate_cases h with ⟨rfl, rfl⟩ | ⟨d, entries, count, henters, h₁, -⟩
      · exact Or.inr (Or.inl rfl)
      · exact Or.inr (Or.inr ⟨⟨not_not.mp hflag, hres, parentPath, name, dir, d, entries, count, hsplit,
          hpar, henters⟩, h₁⟩)

/-- Emptying an empty file, or a directory, changes nothing. -/
theorem Emptied.unchanged (hfs : fs.Ok) (h : Emptied fs b flags fs')
    (hempty : Sets flags oTrunc → ∀ n blocks, fs.FileAt b n blocks → blocks = []) : fs' = fs := by
  cases h with
  | not h => rfl
  | dir h hdir => rfl
  | @file n blocks h hfile =>
    obtain rfl := hempty h n blocks hfile
    have hused : sub32 (fs.mountOf n.sb).used (sizeofShadowfsBlock * ([] : List ShadowfsBlock).length) =
        (fs.mountOf n.sb).used := by
      simpa using sub32_eq (Nat.zero_le _) (hfs.used n.sb)
    have hself : fs.setInode b n = fs := by
      rw [FileSystem.setInode, ← hfile.inode, Function.update_eq_self]
    rw [hused, FileSystem.rewritten, hfile.withBlocks_self, hself, FileSystem.setUsed_self]

/-- A call that fails has created and emptied nothing, unless it found all descriptors taken. -/
theorem unchanged_of_failed (hfs : fs.Ok) (hfresh : fs.inodes a = none) (ha : a ≠ 0)
    (h : vfsOpen fs a path flags = .ok (-1, fs'))
    (hcond : fs.freeFd ≠ none ∨ (¬ WouldCreate fs path flags ∧ ¬ WouldEmpty fs path flags)) :
    fs' = fs := by
  obtain ⟨⟨file, fs₁⟩, hopen, h⟩ := bind_eq_ok.mp h
  have htable : fs₁.fileTable = fs.fileTable :=
    (((vfsOpenFile_spec hfs ha hfresh).of_ok hopen).mutation ha hfresh).2
  obtain ⟨⟨inode, fs₀⟩, hfind, hopen⟩ := bind_eq_ok.mp hopen
  cases inode with
  | none =>
    -- nothing was found or created
    cases hopen
    cases h
    rcases vfsFindOrCreate_cases hfind with ⟨b, -, hr⟩ | hr | ⟨-, hr⟩
    · cases hr
    · exact congrArg Prod.snd hr
    · cases hr
  | some b =>
    cases hfill : vfsFillFile fs₀ b flags with
    | error e =>
      simp only [hfill] at hopen
      cases hopen
    | ok x =>
      simp only [hfill] at hopen
      cases hopen
      -- the file was there, so the descriptors were all taken
      have hfull : fs.freeFd = none := by
        cases hfd : x.2.freeFd with
        | none => exact (FileSystem.freeFd_congr htable).symm.trans hfd
        | some fd =>
          simp only [id, hfd] at h
          cases h
      obtain ⟨hcreate, hempty⟩ := hcond.resolve_left (not_not_intro hfull)
      have hsame : fs' = x.2 := by
        have hfd : x.2.freeFd = none := (FileSystem.freeFd_congr htable).trans hfull
        simp only [id, hfd] at h
        cases h
        rfl
      rcases vfsFindOrCreate_cases hfind with ⟨b', hres, hr⟩ | hr | ⟨hr, -⟩
      · cases hr
        have hlive := hfs.resolve_live ((vfsResolvePath_spec hfs path).of_ok hres).symm
        obtain ⟨fs₂, n, hfill', hemptied, -⟩ := vfsFillFile_spec flags hfs hlive
        obtain rfl : x = _ := Except.ok.inj (hfill.symm.trans hfill')
        rw [hsame]
        refine hemptied.unchanged hfs fun hflag m blocks hfile => ?_
        by_contra hne
        exact hempty ⟨hflag, b, m, blocks, hres, hfile, hne⟩
      · cases hr
      · exact absurd hr hcreate

/-! ## 2. What it has changed otherwise -/

/-- `shadowfs_create` does what the quota and the names allow. -/
theorem shadowfsCreate_of_enters {dir count : Nat} {d : Inode} {entries : List ShadowfsDentry}
    {name : CString} {type : VfsType} (h : fs.Enters dir d entries count name) :
    shadowfsCreate fs a dir name type = .ok (some a, fs.created a dir d entries count name type) := by
  have hnew : ¬ (entries.find? fun e => e.name = name).isSome = true := by
    simpa using h.new
  rw [shadowfsCreate, FileSystem.deref_eq h.inode]
  simp only [bind, Except.bind, if_neg (Nat.not_le_of_lt h.quota), h.data, if_neg hnew]
  rfl

theorem Emptied.entriesOf (h : Emptied fs b flags fs') (d : Nat) : fs'.entriesOf d = fs.entriesOf d := by
  cases h with
  | not h => rfl
  | dir h hdir => rfl
  | file h hfile => exact FileSystem.entriesOf_rewritten hfile

/-- All descriptors are taken, and a name is created or a file emptied: the call fails and leaves that
behind. -/
theorem changed_of_full (hfs : fs.Ok) (ha : a ≠ 0) (hfresh : fs.inodes a = none)
    (hfull : fs.freeFd = none) (h : WouldCreate fs path flags ∨ WouldEmpty fs path flags) :
    ∃ fs', vfsOpen fs a path flags = .ok (-1, fs') ∧ ¬ Unchanged fs fs' := by
  -- the last steps of the call, once there is an inode
  have hopen : ∀ (fs₀ : FileSystem) (b : Nat), vfsFindOrCreate fs a path flags = .ok (some b, fs₀) →
      fs₀.Ok → fs₀.inodes b ≠ none → fs₀.fileTable = fs.fileTable →
      ∃ fs', vfsOpen fs a path flags = .ok (-1, fs') ∧ Emptied fs₀ b flags fs' := by
    intro fs₀ b hfind hok hlive htable
    obtain ⟨fs', n, hfill, hemptied, -⟩ := vfsFillFile_spec flags hok hlive
    have hfd : fs'.freeFd = none :=
      (FileSystem.freeFd_congr (hemptied.fileTable.trans htable)).trans hfull
    refine ⟨fs', ?_, hemptied⟩
    simp only [vfsOpen, vfsOpenFile, hfind, hfill, bind, Except.bind, Except.map, Prod.map, id, hfd]
  rcases h with ⟨hflag, hres, parentPath, name, dir, d, entries, count, hsplit, hpar, henters⟩ |
    ⟨hflag, b, n, blocks, hres, hfile, hne⟩
  · have hfind : vfsFindOrCreate fs a path flags =
        .ok (some a, fs.created a dir d entries count name .file) := by
      simp only [vfsFindOrCreate, hres, bind, Except.bind, if_neg (not_not_intro hflag), hsplit, hpar]
      exact shadowfsCreate_of_enters henters
    have hlive : (fs.created a dir d entries count name .file).inodes a ≠ none := by
      rw [FileSystem.inodes_created_new (henters.ne hfresh)]
      simp
    obtain ⟨fs', hopen, hemptied⟩ := hopen _ a hfind (hfs.created henters ha hfresh) hlive rfl
    refine ⟨fs', hopen, fun hsame => ?_⟩
    -- the directory has one entry more
    have hentries := hsame.entries dir
    rw [hemptied.entriesOf, FileSystem.entriesOf_created henters hfresh, if_pos rfl] at hentries
    simp at hentries
  · have hfind : vfsFindOrCreate fs a path flags = .ok (some b, fs) := by
      simp only [vfsFindOrCreate, hres, bind, Except.bind]
    have hlive : fs.inodes b ≠ none := by
      rw [hfile.inode]
      simp
    obtain ⟨fs', hopen, hemptied⟩ := hopen fs b hfind hfs hlive rfl
    refine ⟨fs', hopen, fun hsame => ?_⟩
    cases hemptied with
    | not h => exact h hflag
    | dir h hdir =>
      exact hdir.not_isFile (FileSystem.isFile_iff.mpr ⟨n, blocks, _, hfile.inode, hfile.data⟩)
    | @file n' blocks' h hfile' =>
      -- the bytes are gone
      have hbytes := hsame.contents b
      rw [FileSystem.blocksOf_file FileSystem.inodes_rewritten_self rfl,
        FileSystem.blocksOf_file hfile.inode hfile.data, bytesOf_nil] at hbytes
      have hlen := hfile.ok.packed.length_le
      rw [List.length_map] at hlen
      have hbytes' : (bytesOf blocks).length = 0 := by rw [← hbytes, List.length_nil]
      have hzero : blocks.length = 0 := Nat.eq_zero_of_le_zero (hlen.trans hbytes'.le)
      exact hne (List.length_eq_zero_iff.mp hzero)

end OpenFailure

/-- **A failed open changes nothing** exactly when a descriptor is free, or when the call has no name to
create and no file to empty. -/
theorem failed_open_unchanged_iff (fs : FileSystem) (hfs : fs.Ok) (a : Nat) (ha : a ≠ 0)
    (hfresh : fs.inodes a = none) (path : CString) (flags : BitVec 32) :
    (∀ fs', vfsOpen fs a path flags = .ok (-1, fs') → Unchanged fs fs') ↔
      (∃ fd, 3 ≤ fd ∧ fd < 256 ∧ fs.fileTable fd = none) ∨
        (¬ WouldCreate fs path flags ∧ ¬ WouldEmpty fs path flags) := by
  have hfree : fs.freeFd ≠ none ↔ ∃ fd, 3 ≤ fd ∧ fd < 256 ∧ fs.fileTable fd = none := by
    constructor
    · intro h
      obtain ⟨fd, hfd⟩ := Option.ne_none_iff_exists'.mp h
      exact ⟨fd, FileSystem.freeFd_eq_some hfd⟩
    · rintro ⟨fd, hlo, hhi, hnone⟩ h
      have hall := List.find?_eq_none.mp h fd (List.mem_range'_1.mpr ⟨hlo, by simpa [vfsMaxFds] using hhi⟩)
      simp [hnone] at hall
  rw [← hfree]
  constructor
  · intro h
    by_contra hcond
    rw [not_or, not_not, ← not_or, not_not] at hcond
    obtain ⟨fs', hopen, hchanged⟩ := changed_of_full hfs ha hfresh hcond.1 hcond.2
    exact hchanged (h fs' hopen)
  · intro hcond fs' h
    rw [unchanged_of_failed hfs hfresh ha h hcond]
    exact Unchanged.refl fs

/-- A file that is not there, in a mount that has just been set up. -/
theorem failed_open_unchanged_new_mount : ∃ fs',
    vfsOpen tempFs 0x2000 (tempPath ++ [0x2F, 0x66]) oRdonly = .ok (-1, fs') ∧ Unchanged tempFs fs' := by
  have hopen : vfsOpen tempFs 0x2000 (tempPath ++ [0x2F, 0x66]) oRdonly = .ok (-1, tempFs) := by rfl
  refine ⟨tempFs, hopen, ?_⟩
  exact (failed_open_unchanged_iff tempFs (tempFs_reached (fun _ _ => True) trivial).ok 0x2000
    (by decide) (by decide +kernel) _ _).mpr (Or.inl ⟨3, by decide, by decide, by decide +kernel⟩)
    tempFs hopen

/-! ## 3. A crowded table -/

/-- `/temp` is open `k` times. -/
def crowdedFs (k : Nat) : FileSystem :=
  { tempFs with
    fileTable := fun fd => if 3 ≤ fd ∧ fd < 3 + k then some ⟨0x1000, 0, oRdonly⟩ else none }

theorem crowdedFs_freeFd {k : Nat} (hk : k < 253) : (crowdedFs k).freeFd = some (3 + k) := by
  have hrange : List.range' 3 (vfsMaxFds - 3) = List.range' 3 k ++ (3 + k) ::
      List.range' (3 + k + 1) (252 - k) := by
    have hlen : vfsMaxFds - 3 = k + (252 - k + 1) := by
      unfold vfsMaxFds
      omega
    rw [hlen, ← List.range'_append_1, List.range'_succ]
  rw [FileSystem.freeFd, hrange]
  refine List.find?_eq_some_iff_append.mpr ⟨by simp [crowdedFs], _, _, rfl, fun fd hfd => ?_⟩
  have hmem := List.mem_range'_1.mp hfd
  simp [crowdedFs, hmem]

/-- One more open takes the next descriptor. -/
theorem crowdedFs_step {k : Nat} (hk : k < 253) :
    vfsCall (crowdedFs k) 0x2000 (.open tempPath oRdonly) = .ok (.of (3 + k : Nat), crowdedFs (k + 1)) := by
  have hopen : vfsOpenFile (crowdedFs k) 0x2000 tempPath oRdonly =
      .ok (some ⟨0x1000, 0, oRdonly⟩, crowdedFs k) := by rfl
  have hset : (crowdedFs k).setFile (3 + k) (some ⟨0x1000, 0, oRdonly⟩) = crowdedFs (k + 1) := by
    have htable : Function.update (crowdedFs k).fileTable (3 + k) (some ⟨0x1000, 0, oRdonly⟩) =
        (crowdedFs (k + 1)).fileTable := by
      funext fd
      by_cases hfd : fd = 3 + k
      · subst hfd
        simp [crowdedFs]
      · rw [Function.update_of_ne hfd]
        have hiff : (3 ≤ fd ∧ fd < 3 + k) ↔ (3 ≤ fd ∧ fd < 3 + (k + 1)) := by omega
        simp only [crowdedFs, hiff]
    rw [FileSystem.setFile, htable]
    rfl
  simp only [vfsCall, vfsOpen, hopen, bind, Except.bind, crowdedFs_freeFd hk, hset, Except.map]
  rfl

theorem crowdedFs_reached : ∀ k ≤ 253, Reached (fun _ _ => True) (crowdedFs k)
  | 0, _ => by
    have hzero : crowdedFs 0 = tempFs := by
      have htable : (crowdedFs 0).fileTable = tempFs.fileTable := by
        funext fd
        have hno : ¬ (3 ≤ fd ∧ fd < 3 + 0) := by omega
        simp only [crowdedFs, if_neg hno]
        rfl
      have heq : crowdedFs 0 = { tempFs with fileTable := (crowdedFs 0).fileTable } := rfl
      rw [heq, htable]
    rw [hzero]
    exact tempFs_reached _ trivial
  | k + 1, hk => (crowdedFs_reached k (by omega)).tail
      ⟨0x2000, .open tempPath oRdonly, _, by decide, rfl, trivial, trivial, crowdedFs_step (by omega)⟩

/-- With all descriptors taken, a failed `vfs_open("/temp/f", O_CREAT)` leaves `/temp/f` behind. -/
theorem failed_open_creates : ∃ fs fs', Reached (fun _ _ => True) fs ∧
    vfsOpen fs 0x2000 (tempPath ++ [0x2F, 0x66]) oCreat = .ok (-1, fs') ∧ ¬ Unchanged fs fs' := by
  have hreach := crowdedFs_reached 253 le_rfl
  have hfull : (crowdedFs 253).freeFd = none := by
    refine List.find?_eq_none.mpr fun fd hfd => ?_
    have hmem := List.mem_range'_1.mp hfd
    simp only [vfsMaxFds] at hmem
    have hin : 3 ≤ fd ∧ fd < 3 + 253 := by omega
    simp [crowdedFs, hin]
  have hwould : WouldCreate (crowdedFs 253) (tempPath ++ [0x2F, 0x66]) oCreat :=
    ⟨by decide, by rfl, tempPath, [0x66], 0x1000, ⟨1, 0, 0, .dir [] 0⟩, [], 0, by rfl, by rfl,
      ⟨by rfl, rfl, by decide +kernel, by simp⟩⟩
  obtain ⟨fs', hopen, hchanged⟩ := changed_of_full (a := 0x2000) hreach.ok (by decide) (by rfl) hfull
    (Or.inl hwould)
  exact ⟨_, fs', hreach, hopen, hchanged⟩

end AcornOS
