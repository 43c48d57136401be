/-
# Descriptors over whole runs

Three things a caller takes for granted and the source does not see to, each with the condition on the
calls under which it does hold.

* **Types.**  `vfs_mkdir` and `vfs_readdir` look at the type of the inode they work on; the walk along a
  path, `create`, `delete`, `read` and `write` do not.  `Call.Confuses` lists the calls that come to take
  one view of the union for the other.
* **Lifetime.**  `shadowfs_delete` frees the inode whoever has it open.
* **Modes.**  `vfs_read` and `vfs_write` compare ALL flags with one mode, so that any further flag turns
  the check off.
-/
import AcornOS.FileSystem.Calls

namespace AcornOS

open Lib Relation

/-! ## 1. Types -/

/-- **No call takes a file for a directory or a directory for a file**, in a run whose calls keep clear
of it: no path leads through a file, no name is created in or deleted from a file, and no bytes are read
or written through the descriptor of a directory. -/
theorem views_agree (fs : FileSystem) (hreach : Reached (fun fs c => ¬ c.Confuses fs) fs) (a : Nat)
    (c : Call) (ha : a ≠ 0) (hfresh : fs.inodes a = none) (hsized : c.Sized) (hc : ¬ c.Confuses fs) :
    vfsCall fs a c ≠ .error .wrongView := by
  intro h
  cases (vfsCall_spec hreach.ok ha hfresh hsized).of_error h with
  | wrongView hconf => exact hc hconf

/-- `/temp` -/
def tempPath : CString := [0x2F, 0x74, 0x65, 0x6D, 0x70]

/-- A shadowFS of 1MB at `/temp`. -/
def tempFs : FileSystem := FileSystem.vfsInit.after 0x1000 (.mount 65536 tempPath 1048576)

theorem tempFs_reached (P : FileSystem → Call → Prop)
    (hP : P .vfsInit (.mount 65536 tempPath 1048576)) : Reached P tempFs :=
  .single (.after (by decide) rfl (by simp [Call.Sized]) hP (by decide +kernel))

/-- A directory can be made in a mount that has just been set up. -/
theorem views_agree_mkdir :
    vfsCall tempFs 0x2000 (.mkdir (tempPath ++ [0x2F, 0x64])) ≠ .error .wrongView := by
  refine views_agree tempFs (tempFs_reached _ fun h => h) 0x2000 _ (by decide) (by decide +kernel)
    trivial ?_
  rintro ⟨parentPath, name, hsplit, i, hi, hroot, hpoint, -⟩
  have hparent : parentPath = tempPath := by
    have hok : splitPath (tempPath ++ [0x2F, 0x64]) = .ok (tempPath, [0x64]) := by decide +kernel
    rw [hok] at hsplit
    cases hsplit
    rfl
  have hfind : vfsFindMount tempFs tempPath = some 0 := by decide +kernel
  rw [hparent, hfind] at hi
  cases hi
  exact hpoint (hparent.trans (by decide +kernel))

/-- A file `/temp/f`, and then `/temp/f/x`: the blocks of the file are searched for the name. -/
theorem file_searched_as_directory : ∃ fs, Reached (fun _ _ => True) fs ∧
    vfsCall fs 0x3000 (.open (tempPath ++ [0x2F, 0x66, 0x2F, 0x78]) oRdonly) = .error .wrongView := by
  refine ⟨tempFs.after 0x2000 (.open (tempPath ++ [0x2F, 0x66]) oCreat), ?_, by rfl⟩
  refine (tempFs_reached _ trivial).tail ?_
  exact .after (by decide) (by decide +kernel) trivial trivial (by decide +kernel)

/-! ## 2. Lifetime -/

/-- Every descriptor leads to an inode that has not been freed. -/
def FileSystem.FilesLive (fs : FileSystem) : Prop :=
  ∀ fd f, fs.fileTable fd = some f → fs.inodes f.inode ≠ none

/-- The call deletes a name whose inode some descriptor leads to. -/
def Call.Undercuts (fs : FileSystem) : Call → Prop
  | .delete path => ∃ parentPath name dir b fd f, splitPath path = .ok (parentPath, name) ∧
      fs.resolve parentPath = some dir ∧ fs.lookup dir name = some b ∧ fs.fileTable fd = some f ∧
      f.inode = b
  | _ => False

section Lifetime

variable {fs fs' : FileSystem} {a b : Nat} {c : Call} {path : CString} {entry : ShadowfsDentry}

/-- Nothing but `vfs_delete` frees an inode. -/
theorem Mutation.live (h : Mutation fs fs') (hb : fs.inodes b ≠ none) : fs'.inodes b ≠ none := by
  obtain ⟨n, hn⟩ := Option.ne_none_iff_exists'.mp hb
  obtain ⟨n', hn', -⟩ := h.inode hn
  simp [hn']

theorem Mutation.live_run (h : ReflTransGen Mutation fs fs') (hb : fs.inodes b ≠ none) :
    fs'.inodes b ≠ none :=
  reach_invariant (I := fun fs => fs.inodes b ≠ none) h hb fun _ _ hlive hmut => hmut.live hlive

/-- `vfs_delete` frees the one inode, and leaves the descriptors alone. -/
theorem Deletion.live (h : Deletion fs path entry fs') (hne : b ≠ entry.inode)
    (hb : fs.inodes b ≠ none) : fs'.inodes b ≠ none := by
  obtain ⟨_, _, _, _, _, _, -, -, hrem, rfl⟩ := h
  obtain ⟨n, hn⟩ := Option.ne_none_iff_exists'.mp hb
  obtain ⟨n', hn', -⟩ := FileSystem.type_deleted hrem hne hn
  simp [hn']

theorem FileSystem.Removes.lookup {dir count : Nat} {d : Inode} {entries : List ShadowfsDentry}
    {name : CString} (h : fs.Removes dir d entries count name entry) :
    fs.lookup dir name = some entry.inode := by
  rw [FileSystem.lookup, FileSystem.entriesOf_dir h.inode h.data, h.found]
  rfl

/-- **One step keeps the descriptors alive**, unless it deletes what one of them leads to. -/
theorem Effect.filesLive (h : Effect fs a c fs') (hlive : fs.FilesLive) (hc : ¬ c.Undercuts fs) :
    fs'.FilesLive := by
  intro fd f' hf'
  cases h with
  | mutation hmut hkeeps =>
    rcases hkeeps fd f' hf' with ⟨f, hf, hinode, -⟩ | ⟨path, -, hnew⟩
    · exact Mutation.live_run hmut (hinode ▸ hlive fd f hf)
    · exact hnew
  | @delete path entry _ hdel =>
    have hopen : ∀ fd f, fs.fileTable fd = some f → f.inode ≠ entry.inode := by
      intro fd f hf heq
      obtain ⟨parentPath, name, dir, d, entries, count, hsplit, hres, hrem, rfl⟩ := hdel
      exact hc ⟨parentPath, name, dir, entry.inode, fd, f, hsplit, hres, hrem.lookup, hf, heq⟩
    have hf : fs.fileTable fd = some f' := by
      obtain ⟨_, _, _, _, _, _, -, -, -, rfl⟩ := hdel
      exact hf'
    exact hdel.live (hopen fd f' hf) (hlive fd f' hf)
  | mount hquota hnew hi =>
    have hold : fs.inodes f'.inode ≠ none := hlive fd f' hf'
    by_cases heq : f'.inode = a
    · rw [heq]
      simp [FileSystem.mounted, FileSystem.setRoot, FileSystem.inodes_createInode_self]
    · rw [FileSystem.inodes_mounted_of_ne heq]
      exact hold

end Lifetime

/-- **No descriptor outlives its inode**, in a run in which nothing is deleted while a descriptor leads to
it: every descriptor leads to an inode that has not been freed, and no call meets a freed one. -/
theorem descriptors_live (fs : FileSystem) (hreach : Reached (fun fs c => ¬ c.Undercuts fs) fs) :
    (∀ fd f, fs.fileTable fd = some f → ∃ n, fs.inodes f.inode = some n) ∧
      ∀ a c, a ≠ 0 → fs.inodes a = none → c.Sized → vfsCall fs a c ≠ .error .freed := by
  have hlive : fs.Ok ∧ fs.FilesLive := by
    refine reach_invariant (I := fun fs => fs.Ok ∧ fs.FilesLive) hreach
      ⟨vfsInit_ok, fun fd f hf => nomatch hf⟩ fun fs fs' hfs hstep => ⟨hstep.ok hfs.1, ?_⟩
    obtain ⟨a, c, r, ha, hfresh, hsized, hc, h⟩ := hstep
    exact ((vfsCall_spec hfs.1 ha hfresh hsized).of_ok h).filesLive hfs.2 hc
  refine ⟨fun fd f hf => Option.ne_none_iff_exists'.mp (hlive.2 fd f hf), ?_⟩
  intro a c ha hfresh hsized h
  cases (vfsCall_spec hlive.1 ha hfresh hsized).of_error h with
  | freed hdangles =>
    -- a call through a descriptor meets the inode of that descriptor
    have hopen : ∀ fd : Int, ¬ ∃ f, fs.Open fd f ∧ fs.inodes f.inode = none :=
      fun fd ⟨f, hf, hn⟩ => hlive.2 _ f hf.table hn
    cases c <;> first | exact hopen _ hdangles | exact hdangles

/-- The state with `/temp/f` open. -/
def tempFileFs : FileSystem := tempFs.after 0x2000 (.open (tempPath ++ [0x2F, 0x66]) oCreat)

theorem tempFileFs_reached (P : FileSystem → Call → Prop)
    (hP : P .vfsInit (.mount 65536 tempPath 1048576))
    (hP' : P tempFs (.open (tempPath ++ [0x2F, 0x66]) oCreat)) : Reached P tempFileFs :=
  (tempFs_reached P hP).tail
    (.after (by decide) (by decide +kernel) trivial hP' (by decide +kernel))

theorem descriptors_live_opened : ∃ f n, tempFileFs.fileTable 3 = some f ∧
    tempFileFs.inodes f.inode = some n := by
  have hlive := (descriptors_live tempFileFs (tempFileFs_reached _ (fun h => h) fun h => h)).1
  obtain ⟨f, hf⟩ : ∃ f, tempFileFs.fileTable 3 = some f :=
    Option.isSome_iff_exists.mp (by decide +kernel)
  obtain ⟨n, hn⟩ := hlive 3 f hf
  exact ⟨f, n, hf, hn⟩

/-- `/temp/f` is opened and deleted, and then read. -/
theorem read_after_delete : ∃ fs, Reached (fun _ _ => True) fs ∧
    (∃ f, fs.fileTable 3 = some f ∧ fs.inodes f.inode = none) ∧
    vfsCall fs 0x3000 (.read 3 1) = .error .freed := by
  refine ⟨tempFileFs.after 0x3000 (.delete (tempPath ++ [0x2F, 0x66])), ?_,
    ⟨⟨0x2000, 0, oCreat⟩, by decide +kernel, by decide +kernel⟩, by rfl⟩
  refine (tempFileFs_reached _ trivial trivial).tail ?_
  exact .after (by decide) (by decide +kernel) trivial trivial (by decide +kernel)

/-! ## 3. Modes -/

/-- The access mode in the flags. -/
def accessMode (flags : BitVec 32) : BitVec 32 := flags &&& (oWronly ||| oRdwr)

/-- Flags by which a descriptor can be told to be for reading only, or for writing only: the mode is all
there is to them. -/
def ModeAlone (flags : BitVec 32) : Prop :=
  (accessMode flags = oRdonly → flags = oRdonly) ∧ (accessMode flags = oWronly → flags = oWronly)

/-- The call opens a file with flags that hide their mode. -/
def Call.HidesMode : Call → Prop
  | .open _ flags => ¬ ModeAlone flags
  | _ => False

/-- **One step** makes no descriptor whose flags hide their mode. -/
theorem Effect.modeAlone {fs fs' : FileSystem} {a : Nat} {c : Call} (h : Effect fs a c fs')
    (hmodes : ∀ fd f, fs.fileTable fd = some f → ModeAlone f.flags) (hc : ¬ c.HidesMode) :
    ∀ fd f, fs'.fileTable fd = some f → ModeAlone f.flags := by
  intro fd f' hf'
  cases h with
  | mutation hmut hkeeps =>
    rcases hkeeps fd f' hf' with ⟨f, hf, -, hflags⟩ | ⟨path, rfl, -⟩
    · exact hflags ▸ hmodes fd f hf
    · exact not_not.mp hc
  | delete hdel =>
    obtain ⟨_, _, _, _, _, _, -, -, -, rfl⟩ := hdel
    exact hmodes fd f' hf'
  | mount hquota hnew hi => exact hmodes fd f' hf'

/-- **The mode is kept to**, in a run whose opens pass no other flag with `O_RDONLY` or `O_WRONLY`: a
write through a descriptor for reading returns no positive count and changes nothing, and a read through
one for writing returns no positive count. -/
theorem modes_enforced (fs : FileSystem) (hreach : Reached (fun _ c => ¬ c.HidesMode) fs) (fd : Int)
    (f : File) (hopen : vfsGetFile fs fd = some f) :
    (accessMode f.flags = oRdonly → ∀ buf r fs', vfsWrite fs fd buf = .ok (r, fs') →
      r ≤ 0 ∧ fs' = fs) ∧
    (accessMode f.flags = oWronly → ∀ size r bytes fs', vfsRead fs fd size = .ok (r, bytes, fs') →
      r ≤ 0) := by
  have hmodes : fs.Ok ∧ ∀ fd f, fs.fileTable fd = some f → ModeAlone f.flags := by
    refine reach_invariant
      (I := fun fs => fs.Ok ∧ ∀ fd f, fs.fileTable fd = some f → ModeAlone f.flags) hreach
      ⟨vfsInit_ok, fun fd f hf => nomatch hf⟩ fun fs fs' hfs hstep => ⟨hstep.ok hfs.1, ?_⟩
    obtain ⟨a, c, r, ha, hfresh, hsized, hc, h⟩ := hstep
    exact ((vfsCall_spec hfs.1 ha hfresh hsized).of_ok h).modeAlone hfs.2 hc
  have hmode : ModeAlone f.flags := hmodes.2 _ f (FileSystem.Open.table hopen)
  constructor
  · intro hread buf r fs' h
    rw [vfsWrite, hopen] at h
    simp only [hmode.1 hread, if_true] at h
    cases h
    exact ⟨by decide, rfl⟩
  · intro hwrite size r bytes fs' h
    rw [vfsRead, hopen] at h
    simp only [hmode.2 hwrite, if_true] at h
    cases h
    decide

/-- `/temp/f` made through descriptor 3 and opened again for reading. -/
def tempReadFs : FileSystem :=
  (tempFs.after 0x2000 (.open (tempPath ++ [0x2F, 0x66]) (oCreat ||| oRdwr))).after 0x3000
    (.open (tempPath ++ [0x2F, 0x66]) oRdonly)

/-- Nothing is written through descriptor 4. -/
theorem modes_enforced_read_only : ∃ r fs',
    vfsWrite tempReadFs 4 [0x41] = .ok (r, fs') ∧ r ≤ 0 ∧ fs' = tempReadFs := by
  have hmode : ∀ flags ∈ [oCreat ||| oRdwr, oRdonly], ModeAlone flags := by
    intro flags hflags
    rcases List.mem_pair.mp hflags with rfl | rfl
    · exact ⟨by decide, by decide⟩
    · exact ⟨by decide, by decide⟩
  have hfirst : CallStep (fun _ c => ¬ c.HidesMode) tempFs (tempFs.after 0x2000
      (.open (tempPath ++ [0x2F, 0x66]) (oCreat ||| oRdwr))) :=
    .after (by decide) (by decide +kernel) trivial (not_not_intro (hmode _ (by simp)))
      (by decide +kernel)
  have hsecond : CallStep (fun _ c => ¬ c.HidesMode) _ tempReadFs :=
    .after (c := .open (tempPath ++ [0x2F, 0x66]) oRdonly) (by decide) (by decide +kernel) trivial
      (not_not_intro (hmode _ (by simp))) (by decide +kernel)
  have hopen : vfsGetFile tempReadFs 4 = some ⟨0x2000, 0, oRdonly⟩ := by decide +kernel
  have hwrite : vfsWrite tempReadFs 4 [0x41] = .ok (-1, tempReadFs) := by rfl
  refine ⟨-1, tempReadFs, hwrite, ?_⟩
  exact (modes_enforced tempReadFs (((tempFs_reached _ fun h => h).tail hfirst).tail hsecond) 4 _
    hopen).1 (by decide) _ _ _ hwrite

/-- `/temp/f` opened with `O_RDONLY | O_CREAT` is written. -/
theorem read_only_written : ∃ fs f fs', Reached (fun _ _ => True) fs ∧ vfsGetFile fs 3 = some f ∧
    accessMode f.flags = oRdonly ∧ vfsWrite fs 3 [0x41] = .ok (1, fs') := by
  have hok : (vfsWrite tempFileFs 3 [0x41]).toOption.map Prod.fst = some 1 := by decide +kernel
  obtain ⟨⟨r, fs'⟩, hwrite, hr⟩ := Option.map_eq_some_iff.mp hok
  cases h : vfsWrite tempFileFs 3 [0x41] with
  | error e =>
    rw [h] at hwrite
    cases hwrite
  | ok x =>
    rw [h] at hwrite
    cases hwrite
    cases hr
    exact ⟨tempFileFs, ⟨0x2000, 0, oCreat⟩, fs', tempFileFs_reached _ trivial trivial,
      by decide +kernel, by decide, h⟩

end AcornOS
