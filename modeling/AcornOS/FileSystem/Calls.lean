/-
# Calls and runs

The calls of `vfs.c` as one step function, and what each of them does.

* `vfsCall` is a call; `CallStep P` is a step of a run whose calls all satisfy `P` in the state they are
  made in.  A run ends with a call that faults.
* Each call has ONE specification: the mutations of the tree it is made of, what becomes of the
  descriptors (`Keeps`), and the faults it can end in (`Faults`).  Everything about runs is derived from
  these.
* **`CallStep.ok`**: the tree stays in order.
-/
import AcornOS.FileSystem.Names

namespace AcornOS

open Lib Relation

/-! ## 1. Calls -/

inductive Call where
  | mount (freePages : Nat) (path : CString) (quota : Nat)
  | open (path : CString) (flags : BitVec 32)
  | close (fd : Int)
  | read (fd : Int) (size : Nat)
  | write (fd : Int) (buf : List (BitVec 8))
  | seek (fd : Int) (offset : BitVec 32) (whence : Nat)
  | mkdir (path : CString)
  | readdir (fd : Int)
  | delete (path : CString)
deriving Repr, DecidableEq

/-- What a call gives back. -/
structure Reply where
  result : Int
  bytes : List (BitVec 8)
  dentry : Option Dentry
deriving Repr, DecidableEq

/-- A reply of a number alone. -/
def Reply.of (result : Int) : Reply := ⟨result, [], none⟩

/-- One call, when a new inode would come to lie at `a`. -/
def vfsCall (fs : FileSystem) (a : Nat) : Call → Except Fault (Reply × FileSystem)
  | .mount freePages path quota => .ok ((shadowfsMount fs freePages a path quota).map Reply.of id)
  | .open path flags => (vfsOpen fs a path flags).map (Prod.map Reply.of id)
  | .close fd => (vfsClose fs fd).map (Prod.map Reply.of id)
  | .read fd size => (vfsRead fs fd size).map fun (result, bytes, fs) => (⟨result, bytes, none⟩, fs)
  | .write fd buf => (vfsWrite fs fd buf).map (Prod.map Reply.of id)
  | .seek fd offset whence => (vfsSeek fs fd offset whence).map (Prod.map Reply.of id)
  | .mkdir path => (vfsMkdir fs a path).map (Prod.map Reply.of id)
  | .readdir fd => (vfsReaddir fs fd).map fun (result, dentry, fs) => (⟨result, [], dentry⟩, fs)
  | .delete path => (vfsDelete fs path).map (Prod.map Reply.of id)

/-- Sizes are 32-bit numbers. -/
def Call.Sized : Call → Prop
  | .mount _ _ quota => quota < 2 ^ 32
  | .read _ size => size < 2 ^ 32
  | .write _ buf => buf.length < 2 ^ 32
  | _ => True

/-- A step of a run: a call that satisfies `P` and returns.  The address of a new inode is one that is
not in use. -/
inductive CallStep (P : FileSystem → Call → Prop) (fs fs' : FileSystem) : Prop
  | intro (a : Nat) (c : Call) (r : Reply) (ha : a ≠ 0) (hfresh : fs.inodes a = none)
      (hsized : c.Sized) (hP : P fs c) (h : vfsCall fs a c = .ok (r, fs'))

/-! ## 2. Specifications -/

/-- The descriptor leads to the file, or directory, `f`. -/
def FileSystem.Open (fs : FileSystem) (fd : Int) (f : File) : Prop := vfsGetFile fs fd = some f

/-- A file that a name could be created in, as far as the quota goes. -/
def FileSystem.FileWithRoom (fs : FileSystem) (b : Nat) : Prop :=
  ∃ n, fs.inodes b = some n ∧ n.type = .file ∧ (fs.mountOf n.sb).used < (fs.mountOf n.sb).quota

/-- The call would take a file for a directory, or a directory for a file: there is a file on the way
along a path, or in the place of a parent directory, or bytes are read or written through the descriptor
of a directory. -/
def Call.Confuses (fs : FileSystem) : Call → Prop
  | .open path flags => fs.PassesFile path ∨ (fs.resolve path = none ∧ Sets flags oCreat ∧
      ∃ parentPath name, splitPath path = .ok (parentPath, name) ∧ (fs.PassesFile parentPath ∨
        ∃ b, fs.resolve parentPath = some b ∧ fs.FileWithRoom b))
  | .mkdir path => ∃ parentPath name, splitPath path = .ok (parentPath, name) ∧
      fs.PassesFile parentPath
  | .delete path => ∃ parentPath name, splitPath path = .ok (parentPath, name) ∧
      (fs.PassesFile parentPath ∨ ∃ b, fs.resolve parentPath = some b ∧ fs.IsFile b)
  | .read fd size => ∃ f, fs.Open fd f ∧ fs.IsDir f.inode ∧ f.flags ≠ oWronly ∧ f.position ≠ 0 ∧
      size ≠ 0
  | .write fd buf => ∃ f, fs.Open fd f ∧ fs.IsDir f.inode ∧ f.flags ≠ oRdonly ∧ buf ≠ []
  | _ => False

/-- The descriptor of the call, if it has one, leads to an inode that has been freed. -/
def Call.Dangles (fs : FileSystem) : Call → Prop
  | .close fd | .read fd _ | .write fd _ | .seek fd _ _ | .readdir fd =>
    ∃ f, fs.Open fd f ∧ fs.inodes f.inode = none
  | _ => False

/-- The faults a call can end in, and why. -/
inductive Faults (fs : FileSystem) (c : Call) : Fault → Prop
  | overrun : Faults fs c .overrun
  | wrongView (h : c.Confuses fs) : Faults fs c .wrongView
  | freed (h : c.Dangles fs) : Faults fs c .freed

/-- What becomes of the descriptors: each is an old one, perhaps at another position, or the one that
`vfs_open` has made. -/
def Keeps (fs : FileSystem) (c : Call) (fs' : FileSystem) : Prop :=
  ∀ fd f', fs'.fileTable fd = some f' →
    (∃ f, fs.fileTable fd = some f ∧ f.inode = f'.inode ∧ f.flags = f'.flags) ∨
    ∃ path, c = .open path f'.flags ∧ fs'.inodes f'.inode ≠ none

/-- A name of the given type is created at the end of the path, and its inode lies at `a`. -/
def Creation (fs : FileSystem) (a : Nat) (path : CString) (type : VfsType) (fs' : FileSystem) : Prop :=
  ∃ parentPath name dir d entries count, splitPath path = .ok (parentPath, name) ∧
    fs.resolve parentPath = some dir ∧ fs.Enters dir d entries count name ∧
    fs' = fs.created a dir d entries count name type

/-- The name at the end of the path is deleted, with its entry `entry`. -/
def Deletion (fs : FileSystem) (path : CString) (entry : ShadowfsDentry) (fs' : FileSystem) : Prop :=
  ∃ parentPath name dir d entries count, splitPath path = .ok (parentPath, name) ∧
    fs.resolve parentPath = some dir ∧ fs.Removes dir d entries count name entry ∧
    fs' = fs.deleted dir d entries count name entry

/-- Step 5 of `vfs_open_file`: a file is emptied if the flags say so. -/
inductive Emptied (fs : FileSystem) (b : Nat) (flags : BitVec 32) : FileSystem → Prop
  | not (h : ¬ Sets flags oTrunc) : Emptied fs b flags fs
  | dir (h : Sets flags oTrunc) (hdir : fs.IsDir b) : Emptied fs b flags fs
  | file {n : Inode} {blocks : List ShadowfsBlock} (h : Sets flags oTrunc)
      (hfile : fs.FileAt b n blocks) : Emptied fs b flags (fs.rewritten b n []
        (sub32 (fs.mountOf n.sb).used (sizeofShadowfsBlock * blocks.length)))

/-- `vfs_open_file`: it finds nothing, it finds an inode, or it creates one. -/
inductive OpensFile (fs : FileSystem) (a : Nat) (path : CString) (flags : BitVec 32) :
    Option File × FileSystem → Prop
  | fail (h : fs.resolve path = none) : OpensFile fs a path flags (none, fs)
  | found {b : Nat} {n : Inode} {fs' : FileSystem} (h : fs.resolve path = some b)
      (hempty : Emptied fs b flags fs') (hn : fs'.inodes b = some n) :
      OpensFile fs a path flags (some ⟨b, startAt n flags, flags⟩, fs')
  | new {n : Inode} {fs₁ fs' : FileSystem} (h : fs.resolve path = none) (hflag : Sets flags oCreat)
      (hcreate : Creation fs a path .file fs₁) (hempty : Emptied fs₁ a flags fs')
      (hn : fs'.inodes a = some n) :
      OpensFile fs a path flags (some ⟨a, startAt n flags, flags⟩, fs')

section Specs

variable {fs fs' fs₁ : FileSystem} {a b : Nat} {path : CString} {flags : BitVec 32} {c : Call}
  {fd : Int} {f f' : File} {type : VfsType}

@[simp] theorem FileSystem.fileTable_setFile_self {g : Option File} :
    (fs.setFile b g).fileTable b = g :=
  Function.update_self ..

theorem FileSystem.fileTable_setFile_of_ne {g : Option File} (h : a ≠ b) :
    (fs.setFile b g).fileTable a = fs.fileTable a :=
  Function.update_of_ne h ..

theorem FileSystem.Open.table (h : fs.Open fd f) : fs.fileTable fd.toNat = some f := by
  unfold Open vfsGetFile at h
  split at h
  · cases h
  · exact h

theorem Keeps.of_eq (h : fs'.fileTable = fs.fileTable) : Keeps fs c fs' := by
  intro fd f' hf'
  exact Or.inl ⟨f', h ▸ hf', rfl, rfl⟩

/-- A descriptor is moved. -/
theorem Keeps.setFile (h : fs₁.fileTable = fs.fileTable) (hopen : fs.Open fd f)
    (hinode : f'.inode = f.inode) (hflags : f'.flags = f.flags) :
    Keeps fs c (fs₁.setFile fd.toNat (some f')) := by
  intro fd' g hg
  by_cases hfd : fd' = fd.toNat
  · subst hfd
    rw [FileSystem.fileTable_setFile_self] at hg
    cases hg
    exact Or.inl ⟨f, hopen.table, hinode.symm, hflags.symm⟩
  · rw [FileSystem.fileTable_setFile_of_ne hfd, h] at hg
    exact Or.inl ⟨g, hg, rfl, rfl⟩

/-- A descriptor is closed. -/
theorem Keeps.unset : Keeps fs c (fs.setFile b none) := by
  intro fd g hg
  by_cases hfd : fd = b
  · subst hfd
    rw [FileSystem.fileTable_setFile_self] at hg
    cases hg
  · rw [FileSystem.fileTable_setFile_of_ne hfd] at hg
    exact Or.inl ⟨g, hg, rfl, rfl⟩

theorem Creation.mutation (h : Creation fs a path type fs') (ha : a ≠ 0)
    (hfresh : fs.inodes a = none) : Mutation fs fs' := by
  obtain ⟨_, _, _, _, _, _, -, -, henters, rfl⟩ := h
  exact Mutation.create henters ha hfresh

theorem Emptied.mutation (h : Emptied fs b flags fs') : ReflTransGen Mutation fs fs' := by
  cases h with
  | not h => exact .refl
  | dir h hdir => exact .refl
  | file h hfile => exact .single (.truncate hfile)

/-! ### Opening -/

/-- Following a path inside a call: the faults of the walk are faults of the call. -/
theorem vfsResolvePath_in (c : Call) (hfs : fs.Ok) (hpasses : fs.PassesFile path → c.Confuses fs) :
    Ensures (vfsResolvePath fs path) (Faults fs c) (fun r => r = fs.resolve path) := by
  refine (vfsResolvePath_spec hfs path).mono (fun e he => ?_) fun r hr => hr
  rcases he with ⟨rfl, -⟩ | ⟨rfl, h⟩
  · exact .overrun
  · exact .wrongView (hpasses h)

theorem splitPath_in : Ensures (splitPath path) (Faults fs c) (fun r => splitPath path = .ok r) := by
  refine (ensures_eq (splitPath path)).mono (fun e he => ?_) fun r hr => hr
  unfold splitPath at he
  split at he
  · split at he
    · cases he
    · cases he
      exact .overrun
  · split at he
    · cases he
      exact .overrun
    · cases he

/-- `shadowfs_create` in an inode that has not been freed. -/
theorem shadowfsCreate_in {dir : Nat} {name : CString} (hlive : fs.inodes dir ≠ none)
    (hfile : fs.FileWithRoom dir → c.Confuses fs) :
    Ensures (shadowfsCreate fs a dir name type) (Faults fs c)
      (fun r => r = (none, fs) ∨ ∃ d entries count, fs.Enters dir d entries count name ∧
        r = (some a, fs.created a dir d entries count name type)) := by
  constructor
  · rintro ⟨r, fs'⟩ h
    rcases shadowfsCreate_cases h with ⟨rfl, rfl⟩ | ⟨d, entries, count, henters, rfl, rfl⟩
    · exact Or.inl rfl
    · exact Or.inr ⟨d, entries, count, henters, rfl⟩
  · intro e h
    obtain ⟨d, hd⟩ := Option.ne_none_iff_exists'.mp hlive
    unfold shadowfsCreate at h
    rw [FileSystem.deref_eq hd] at h
    simp only [bind, Except.bind] at h
    split at h
    · cases h
    · rename_i hquota
      cases hdata : d.privateData with
      | file blocks count =>
        simp only [hdata] at h
        cases h
        exact .wrongView (hfile ⟨d, hd, by simp [Inode.type, hdata], Nat.lt_of_not_le hquota⟩)
      | dir entries count =>
        simp only [hdata] at h
        split at h <;> cases h

/-- Steps 1 and 2 of `vfs_open_file`. -/
theorem vfsFindOrCreate_spec (hfs : fs.Ok) : Ensures (vfsFindOrCreate fs a path flags)
    (Faults fs (.open path flags)) (fun r => r = (fs.resolve path, fs) ∨ (fs.resolve path = none ∧
      Sets flags oCreat ∧ ∃ fs', Creation fs a path .file fs' ∧ r = (some a, fs'))) := by
  unfold vfsFindOrCreate
  refine (vfsResolvePath_in (.open path flags) hfs Or.inl).bind fun r hr => ?_
  subst hr
  cases hres : fs.resolve path with
  | some b => exact ensures_ok.mpr (Or.inl rfl)
  | none =>
    simp only
    by_cases hflag : Sets flags oCreat
    · rw [if_neg (not_not_intro hflag)]
      refine splitPath_in.bind fun (parentPath, name) hsplit => ?_
      have hconfuses : (fs.PassesFile parentPath ∨
          ∃ b, fs.resolve parentPath = some b ∧ fs.FileWithRoom b) →
          (Call.open path flags).Confuses fs :=
        fun h => Or.inr ⟨hres, hflag, parentPath, name, hsplit, h⟩
      refine (vfsResolvePath_in _ hfs fun h => hconfuses (Or.inl h)).bind fun r hr => ?_
      subst hr
      cases hpar : fs.resolve parentPath with
      | none => exact ensures_ok.mpr (Or.inl rfl)
      | some dir =>
        refine (shadowfsCreate_in (hfs.resolve_live hpar)
          fun h => hconfuses (Or.inr ⟨dir, hpar, h⟩)).mono (fun e he => he) fun r hr => ?_
        rcases hr with rfl | ⟨d, entries, count, henters, rfl⟩
        · exact Or.inl rfl
        · exact Or.inr ⟨trivial, hflag, _,
            ⟨parentPath, name, dir, d, entries, count, hsplit, hpar, henters, rfl⟩, rfl⟩
    · rw [if_pos hflag]
      exact ensures_ok.mpr (Or.inl rfl)

/-- Steps 3 to 7 of `vfs_open_file`, for an inode that is there. -/
theorem vfsFillFile_spec (flags : BitVec 32) (hfs : fs.Ok) (hlive : fs.inodes b ≠ none) :
    ∃ fs' n, vfsFillFile fs b flags = .ok (⟨b, startAt n flags, flags⟩, fs') ∧
      Emptied fs b flags fs' ∧ fs'.inodes b = some n := by
  obtain ⟨n, hn⟩ := Option.ne_none_iff_exists'.mp hlive
  have hempty : ∃ fs' n', vfsTruncateOpened fs b flags = .ok fs' ∧ Emptied fs b flags fs' ∧
      fs'.inodes b = some n' := by
    unfold vfsTruncateOpened
    by_cases hflag : Sets flags oTrunc
    · rw [if_pos hflag]
      cases hdata : n.privateData with
      | file blocks count =>
        have hfile := hfs.files b n blocks count hn hdata
        rw [shadowfsTruncate_zero hfile]
        exact ⟨_, _, rfl, .file hflag hfile, FileSystem.inodes_rewritten_self⟩
      | dir entries count =>
        have htrunc : shadowfsTruncate fs b 0 = .ok (-1, fs) := by
          rw [shadowfsTruncate, FileSystem.deref_eq hn]
          simp only [bind, Except.bind, hdata]
        rw [htrunc]
        have hdir : fs.IsDir b := FileSystem.isDir_iff.mpr ⟨n, entries, count, hn, hdata⟩
        exact ⟨fs, n, rfl, .dir hflag hdir, hn⟩
    · rw [if_neg hflag]
      exact ⟨fs, n, rfl, .not hflag, hn⟩
  obtain ⟨fs', n', heq, hempty, hn'⟩ := hempty
  refine ⟨fs', n', ?_, hempty, hn'⟩
  rw [vfsFillFile, heq]
  simp only [bind, Except.bind, FileSystem.deref_eq hn']

theorem Creation.live (h : Creation fs a path type fs') (hfresh : fs.inodes a = none) :
    fs'.inodes a ≠ none := by
  obtain ⟨_, _, _, _, _, _, -, -, henters, rfl⟩ := h
  rw [FileSystem.inodes_created_new (henters.ne hfresh)]
  simp

/-- **`vfs_open_file`** -/
theorem vfsOpenFile_spec (hfs : fs.Ok) (ha : a ≠ 0) (hfresh : fs.inodes a = none) :
    Ensures (vfsOpenFile fs a path flags) (Faults fs (.open path flags))
      (OpensFile fs a path flags) := by
  unfold vfsOpenFile
  refine (vfsFindOrCreate_spec hfs).bind fun r hr => ?_
  rcases hr with rfl | ⟨hres, hflag, fs₁, hcreate, rfl⟩
  · cases hres : fs.resolve path with
    | none => exact ensures_ok.mpr (.fail hres)
    | some b =>
      obtain ⟨fs', n, heq, hempty, hn⟩ := vfsFillFile_spec flags hfs (hfs.resolve_live hres)
      show Ensures ((vfsFillFile fs b flags).map (Prod.map some id)) _ _
      rw [heq]
      exact ensures_ok.mpr (.found hres hempty hn)
  · obtain ⟨fs', n, heq, hempty, hn⟩ := vfsFillFile_spec flags ((hcreate.mutation ha hfresh).ok hfs)
      (hcreate.live hfresh)
    show Ensures ((vfsFillFile fs₁ a flags).map (Prod.map some id)) _ _
    rw [heq]
    exact ensures_ok.mpr (.new hres hflag hcreate hempty hn)

theorem FileSystem.freeFd_eq_some {fd : Nat} (h : fs.freeFd = some fd) :
    3 ≤ fd ∧ fd < vfsMaxFds ∧ fs.fileTable fd = none := by
  have hmem := List.mem_range'_1.mp (List.mem_of_find?_eq_some h)
  have hnone := List.find?_some h
  simp only [vfsMaxFds] at hmem ⊢
  exact ⟨hmem.1, by omega, by simpa using hnone⟩

/-- Mutations other than of the descriptors leave these alone. -/
theorem Emptied.fileTable (h : Emptied fs b flags fs') : fs'.fileTable = fs.fileTable := by
  cases h <;> rfl

theorem Creation.fileTable (h : Creation fs a path type fs') : fs'.fileTable = fs.fileTable := by
  obtain ⟨_, _, _, _, _, _, -, -, -, rfl⟩ := h
  rfl

theorem OpensFile.mutation {r : Option File × FileSystem} (h : OpensFile fs a path flags r)
    (ha : a ≠ 0) (hfresh : fs.inodes a = none) :
    ReflTransGen Mutation fs r.2 ∧ r.2.fileTable = fs.fileTable := by
  cases h with
  | fail h => exact ⟨.refl, rfl⟩
  | found h hempty hn => exact ⟨hempty.mutation, hempty.fileTable⟩
  | new h hflag hcreate hempty hn =>
    exact ⟨.head (hcreate.mutation ha hfresh) hempty.mutation,
      hempty.fileTable.trans hcreate.fileTable⟩

theorem OpensFile.file {r : Option File × FileSystem} (h : OpensFile fs a path flags r)
    (hf : r.1 = some f) : f.flags = flags ∧ r.2.inodes f.inode ≠ none := by
  cases h with
  | fail h => cases hf
  | found h hempty hn =>
    cases hf
    simp [hn]
  | new h hflag hcreate hempty hn =>
    cases hf
    simp [hn]

/-- **`vfs_open`** opens the file and puts it at the first free descriptor, or fails. -/
theorem vfsOpen_spec (hfs : fs.Ok) (ha : a ≠ 0) (hfresh : fs.inodes a = none) :
    Ensures (vfsOpen fs a path flags) (Faults fs (.open path flags)) (fun r =>
      ∃ file fs₁, OpensFile fs a path flags (file, fs₁) ∧
        ((r = (-1, fs₁) ∧ (file = none ∨ fs₁.freeFd = none)) ∨ ∃ f fd, file = some f ∧
          fs₁.freeFd = some fd ∧ r = ((fd : Int), fs₁.setFile fd (some f)))) := by
  unfold vfsOpen
  refine (vfsOpenFile_spec hfs ha hfresh).bind fun (file, fs₁) hopens => ?_
  cases file with
  | none => exact ensures_ok.mpr ⟨none, fs₁, hopens, Or.inl ⟨rfl, Or.inl rfl⟩⟩
  | some f =>
    simp only
    cases hfd : fs₁.freeFd with
    | none => exact ensures_ok.mpr ⟨some f, fs₁, hopens, Or.inl ⟨rfl, Or.inr hfd⟩⟩
    | some fd => exact ensures_ok.mpr ⟨some f, fs₁, hopens, Or.inr ⟨f, fd, rfl, hfd, rfl⟩⟩

/-! ### Reading, writing and seeking -/

/-- What a call that only moves a descriptor does. -/
theorem moves_spec (h : fs₁.fileTable = fs.fileTable) (hmut : ReflTransGen Mutation fs fs₁)
    (hopen : fs.Open fd f) (hinode : f'.inode = f.inode) (hflags : f'.flags = f.flags) :
    ReflTransGen Mutation fs (fs₁.setFile fd.toNat (some f')) ∧
      Keeps fs c (fs₁.setFile fd.toNat (some f')) :=
  ⟨hmut.tail .files, Keeps.setFile h hopen hinode hflags⟩

/-- Following the pointer of a descriptor. -/
theorem deref_in (c : Call) (hdangles : fs.inodes f.inode = none → c.Dangles fs) :
    Ensures (fs.deref f.inode) (Faults fs c) (fun n => fs.inodes f.inode = some n) := by
  unfold FileSystem.deref
  cases hn : fs.inodes f.inode with
  | none => exact ensures_error.mpr (.freed (hdangles hn))
  | some n => exact ensures_ok.mpr rfl

theorem vfsClose_spec : Ensures (vfsClose fs fd) (Faults fs (.close fd)) (fun r =>
    ReflTransGen Mutation fs r.2 ∧ Keeps fs (.close fd) r.2) := by
  unfold vfsClose
  cases hf : vfsGetFile fs fd with
  | none => exact ensures_ok.mpr ⟨.refl, Keeps.of_eq rfl⟩
  | some f =>
    refine (deref_in (.close fd) fun hn => ⟨f, hf, hn⟩).bind fun n _ => ?_
    exact ensures_ok.mpr ⟨.single .files, Keeps.unset⟩

/-- `shadowfs_read` leaves the file at another position. -/
theorem shadowfsRead_in {size : Nat} (hfs : fs.Ok) (hopen : fs.Open fd f)
    (hflags : f.flags ≠ oWronly) (hlt : size < 2 ^ 32) : Ensures (shadowfsRead fs f size) (Faults fs (.read fd size))
      (fun r => r.2.inode = f.inode ∧ r.2.flags = f.flags) := by
  unfold shadowfsRead
  refine (deref_in (.read fd size) fun hn => ⟨f, hopen, hn⟩).bind fun n hn => ?_
  by_cases hsize : size = 0
  · rw [if_pos hsize]
    exact ensures_ok.mpr ⟨rfl, rfl⟩
  rw [if_neg hsize]
  generalize hr : (if add32 f.position size > n.size then sub32 n.size f.position else size) =
    remaining
  by_cases hrem : remaining = 0
  · simp only [if_pos hrem]
    exact ensures_ok.mpr ⟨rfl, rfl⟩
  simp only [if_neg hrem]
  cases hdata : n.privateData with
  | file blocks count => exact ensures_ok.mpr ⟨rfl, rfl⟩
  | dir entries count =>
    have hdir : fs.IsDir f.inode := FileSystem.isDir_iff.mpr ⟨n, entries, count, hn, hdata⟩
    refine ensures_error.mpr (.wrongView ⟨f, hopen, hdir, hflags, fun hpos => hrem ?_, hsize⟩)
    rw [← hr, hfs.dirs _ n entries count hn hdata, hpos]
    split
    · rfl
    · rename_i hle
      unfold add32 at hle
      omega

theorem vfsRead_spec {size : Nat} (hfs : fs.Ok) (hsize : size < 2 ^ 32) :
    Ensures (vfsRead fs fd size) (Faults fs (.read fd size)) (fun r =>
      ReflTransGen Mutation fs r.2.2 ∧ Keeps fs (.read fd size) r.2.2) := by
  unfold vfsRead
  cases hf : vfsGetFile fs fd with
  | none => exact ensures_ok.mpr ⟨.refl, Keeps.of_eq rfl⟩
  | some f =>
    simp only
    split
    · exact ensures_ok.mpr ⟨.refl, Keeps.of_eq rfl⟩
    · rename_i hflags
      refine (shadowfsRead_in hfs hf hflags hsize).bind fun r hr => ?_
      exact ensures_ok.mpr (moves_spec rfl .refl hf hr.1 hr.2)

/-- `shadowfs_write` is a write of the file, which it leaves at another position. -/
theorem shadowfsWrite_in {buf : List (BitVec 8)} (hfs : fs.Ok) (hopen : fs.Open fd f)
    (hflags : f.flags ≠ oRdonly) (hbuf : buf.length < 2 ^ 32) :
    Ensures (shadowfsWrite fs f buf) (Faults fs (.write fd buf))
      (fun r => r.2.1.inode = f.inode ∧ r.2.1.flags = f.flags ∧
        ReflTransGen Mutation fs r.2.2 ∧ r.2.2.fileTable = fs.fileTable) := by
  cases hn : fs.inodes f.inode with
  | none =>
    rw [shadowfsWrite, FileSystem.deref, hn]
    exact ensures_error.mpr (.freed ⟨f, hopen, hn⟩)
  | some n =>
    cases hdata : n.privateData with
    | file blocks count =>
      have hfile := hfs.files f.inode n blocks count hn hdata
      obtain ⟨k, position, blocks', used', -, heq, -, hok, -, -, hmore, hused, hquota⟩ :=
        shadowfsWrite_spec hfile hbuf
      rw [heq]
      exact ensures_ok.mpr ⟨rfl, rfl, .single (.write ⟨hfile, hok, hmore, hused, hquota⟩), rfl⟩
    | dir entries count =>
      rw [shadowfsWrite, FileSystem.deref_eq hn]
      simp only [bind, Except.bind, hdata]
      split
      · exact ensures_ok.mpr ⟨rfl, rfl, .refl, rfl⟩
      · rename_i hbuf
        have hdir : fs.IsDir f.inode := FileSystem.isDir_iff.mpr ⟨n, entries, count, hn, hdata⟩
        exact ensures_error.mpr (.wrongView ⟨f, hopen, hdir, hflags, hbuf⟩)

theorem vfsWrite_spec {buf : List (BitVec 8)} (hfs : fs.Ok) (hbuf : buf.length < 2 ^ 32) :
    Ensures (vfsWrite fs fd buf) (Faults fs (.write fd buf)) (fun r =>
      ReflTransGen Mutation fs r.2 ∧ Keeps fs (.write fd buf) r.2) := by
  unfold vfsWrite
  cases hf : vfsGetFile fs fd with
  | none => exact ensures_ok.mpr ⟨.refl, Keeps.of_eq rfl⟩
  | some f =>
    simp only
    split
    · exact ensures_ok.mpr ⟨.refl, Keeps.of_eq rfl⟩
    · rename_i hflags
      refine (shadowfsWrite_in hfs hf hflags hbuf).bind fun r hr => ?_
      obtain ⟨hinode, hflags', hmut, htable⟩ := hr
      exact ensures_ok.mpr (moves_spec htable hmut hf hinode hflags')

theorem vfsSeek_spec {offset : BitVec 32} {whence : Nat} :
    Ensures (vfsSeek fs fd offset whence) (Faults fs (.seek fd offset whence)) (fun r =>
      ReflTransGen Mutation fs r.2 ∧ Keeps fs (.seek fd offset whence) r.2) := by
  unfold vfsSeek
  cases hf : vfsGetFile fs fd with
  | none => exact ensures_ok.mpr ⟨.refl, Keeps.of_eq rfl⟩
  | some f =>
    simp only
    split
    · exact ensures_ok.mpr (moves_spec rfl .refl hf rfl rfl)
    · exact ensures_ok.mpr (moves_spec rfl .refl hf rfl rfl)
    · refine (deref_in (.seek fd offset 2) fun hn => ⟨f, hf, hn⟩).bind fun n _ => ?_
      exact ensures_ok.mpr (moves_spec rfl .refl hf rfl rfl)
    · exact ensures_ok.mpr ⟨.refl, Keeps.of_eq rfl⟩

/-! ### Directories -/

theorem vfsMkdir_spec (hfs : fs.Ok) : Ensures (vfsMkdir fs a path) (Faults fs (.mkdir path)) (fun r =>
    r = (-1, fs) ∨ ∃ fs', Creation fs a path .dir fs' ∧ r = (0, fs')) := by
  unfold vfsMkdir
  refine splitPath_in.bind fun (parentPath, name) hsplit => ?_
  refine (vfsResolvePath_in (.mkdir path) hfs fun h => ⟨parentPath, name, hsplit, h⟩).bind
    fun r hr => ?_
  subst hr
  cases hpar : fs.resolve parentPath with
  | none => exact ensures_ok.mpr (Or.inl rfl)
  | some dir =>
    have hlive := hfs.resolve_live hpar
    obtain ⟨n, hn⟩ := Option.ne_none_iff_exists'.mp hlive
    simp only [FileSystem.deref_eq hn, bind, Except.bind]
    split
    · exact ensures_ok.mpr (Or.inl rfl)
    · rename_i htype
      have hdir : fs.IsDir dir := ⟨n, hn, not_not.mp htype⟩
      unfold shadowfsMkdir
      have hno : ¬ fs.FileWithRoom dir := fun ⟨m, hm, hfile, _⟩ => hdir.not_isFile ⟨m, hm, hfile⟩
      refine (shadowfsCreate_in hlive fun h => absurd h hno).bind fun r hr => ?_
      rcases hr with rfl | ⟨d, entries, count, henters, rfl⟩
      · exact ensures_ok.mpr (Or.inl rfl)
      · exact ensures_ok.mpr (Or.inr ⟨_,
          ⟨parentPath, name, dir, d, entries, count, hsplit, hpar, henters, rfl⟩, rfl⟩)

theorem vfsReaddir_spec (hfs : fs.Ok) :
    Ensures (vfsReaddir fs fd) (Faults fs (.readdir fd)) (fun r =>
      ReflTransGen Mutation fs r.2.2 ∧ Keeps fs (.readdir fd) r.2.2) := by
  unfold vfsReaddir
  cases hf : vfsGetFile fs fd with
  | none => exact ensures_ok.mpr ⟨.refl, Keeps.of_eq rfl⟩
  | some f =>
    refine (deref_in (.readdir fd) fun hn => ⟨f, hf, hn⟩).bind fun n hn => ?_
    split
    · exact ensures_ok.mpr ⟨.refl, Keeps.of_eq rfl⟩
    rename_i htype
    have hdir : fs.IsDir f.inode := ⟨n, hn, not_not.mp htype⟩
    obtain ⟨n', entries, count, hn', hdata⟩ := FileSystem.isDir_iff.mp hdir
    have hreaddir : ∃ r, shadowfsReaddir fs f = .ok r ∧ r.2.inode = f.inode ∧
        r.2.flags = f.flags := by
      rw [shadowfsReaddir, FileSystem.deref_eq hn']
      simp only [bind, Except.bind, hdata]
      cases hentry : entries[f.position]? with
      | none => exact ⟨_, rfl, rfl, rfl⟩
      | some e =>
        have hmem : e ∈ fs.entriesOf f.inode := by
          rw [FileSystem.entriesOf_dir hn' hdata]
          exact List.mem_of_getElem? hentry
        obtain ⟨m, hm⟩ := Option.ne_none_iff_exists'.mp (hfs.live _ e hmem)
        simp only [FileSystem.deref_eq hm]
        exact ⟨_, rfl, rfl, rfl⟩
    obtain ⟨r, hr, hinode, hflags⟩ := hreaddir
    simp only [hr, bind, Except.bind]
    exact ensures_ok.mpr (moves_spec rfl .refl hf hinode hflags)

theorem vfsDelete_spec (hfs : fs.Ok) : Ensures (vfsDelete fs path) (Faults fs (.delete path)) (fun r =>
    r = (-1, fs) ∨ ∃ entry fs', Deletion fs path entry fs' ∧ r = (0, fs')) := by
  unfold vfsDelete
  refine splitPath_in.bind fun (parentPath, name) hsplit => ?_
  refine (vfsResolvePath_in (.delete path) hfs
    fun h => ⟨parentPath, name, hsplit, Or.inl h⟩).bind fun r hr => ?_
  subst hr
  cases hpar : fs.resolve parentPath with
  | none => exact ensures_ok.mpr (Or.inl rfl)
  | some dir =>
    constructor
    · rintro ⟨r, fs'⟩ h
      rcases shadowfsDelete_cases h with ⟨rfl, rfl⟩ | ⟨d, entries, count, entry, hrem, rfl, rfl⟩
      · exact Or.inl rfl
      · exact Or.inr ⟨entry, _,
          ⟨parentPath, name, dir, d, entries, count, hsplit, hpar, hrem, rfl⟩, rfl⟩
    · intro e h
      obtain ⟨d, hd⟩ := Option.ne_none_iff_exists'.mp (hfs.resolve_live hpar)
      simp only [shadowfsDelete, FileSystem.deref_eq hd, bind, Except.bind] at h
      cases hdata : d.privateData with
      | file blocks count =>
        simp only [hdata] at h
        cases h
        have hfile : fs.IsFile dir := FileSystem.isFile_iff.mpr ⟨d, blocks, count, hd, hdata⟩
        exact .wrongView ⟨parentPath, name, hsplit, Or.inr ⟨dir, hpar, hfile⟩⟩
      | dir entries count =>
        simp only [hdata] at h
        cases hfind : entries.find? (fun e => e.name = name) with
        | none =>
          simp only [hfind] at h
          cases h
        | some entry =>
          have hmem : entry ∈ fs.entriesOf dir := by
            rw [FileSystem.entriesOf_dir hd hdata]
            exact List.mem_of_find?_eq_some hfind
          obtain ⟨m, hm⟩ := Option.ne_none_iff_exists'.mp (hfs.live _ entry hmem)
          simp only [hfind, FileSystem.deref_eq hm] at h
          cases h

end Specs

/-! ### Mounting -/

namespace FileSystem

/-- The state after `vfs_mount` has entered a mount that has no root yet. -/
def enterMount (fs : FileSystem) (path : CString) (m : ShadowfsMount) : FileSystem :=
  { fs with
    mountTable := Function.update fs.mountTable fs.mountCount ⟨kstrcpy path vfsMaxPath, 0, m⟩
    mountCount := fs.mountCount + 1 }

def setRoot (fs : FileSystem) (i a : Nat) : FileSystem :=
  { fs with mountTable := Function.update fs.mountTable i { fs.mountTable i with root := a } }

/-- The state after `shadowfs_mount` has given the mount `i` a root at `a`. -/
def mounted (fs : FileSystem) (a : Nat) (path : CString) (quota i : Nat) : FileSystem :=
  (shadowfsCreateInode (fs.enterMount path ⟨quota, 0, 1⟩) a i .dir).setRoot i a

variable {fs : FileSystem} {a b i j sb : Nat} {path : CString} {m : ShadowfsMount} {type : VfsType}

theorem mountPoint_enterMount_new :
    (fs.enterMount path m).mountPoint fs.mountCount = kstrcpy path vfsMaxPath := by
  simp [mountPoint, enterMount]

theorem mountTable_enterMount_of_ne (h : i ≠ fs.mountCount) :
    (fs.enterMount path m).mountTable i = fs.mountTable i :=
  Function.update_of_ne h ..

theorem Ok.enterMount (hfs : fs.Ok) (hused : m.used < 2 ^ 32) (hquota : m.quota < 2 ^ 31) :
    (fs.enterMount path m).Ok where
  null := hfs.null
  files a n blocks count hn hdata :=
    have h := hfs.files a n blocks count hn hdata
    ⟨hn, h.data, h.ok, h.size⟩
  dirs := hfs.dirs
  live := hfs.live
  nodup := hfs.nodup
  parent := hfs.parent
  roots j hj := by
    by_cases h : j = fs.mountCount
    · subst h
      simp [FileSystem.enterMount] at hj
    · rw [mountTable_enterMount_of_ne h] at hj ⊢
      exact hfs.roots j hj
  distinct j k hj heq := by
    by_cases h : j = fs.mountCount
    · subst h
      simp [FileSystem.enterMount] at hj
    rw [mountTable_enterMount_of_ne h] at hj heq
    by_cases h' : k = fs.mountCount
    · subst h'
      simp [FileSystem.enterMount] at heq
      exact absurd heq hj
    · rw [mountTable_enterMount_of_ne h'] at heq
      exact hfs.distinct j k hj heq
  used j := by
    by_cases h : j = fs.mountCount
    · subst h
      simpa [mountOf, FileSystem.enterMount] using hused
    · rw [mountOf, mountTable_enterMount_of_ne h]
      exact hfs.used j
  quota j := by
    by_cases h : j = fs.mountCount
    · subst h
      simpa [mountOf, FileSystem.enterMount] using hquota
    · rw [mountOf, mountTable_enterMount_of_ne h]
      exact hfs.quota j

theorem inodes_createInode_self :
    (shadowfsCreateInode fs a sb type).inodes a = some (fs.newInode sb type) := by
  simp [shadowfsCreateInode, newInode]

theorem inodes_createInode_of_ne (h : b ≠ a) :
    (shadowfsCreateInode fs a sb type).inodes b = fs.inodes b := by
  simp [shadowfsCreateInode, inodes_setInode_of_ne _ _ h]

theorem entriesOf_createInode (hfresh : fs.inodes a = none) :
    (shadowfsCreateInode fs a sb type).entriesOf b = fs.entriesOf b := by
  by_cases hb : b = a
  · subst hb
    rw [entriesOf_newInode inodes_createInode_self, entriesOf_none hfresh]
  · exact entriesOf_congr (inodes_createInode_of_ne hb)

/-- A new inode that no entry leads to. -/
theorem Ok.createInode (hfs : fs.Ok) (ha : a ≠ 0) (hfresh : fs.inodes a = none) :
    (shadowfsCreateInode fs a sb type).Ok := by
  have hent : ∀ b, (shadowfsCreateInode fs a sb type).entriesOf b = fs.entriesOf b :=
    fun b => entriesOf_createInode hfresh
  have hold : ∀ b, fs.inodes b ≠ none → (shadowfsCreateInode fs a sb type).inodes b =
      fs.inodes b := by
    intro b hb
    refine inodes_createInode_of_ne ?_
    rintro rfl
    exact hb hfresh
  constructor
  · exact (inodes_createInode_of_ne ha.symm).trans hfs.null
  · intro b n blocks c hn hdata
    by_cases hb : b = a
    · subst hb
      rw [inodes_createInode_self] at hn
      cases hn
      cases type with
      | file =>
        cases hdata
        exact ⟨inodes_createInode_self, rfl, blocksOk_nil, rfl⟩
      | dir => cases hdata
    · have hn' := (inodes_createInode_of_ne hb).symm.trans hn
      obtain ⟨-, h₂, h₃, h₄⟩ := hfs.files b n blocks c hn' hdata
      exact ⟨hn, h₂, h₃, h₄⟩
  · intro b n es c hn hdata
    by_cases hb : b = a
    · subst hb
      rw [inodes_createInode_self] at hn
      cases hn
      rfl
    · exact hfs.dirs b n es c ((inodes_createInode_of_ne hb).symm.trans hn) hdata
  · intro b e he
    rw [hent] at he
    rw [hold _ (hfs.live b e he)]
    exact hfs.live b e he
  · intro b
    rw [hent]
    exact hfs.nodup b
  · intro b b' e e' he he' heq
    rw [hent] at he he'
    exact hfs.parent b b' e e' he he' heq
  · intro j hj
    rw [root_createInode] at hj ⊢
    obtain ⟨⟨n, hn, htype⟩, hentries⟩ := hfs.roots j hj
    refine ⟨⟨n, ?_, htype⟩, fun b e he => ?_⟩
    · rw [hold _ (hfs.root_live hj), hn]
    · rw [hent] at he
      exact hentries b e he
  · intro j k
    simp only [root_createInode]
    exact hfs.distinct j k
  · intro j
    rw [mountOf_createInode_used.1]
    exact hfs.used j
  · intro j
    rw [mountOf_createInode_used.2]
    exact hfs.quota j

theorem mountTable_setRoot_of_ne (h : j ≠ i) :
    (fs.setRoot i a).mountTable j = fs.mountTable j :=
  Function.update_of_ne h ..

@[simp] theorem mountOf_setRoot : (fs.setRoot i a).mountOf j = fs.mountOf j := by
  by_cases h : j = i
  · subst h
    simp [mountOf, setRoot]
  · rw [mountOf, mountTable_setRoot_of_ne h]
    rfl

/-- A directory that no entry leads to, and that is no root, becomes one. -/
theorem Ok.setRoot (hfs : fs.Ok) (hdir : fs.IsDir a) (hentries : ∀ d, ∀ e ∈ fs.entriesOf d, e.inode ≠ a)
    (hroots : ∀ j, (fs.mountTable j).root ≠ a) : (fs.setRoot i a).Ok where
  null := hfs.null
  files a n blocks count hn hdata :=
    have h := hfs.files a n blocks count hn hdata
    ⟨hn, h.data, h.ok, h.size⟩
  dirs := hfs.dirs
  live := hfs.live
  nodup := hfs.nodup
  parent := hfs.parent
  roots j hj := by
    by_cases h : j = i
    · subst h
      simp only [FileSystem.setRoot, Function.update_self]
      exact ⟨hdir, hentries⟩
    · rw [mountTable_setRoot_of_ne h] at hj ⊢
      exact hfs.roots j hj
  distinct j k hj heq := by
    have hself : ((fs.setRoot i a).mountTable i).root = a := by simp [FileSystem.setRoot]
    by_cases h : j = i <;> by_cases h' : k = i
    · rw [h, h']
    · rw [h, hself, mountTable_setRoot_of_ne h'] at heq
      exact absurd heq.symm (hroots k)
    · rw [h', hself, mountTable_setRoot_of_ne h] at heq
      exact absurd heq (hroots j)
    · rw [mountTable_setRoot_of_ne h] at hj heq
      rw [mountTable_setRoot_of_ne h'] at heq
      exact hfs.distinct j k hj heq
  used j := by
    rw [mountOf_setRoot]
    exact hfs.used j
  quota j := by
    rw [mountOf_setRoot]
    exact hfs.quota j

theorem inodes_mounted_of_ne {quota : Nat} (h : b ≠ a) :
    (fs.mounted a path quota i).inodes b = fs.inodes b :=
  inodes_createInode_of_ne h

theorem Ok.mounted {quota : Nat} (hfs : fs.Ok) (hquota : quota < 2 ^ 31) (ha : a ≠ 0)
    (hfresh : fs.inodes a = none) : (fs.mounted a path quota i).Ok := by
  have henter : (fs.enterMount path ⟨quota, 0, 1⟩).Ok := hfs.enterMount (by simp) hquota
  have hfresh' : (fs.enterMount path ⟨quota, 0, 1⟩).inodes a = none := hfresh
  refine (henter.createInode ha hfresh).setRoot ⟨_, inodes_createInode_self, rfl⟩
    (fun d e he heq => ?_) fun j hj => ?_
  · rw [entriesOf_createInode hfresh'] at he
    exact henter.live d e he (heq ▸ hfresh)
  · rw [root_createInode] at hj
    refine henter.root_live (hj ▸ ha) ?_
    rw [hj]
    exact hfresh

end FileSystem

theorem vfsMount_cases {fs : FileSystem} {path : CString} {m : ShadowfsMount} :
    vfsMount fs path m = none ∨ (fs.mountCount < vfsMaxMounts ∧
      (∀ j < fs.mountCount, fs.mountPoint j ≠ path) ∧
      vfsMount fs path m = some (fs.enterMount path m)) := by
  unfold vfsMount
  split
  · exact Or.inl rfl
  rename_i hmax
  split
  · exact Or.inl rfl
  rename_i hnew
  refine Or.inr ⟨Nat.lt_of_not_le hmax, fun j hj heq => ?_, rfl⟩
  exact hnew (List.any_eq_true.mpr ⟨j, List.mem_range.mpr hj, by simpa using heq⟩)

/-- **`shadowfs_mount`** fails, or gives a root to the mount that serves the path then. -/
theorem shadowfsMount_cases {fs : FileSystem} {freePages a quota : Nat} {path : CString} :
    shadowfsMount fs freePages a path quota = (-1, fs) ∨ ∃ i, quota < 2 ^ 31 ∧
      fs.mountCount < vfsMaxMounts ∧ (∀ j < fs.mountCount, fs.mountPoint j ≠ path) ∧
      vfsFindMount (fs.enterMount path ⟨quota, 0, 1⟩) path = some i ∧
      shadowfsMount fs freePages a path quota = (0, fs.mounted a path quota i) := by
  unfold shadowfsMount
  split
  · exact Or.inl rfl
  rename_i hfree
  rcases @vfsMount_cases fs path ⟨quota, 0, 1⟩ with h | ⟨hmax, hnew, h⟩
  · rw [h]
    exact Or.inl rfl
  have hfound : vfsFindMount (fs.enterMount path ⟨quota, 0, 1⟩) path ≠ none := by
    intro hnone
    refine findMount_eq_none.mp hnone fs.mountCount (Nat.lt_succ_self _) ?_
    rw [FileSystem.mountPoint_enterMount_new]
    exact List.take_prefix _ _
  obtain ⟨i, hi⟩ := Option.ne_none_iff_exists'.mp hfound
  refine Or.inr ⟨i, by omega, hmax, hnew, hi, ?_⟩
  simp only [h, hi]
  rfl

/-! ## 3. Runs -/

theorem Mutation.ok_run {fs fs' : FileSystem} (h : ReflTransGen Mutation fs fs') (hfs : fs.Ok) :
    fs'.Ok :=
  reach_invariant h hfs fun _ _ hok hmut => hmut.ok hok

/-- What a call that returns has done. -/
inductive Effect (fs : FileSystem) (a : Nat) : Call → FileSystem → Prop
  | mutation {c : Call} {fs' : FileSystem} (h : ReflTransGen Mutation fs fs') (hkeeps : Keeps fs c fs') :
      Effect fs a c fs'
  | delete {path : CString} {entry : ShadowfsDentry} {fs' : FileSystem}
      (h : Deletion fs path entry fs') : Effect fs a (.delete path) fs'
  | mount {freePages quota i : Nat} {path : CString} (hquota : quota < 2 ^ 31)
      (hnew : ∀ j < fs.mountCount, fs.mountPoint j ≠ path)
      (hi : vfsFindMount (fs.enterMount path ⟨quota, 0, 1⟩) path = some i) :
      Effect fs a (.mount freePages path quota) (fs.mounted a path quota i)

/-- **A call** ends in one of its faults, or has its effect. -/
theorem vfsCall_spec {fs : FileSystem} {a : Nat} {c : Call} (hfs : fs.Ok) (ha : a ≠ 0)
    (hfresh : fs.inodes a = none) (hsized : c.Sized) :
    Ensures (vfsCall fs a c) (Faults fs c) (fun r => Effect fs a c r.2) := by
  cases c with
  | mount freePages path quota =>
    refine ensures_ok.mpr ?_
    rcases @shadowfsMount_cases fs freePages a quota path with h | ⟨i, hquota, -, hnew, hi, h⟩
    · rw [h]
      exact .mutation .refl (Keeps.of_eq rfl)
    · rw [h]
      exact .mount hquota hnew hi
  | «open» path flags =>
    refine (vfsOpen_spec hfs ha hfresh).map fun r hr => ?_
    obtain ⟨file, fs₁, hopens, ⟨rfl, -⟩ | ⟨f, fd, rfl, hfd, rfl⟩⟩ := hr
    · obtain ⟨hmut, htable⟩ := hopens.mutation ha hfresh
      exact .mutation hmut (Keeps.of_eq htable)
    · obtain ⟨hmut, htable⟩ := hopens.mutation ha hfresh
      obtain ⟨hflags, hlive⟩ := hopens.file rfl
      refine .mutation (hmut.tail .files) fun fd' g hg => ?_
      by_cases heq : fd' = fd
      · subst heq
        have hg' : some f = some g := FileSystem.fileTable_setFile_self.symm.trans hg
        cases hg'
        exact Or.inr ⟨path, by rw [hflags], hlive⟩
      · have hg' : fs₁.fileTable fd' = some g := (FileSystem.fileTable_setFile_of_ne heq).symm.trans hg
        exact Or.inl ⟨g, htable ▸ hg', rfl, rfl⟩
  | close fd => exact vfsClose_spec.map fun r hr => .mutation hr.1 hr.2
  | read fd size => exact (vfsRead_spec hfs hsized).map fun r hr => .mutation hr.1 hr.2
  | write fd buf => exact (vfsWrite_spec hfs hsized).map fun r hr => .mutation hr.1 hr.2
  | seek fd offset whence => exact vfsSeek_spec.map fun r hr => .mutation hr.1 hr.2
  | mkdir path =>
    refine (vfsMkdir_spec hfs).map fun r hr => ?_
    rcases hr with rfl | ⟨fs', hcreate, rfl⟩
    · exact .mutation .refl (Keeps.of_eq rfl)
    · exact .mutation (.single (hcreate.mutation ha hfresh)) (Keeps.of_eq hcreate.fileTable)
  | readdir fd => exact (vfsReaddir_spec hfs).map fun r hr => .mutation hr.1 hr.2
  | delete path =>
    refine (vfsDelete_spec hfs).map fun r hr => ?_
    rcases hr with rfl | ⟨entry, fs', hdel, rfl⟩
    · exact .mutation .refl (Keeps.of_eq rfl)
    · exact .delete hdel

theorem Effect.ok {fs fs' : FileSystem} {a : Nat} {c : Call} (h : Effect fs a c fs') (hfs : fs.Ok)
    (ha : a ≠ 0) (hfresh : fs.inodes a = none) : fs'.Ok := by
  cases h with
  | mutation h hkeeps => exact Mutation.ok_run h hfs
  | delete h =>
    obtain ⟨_, _, _, _, _, _, -, -, hrem, rfl⟩ := h
    exact hfs.deleted hrem
  | mount hquota hnew hi => exact hfs.mounted hquota ha hfresh

/-- **Every step keeps the tree in order.** -/
theorem CallStep.ok {P : FileSystem → Call → Prop} {fs fs' : FileSystem} (hstep : CallStep P fs fs')
    (hfs : fs.Ok) : fs'.Ok := by
  obtain ⟨a, c, r, ha, hfresh, hsized, -, h⟩ := hstep
  exact ((vfsCall_spec hfs ha hfresh hsized).of_ok h).ok hfs ha hfresh

/-- The state after a call that returns. -/
def FileSystem.after (fs : FileSystem) (a : Nat) (c : Call) : FileSystem :=
  match vfsCall fs a c with
  | .ok (_, fs') => fs'
  | .error _ => fs

theorem CallStep.after {P : FileSystem → Call → Prop} {fs : FileSystem} {a : Nat} {c : Call} (ha : a ≠ 0)
    (hfresh : fs.inodes a = none) (hsized : c.Sized) (hP : P fs c)
    (hok : (vfsCall fs a c).isOk = true) : CallStep P fs (fs.after a c) := by
  cases h : vfsCall fs a c with
  | error e =>
    rw [h] at hok
    cases hok
  | ok r =>
    refine ⟨a, c, r.1, ha, hfresh, hsized, hP, ?_⟩
    simp only [FileSystem.after, h]

theorem vfsInit_ok : FileSystem.vfsInit.Ok where
  null := rfl
  files _ _ _ _ h := nomatch h
  dirs _ _ _ _ h := nomatch h
  live _ _ h := nomatch h
  nodup _ := List.nodup_nil
  parent _ _ _ _ h := nomatch h
  roots _ h := absurd rfl h
  distinct _ _ h := absurd rfl h
  used _ := Nat.two_pow_pos 32
  quota _ := Nat.two_pow_pos 31

/-- The states of a run. -/
def Reached (P : FileSystem → Call → Prop) (fs : FileSystem) : Prop :=
  ReflTransGen (CallStep P) FileSystem.vfsInit fs

theorem Reached.ok {P : FileSystem → Call → Prop} {fs : FileSystem} (h : Reached P fs) : fs.Ok :=
  reach_invariant h vfsInit_ok fun _ _ hok hstep => hstep.ok hok

end AcornOS
