/-
# The virtual file system (`file_system/vfs/vfs.c`)

Mounts, paths and descriptors, over shadowFS mounts.  A path is served by the mount with the longest
mount point that is an initial part of it (not necessarily of its components); what is left is cut at
its slashes, and each component is looked up in the inode found so far.

`walkPath` is the loop of `vfs_resolve_path` over ANY file system: what a lookup does to the state is its
parameter.  A lookup in shadowFS changes nothing, and `vfsResolvePath` is the loop over that one.

Nothing checks that the inode a name is looked up in, created in or deleted from is a directory.
`vfs_mkdir` and `vfs_readdir` do check, for the one inode they work on.
-/
import AcornOS.FileSystem.Files

namespace AcornOS

open Lib

/-! ## 1. Constants -/

/-- `VFS_MAX_MOUNTS` -/
def vfsMaxMounts : Nat := 16

/-- `VFS_MAX_FDS` -/
def vfsMaxFds : Nat := 256

/-- `VFS_MAX_PATH` -/
def vfsMaxPath : Nat := 64

/-- The character `/`. -/
def slash : BitVec 8 := 0x2F

/-- The open flags. -/
def oRdonly : BitVec 32 := 0x0
def oWronly : BitVec 32 := 0x1
def oRdwr : BitVec 32 := 0x2
def oCreat : BitVec 32 := 0x4
def oAppend : BitVec 32 := 0x8
def oTrunc : BitVec 32 := 0x10

/-- A flag is set. -/
def Sets (flags flag : BitVec 32) : Prop := flags &&& flag ≠ 0

instance (flags flag : BitVec 32) : Decidable (Sets flags flag) :=
  inferInstanceAs (Decidable (_ ≠ _))

/-! ## 2. Paths -/

section Paths

variable {σ : Type}

/-- `vfs_find_mount`: the first of the longest mount points that are an initial part of the path. -/
def findMount (mountPoint : Nat → CString) (mountCount : Nat) (path : CString) : Option Nat :=
  loop (fun i best =>
    if (mountPoint i).isPrefixOf path &&
        (best.all fun b => (mountPoint b).length < (mountPoint i).length) then some i else best)
    mountCount none

/-- The components of a path; empty ones are skipped. -/
def components (path : CString) : List CString := (path.splitOn slash).filter (· ≠ [])

theorem components_append_slash (x y : CString) :
    components (x ++ slash :: y) = components x ++ components y := by
  rw [components, List.splitOn_append_cons_self, List.filter_append]
  rfl

/-- The loop of `vfs_resolve_path` over the components, each copied into `component[VFS_MAX_NAME]`. -/
def walkPath (lookup : σ → Nat → CString → Except Fault (Option Nat × σ)) :
    List CString → Nat → σ → Except Fault (Option Nat × σ)
  | [], current, s => .ok (some current, s)
  | component :: rest, current, s =>
    if component.length ≥ vfsMaxName then .error .overrun
    else do
      let (next, s) ← lookup s current component
      match next with
      | none => .ok (none, s)
      | some next => walkPath lookup rest next s

/-- What is left of a path below its mount point. -/
def belowMount (mountPoint path : CString) : CString :=
  let rest := path.drop mountPoint.length
  if rest.head? = some slash then rest.tail else rest

/-- `vfs_resolve_path` in the mount found for the path. -/
def resolveIn (lookup : σ → Nat → CString → Except Fault (Option Nat × σ)) (mountPoint : CString)
    (root : Nat) (path : CString) (s : σ) : Except Fault (Option Nat × σ) :=
  if root = 0 then .ok (none, s)
  else if path = mountPoint then .ok (some root, s)
  else if path = [slash] then .ok (some root, s)
  else walkPath lookup (components (belowMount mountPoint path)) root s

/-- The last slash of a path: `for(i = plen - 1; i >= 0; i--)`. -/
def lastSlash (path : CString) : Option Nat :=
  (List.range path.length).reverse.find? fun i => path[i]? = some slash

/-- Splitting a path into its parent and a name, as `vfs_open_file`, `vfs_mkdir` and `vfs_delete` do.  A
path without a slash, or with its only slash in front, loses its first character and goes to `/`. -/
def splitPath (path : CString) : Except Fault (CString × CString) :=
  match lastSlash path with
  | some (i + 1) =>
    if i + 1 < vfsMaxPath then
      .ok (path.take (i + 1), kstrcpy (path.drop (i + 2)) vfsMaxName)
    else .error .overrun
  | _ =>
    match path with
    | [] => .error .overrun
    | _ :: rest => .ok ([slash], kstrcpy rest vfsMaxName)

end Paths

namespace FileSystem

/-- `vfs_init` -/
def vfsInit : FileSystem where
  mountTable _ := ⟨[], 0, ⟨0, 0, 0⟩⟩
  mountCount := 0
  inodes _ := none
  fileTable _ := none

def mountPoint (fs : FileSystem) (i : Nat) : CString := (fs.mountTable i).mountPoint

end FileSystem

/-- `vfs_find_mount` -/
def vfsFindMount (fs : FileSystem) (path : CString) : Option Nat :=
  findMount fs.mountPoint fs.mountCount path

/-- `vfs_resolve_path` over shadowFS mounts, whose lookups leave the state as it is. -/
def vfsResolvePath (fs : FileSystem) (path : CString) : Except Fault (Option Nat) :=
  match vfsFindMount fs path with
  | none => .ok none
  | some i =>
    (resolveIn (fun fs dir name => (shadowfsLookup fs dir name).map (·, fs)) (fs.mountPoint i)
      (fs.mountTable i).root path fs).map Prod.fst

/-! ## 3. Mounting -/

/-- `vfs_mount`, with the superblock it fills in. -/
def vfsMount (fs : FileSystem) (path : CString) (m : ShadowfsMount) : Option FileSystem :=
  if fs.mountCount ≥ vfsMaxMounts then none
  else if (List.range fs.mountCount).any fun i => fs.mountPoint i = path then none
  else some { fs with
    mountTable := Function.update fs.mountTable fs.mountCount ⟨kstrcpy path vfsMaxPath, 0, m⟩
    mountCount := fs.mountCount + 1 }

/-- `shadowfs_mount`, when `pmm_free_pages` returns `freePages` and the root inode comes to lie at `a`. -/
def shadowfsMount (fs : FileSystem) (freePages a : Nat) (path : CString) (quota : Nat) :
    Int × FileSystem :=
  if quota > freePages * 4096 % 2 ^ 32 / 2 then (-1, fs)
  else
    match vfsMount fs path ⟨quota, 0, 1⟩ with
    | none => (-1, fs)
    | some fs =>
      match vfsFindMount fs path with
      | none => (-1, fs)
      | some i =>
        let fs := shadowfsCreateInode fs a i .dir
        (0, { fs with
          mountTable := Function.update fs.mountTable i { fs.mountTable i with root := a } })

/-! ## 4. Descriptors -/

/-- `vfs_get_file` -/
def vfsGetFile (fs : FileSystem) (fd : Int) : Option File :=
  if fd < 0 ∨ fd ≥ vfsMaxFds then none else fs.fileTable fd.toNat

/-- The first free descriptor of `vfs_alloc_fd`. -/
def FileSystem.freeFd (fs : FileSystem) : Option Nat :=
  (List.range' 3 (vfsMaxFds - 3)).find? fun fd => (fs.fileTable fd).isNone

def FileSystem.setFile (fs : FileSystem) (fd : Nat) (file : Option File) : FileSystem :=
  { fs with fileTable := Function.update fs.fileTable fd file }

/-- Steps 1 and 2 of `vfs_open_file`: the inode of the path, which is created if need be. -/
def vfsFindOrCreate (fs : FileSystem) (a : Nat) (path : CString) (flags : BitVec 32) :
    Except Fault (Option Nat × FileSystem) := do
  match ← vfsResolvePath fs path with
  | some inode => .ok (some inode, fs)
  | none =>
    if ¬ Sets flags oCreat then .ok (none, fs)
    else do
      let (parentPath, filename) ← splitPath path
      match ← vfsResolvePath fs parentPath with
      | none => .ok (none, fs)
      | some parent => shadowfsCreate fs a parent filename .file

/-- Step 5 of `vfs_open_file`, whose result is ignored. -/
def vfsTruncateOpened (fs : FileSystem) (inode : Nat) (flags : BitVec 32) : Except Fault FileSystem :=
  if Sets flags oTrunc then (shadowfsTruncate fs inode 0).map Prod.snd else .ok fs

/-- Step 7: where the cursor stands at first. -/
def startAt (n : Inode) (flags : BitVec 32) : Nat := if Sets flags oAppend then n.size else 0

/-- Steps 3 to 7 of `vfs_open_file`; `shadowfs_open` does nothing. -/
def vfsFillFile (fs : FileSystem) (inode : Nat) (flags : BitVec 32) :
    Except Fault (File × FileSystem) := do
  let fs ← vfsTruncateOpened fs inode flags
  let n ← fs.deref inode
  .ok (⟨inode, startAt n flags, flags⟩, fs)

/-- `vfs_open_file`, when a new inode comes to lie at `a`. -/
def vfsOpenFile (fs : FileSystem) (a : Nat) (path : CString) (flags : BitVec 32) :
    Except Fault (Option File × FileSystem) := do
  let (inode, fs) ← vfsFindOrCreate fs a path flags
  match inode with
  | none => .ok (none, fs)
  | some inode => (vfsFillFile fs inode flags).map (Prod.map some id)

/-- `vfs_open` -/
def vfsOpen (fs : FileSystem) (a : Nat) (path : CString) (flags : BitVec 32) :
    Except Fault (Int × FileSystem) := do
  let (file, fs) ← vfsOpenFile fs a path flags
  match file with
  | none => .ok (-1, fs)
  | some file =>
    match fs.freeFd with
    | none => .ok (-1, fs)
    | some fd => .ok (fd, fs.setFile fd (some file))

/-- `vfs_close` -/
def vfsClose (fs : FileSystem) (fd : Int) : Except Fault (Int × FileSystem) :=
  match vfsGetFile fs fd with
  | none => .ok (-1, fs)
  | some file => do
    -- file->inode->ops
    let _ ← fs.deref file.inode
    .ok (0, fs.setFile fd.toNat none)

/-- `vfs_read`: what it returns, and what it has put into the buffer. -/
def vfsRead (fs : FileSystem) (fd : Int) (size : Nat) :
    Except Fault (Int × List (BitVec 8) × FileSystem) :=
  match vfsGetFile fs fd with
  | none => .ok (-1, [], fs)
  | some file =>
    if file.flags = oWronly then .ok (-1, [], fs)
    else do
      let (read, file) ← shadowfsRead fs file size
      .ok (toInt32 read.length, read, fs.setFile fd.toNat (some file))

/-- `vfs_write` -/
def vfsWrite (fs : FileSystem) (fd : Int) (buf : List (BitVec 8)) :
    Except Fault (Int × FileSystem) :=
  match vfsGetFile fs fd with
  | none => .ok (-1, fs)
  | some file =>
    if file.flags = oRdonly then .ok (-1, fs)
    else do
      let (written, file, fs) ← shadowfsWrite fs file buf
      .ok (toInt32 written, fs.setFile fd.toNat (some file))

/-- `vfs_seek`.  `SEEK_SET` adds to the position, as `SEEK_CUR` does. -/
def vfsSeek (fs : FileSystem) (fd : Int) (offset : BitVec 32) (whence : Nat) :
    Except Fault (Int × FileSystem) :=
  match vfsGetFile fs fd with
  | none => .ok (-1, fs)
  | some file =>
    let moved (position : Nat) : Except Fault (Int × FileSystem) :=
      .ok (toInt32 position, fs.setFile fd.toNat (some { file with position := position }))
    match whence with
    | 0 => moved (add32 file.position offset.toNat)
    | 1 => moved (add32 file.position offset.toNat)
    | 2 => do
      let n ← fs.deref file.inode
      moved (add32 n.size offset.toNat)
    | _ => .ok (-1, fs)

/-- `vfs_mkdir`, when the new inode comes to lie at `a`. -/
def vfsMkdir (fs : FileSystem) (a : Nat) (path : CString) : Except Fault (Int × FileSystem) := do
  let (parentPath, dirname) ← splitPath path
  match ← vfsResolvePath fs parentPath with
  | none => .ok (-1, fs)
  | some parent =>
    let n ← fs.deref parent
    if n.type ≠ .dir then .ok (-1, fs)
    else shadowfsMkdir fs a parent dirname

/-- `vfs_readdir` -/
def vfsReaddir (fs : FileSystem) (fd : Int) : Except Fault (Int × Option Dentry × FileSystem) :=
  match vfsGetFile fs fd with
  | none => .ok (-1, none, fs)
  | some file => do
    let n ← fs.deref file.inode
    if n.type ≠ .dir then .ok (-1, none, fs)
    else
      let (dentry, file) ← shadowfsReaddir fs file
      .ok (if dentry.isSome then 1 else 0, dentry, fs.setFile fd.toNat (some file))

/-- `vfs_delete` -/
def vfsDelete (fs : FileSystem) (path : CString) : Except Fault (Int × FileSystem) := do
  let (parentPath, filename) ← splitPath path
  match ← vfsResolvePath fs parentPath with
  | none => .ok (-1, fs)
  | some parent => shadowfsDelete fs parent filename

end AcornOS
