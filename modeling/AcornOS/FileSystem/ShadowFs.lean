/-
# shadowFS (`file_system/shadowfs/shadowfs.c`)

A file system in memory.  A file is a chain of 4KB blocks, a directory a chain of entries, and which
of the two an inode's private data holds is said by its type alone: the two share a union.

* **The union** is a tagged sum here, and taking the view that does not belong to the tag is the fault
  `wrongView`.  What the C code does then is read one structure as the other.
* **Freed memory.**  An inode's address leads to the inode until `shadowfs_delete` frees it; following
  it afterwards is the fault `freed`.
* **Allocation.**  `kmalloc` and `pmm_alloc` stop the machine when they find nothing (`Memory/Mem.lean`,
  `Memory/Pmm.lean`), so a call that returns has got what it asked for.  The address of a new inode is an
  argument of the model; blocks, entries and pages belong to one owner each and are parts of it.

The times of an inode are left out, as nothing here reads them.
-/
import AcornOS.Lib.Chunks
import AcornOS.Processes.Process

namespace AcornOS

open Lib

/-! ## 1. The data -/

/-- Why a call into the file system has no result the source could account for. -/
inductive Fault where
  /-- A file's private data taken for a directory's, or the other way round. -/
  | wrongView
  /-- An inode used after it was freed. -/
  | freed
  /-- A path copied past the end of a buffer on the stack, or a path or a table read past its own end. -/
  | overrun
  /-- A loop that does not end. -/
  | diverge
  /-- The kernel has stopped, as `kmalloc` does when it has nothing left. -/
  | halted (why : Halt)
deriving Repr, DecidableEq

/-- A C string, without the 0 at its end. -/
abbrev CString := List (BitVec 8)

/-- `VFS_MAX_NAME` -/
def vfsMaxName : Nat := 64

/-- `SHADOWFS_BLOCK_SIZE` -/
def shadowfsBlockSize : Nat := 4096

/-- `sizeof(shadowfs_block_t)` -/
def sizeofShadowfsBlock : Nat := 24

/-- `sizeof(shadowfs_dentry_t)` -/
def sizeofShadowfsDentry : Nat := 80

/-- `sizeof(inode_t)` -/
def sizeofInode : Nat := 64

/-- Arithmetic on `uint32_t`. -/
def add32 (a b : Nat) : Nat := (a + b) % 2 ^ 32

def sub32 (a b : Nat) : Nat := (a + (2 ^ 32 - b % 2 ^ 32)) % 2 ^ 32

/-- A `uint32_t` returned as an `int`. -/
def toInt32 (n : Nat) : Int := (BitVec.ofNat 32 n).toInt

/-- `shadowfs_block_t`: the page, as far as it has been written, and the bytes used of it. -/
structure ShadowfsBlock where
  data : List (BitVec 8)
  used : Nat
deriving Repr, DecidableEq

/-- `shadowfs_dentry_t` -/
structure ShadowfsDentry where
  name : CString
  inode : Nat
deriving Repr, DecidableEq

/-- `VFS_TYPE_FILE` and `VFS_TYPE_DIR` -/
inductive VfsType where
  | file
  | dir
deriving Repr, DecidableEq

/-- `shadowfs_inode_t`: the union, with its tag. -/
inductive ShadowfsInode where
  | file (blocks : List ShadowfsBlock) (blockCount : Nat)
  | dir (entries : List ShadowfsDentry) (count : Nat)
deriving Repr, DecidableEq

/-- `inode_t`.  Its type is the tag of its private data: `shadowfs_create_inode` sets both, and nothing
changes either. -/
structure Inode where
  inodeNum : Nat
  size : Nat
  sb : Nat
  privateData : ShadowfsInode
deriving Repr, DecidableEq

def Inode.type (n : Inode) : VfsType :=
  match n.privateData with
  | .file .. => .file
  | .dir .. => .dir

/-- `shadowfs_mount_t` -/
structure ShadowfsMount where
  quota : Nat
  used : Nat
  nextInodeNum : Nat
deriving Repr, DecidableEq

/-- `superblock_t` of a shadowFS; `root = 0` is the NULL of a mount without a root. -/
structure Superblock where
  mountPoint : CString
  root : Nat
  mount : ShadowfsMount
deriving Repr, DecidableEq

/-- `file_t`.  No call makes two descriptors share one, so `ref_count` is 1 throughout and the structure
goes with its descriptor. -/
structure File where
  inode : Nat
  position : Nat
  flags : BitVec 32
deriving Repr, DecidableEq

/-- The tables of `vfs.c`, and the inodes by their addresses. -/
structure FileSystem where
  mountTable : Nat → Superblock
  mountCount : Nat
  inodes : Nat → Option Inode
  fileTable : Nat → Option File

namespace FileSystem

/-- Following a pointer to an inode. -/
def deref (fs : FileSystem) (a : Nat) : Except Fault Inode :=
  match fs.inodes a with
  | some n => .ok n
  | none => .error .freed

def setInode (fs : FileSystem) (a : Nat) (n : Inode) : FileSystem :=
  { fs with inodes := Function.update fs.inodes a (some n) }

/-- `kfree` of an inode and its private data. -/
def freeInode (fs : FileSystem) (a : Nat) : FileSystem :=
  { fs with inodes := Function.update fs.inodes a none }

def mountOf (fs : FileSystem) (sb : Nat) : ShadowfsMount := (fs.mountTable sb).mount

def setMount (fs : FileSystem) (sb : Nat) (m : ShadowfsMount) : FileSystem :=
  { fs with mountTable := Function.update fs.mountTable sb { fs.mountTable sb with mount := m } }

/-- Writing `mount->used`. -/
def setUsed (fs : FileSystem) (sb used : Nat) : FileSystem :=
  fs.setMount sb { fs.mountOf sb with used := used }

end FileSystem

/-! ## 2. Directories -/

/-- The private data of a new inode. -/
def ShadowfsInode.empty : VfsType → ShadowfsInode
  | .file => .file [] 0
  | .dir => .dir [] 0

/-- `shadowfs_create_inode`, when `kmalloc` hands out `a`. -/
def shadowfsCreateInode (fs : FileSystem) (a sb : Nat) (type : VfsType) : FileSystem :=
  let m := fs.mountOf sb
  let fs := fs.setInode a ⟨m.nextInodeNum, 0, sb, ShadowfsInode.empty type⟩
  fs.setMount sb { m with nextInodeNum := add32 m.nextInodeNum 1 }

/-- `shadowfs_lookup` -/
def shadowfsLookup (fs : FileSystem) (dir : Nat) (name : CString) : Except Fault (Option Nat) := do
  let d ← fs.deref dir
  match d.privateData with
  | .file .. => .error .wrongView
  | .dir entries _ => .ok ((entries.find? fun e => e.name = name).map ShadowfsDentry.inode)

/-- `shadowfs_create`.  The quota is checked before the directory is looked at. -/
def shadowfsCreate (fs : FileSystem) (a dir : Nat) (name : CString) (type : VfsType) :
    Except Fault (Option Nat × FileSystem) := do
  let d ← fs.deref dir
  if (fs.mountOf d.sb).used ≥ (fs.mountOf d.sb).quota then .ok (none, fs)
  else
    match d.privateData with
    | .file .. => .error .wrongView
    | .dir entries count =>
      if (entries.find? fun e => e.name = name).isSome then .ok (none, fs)
      else
        let fs := shadowfsCreateInode fs a d.sb type
        let entry : ShadowfsDentry := ⟨kstrcpy name vfsMaxName, a⟩
        let fs := fs.setInode dir
          { d with privateData := .dir (entries ++ [entry]) (add32 count 1) }
        let used := add32 (fs.mountOf d.sb).used (sizeofShadowfsDentry + sizeofInode)
        .ok (some a, fs.setUsed d.sb used)

/-- `shadowfs_delete`.  The blocks of a file are freed with it; the entries of a directory are not. -/
def shadowfsDelete (fs : FileSystem) (dir : Nat) (name : CString) :
    Except Fault (Int × FileSystem) := do
  let d ← fs.deref dir
  match d.privateData with
  | .file .. => .error .wrongView
  | .dir entries count =>
    match entries.find? fun e => e.name = name with
    | none => .ok (-1, fs)
    | some entry =>
      -- entry->inode->type
      let _ ← fs.deref entry.inode
      let fs := fs.setInode dir
        { d with privateData := .dir (entries.eraseP fun e => e.name = name) (sub32 count 1) }
      let fs := fs.freeInode entry.inode
      let used := sub32 (fs.mountOf d.sb).used (sizeofShadowfsDentry + sizeofInode)
      .ok (0, fs.setUsed d.sb used)

/-- `shadowfs_mkdir` -/
def shadowfsMkdir (fs : FileSystem) (a dir : Nat) (name : CString) :
    Except Fault (Int × FileSystem) := do
  let (newDir, fs) ← shadowfsCreate fs a dir name .dir
  .ok (if newDir = none then -1 else 0, fs)

/-- `dentry_t` -/
structure Dentry where
  name : CString
  inode : Nat
  type : VfsType
deriving Repr, DecidableEq

/-- `shadowfs_readdir`: the entry at the file's position, or `none` at the end. -/
def shadowfsReaddir (fs : FileSystem) (file : File) : Except Fault (Option Dentry × File) := do
  let d ← fs.deref file.inode
  match d.privateData with
  | .file .. => .error .wrongView
  | .dir entries _ =>
    match entries[file.position]? with
    | none => .ok (none, file)
    | some entry =>
      let n ← fs.deref entry.inode
      .ok (some ⟨kstrcpy entry.name vfsMaxName, entry.inode, n.type⟩,
        { file with position := add32 file.position 1 })

/-! ## 3. Files -/

/-- The walk of `shadowfs_read` along the blocks: the bytes it copies out. -/
def readBlocks : List ShadowfsBlock → (offset remaining blockStart : Nat) → List (BitVec 8)
  | [], _, _, _ => []
  | block :: blocks, offset, remaining, blockStart =>
    if remaining = 0 then []
    else
      let blockEnd := add32 blockStart block.used
      if offset < blockEnd then
        let blockOffset := sub32 offset blockStart
        let available := sub32 block.used blockOffset
        let toRead := min remaining available
        (block.data.drop blockOffset).take toRead ++
          readBlocks blocks (add32 offset toRead) (remaining - toRead) blockEnd
      else readBlocks blocks offset remaining blockEnd

/-- `shadowfs_read`: the bytes read, whose number it returns, and the file at its new position. -/
def shadowfsRead (fs : FileSystem) (file : File) (size : Nat) :
    Except Fault (List (BitVec 8) × File) := do
  let n ← fs.deref file.inode
  if size = 0 then .ok ([], file)
  else
    let remaining :=
      if add32 file.position size > n.size then sub32 n.size file.position else size
    if remaining = 0 then .ok ([], file)
    else
      match n.privateData with
      | .dir .. => .error .wrongView
      | .file blocks _ =>
        let read := readBlocks blocks file.position remaining 0
        .ok (read, { file with position := add32 file.position read.length })

/-- The variables of the loop of `shadowfs_write`. -/
structure Writing where
  blocks : List ShadowfsBlock
  blockCount : Nat
  mountUsed : Nat
  written : Nat
deriving Repr, DecidableEq

namespace Writing

/-- `!last || last->used == SHADOWFS_BLOCK_SIZE` -/
def needsBlock (w : Writing) : Bool :=
  match w.blocks.getLast? with
  | none => true
  | some last => last.used = shadowfsBlockSize

/-- A new block at the end of the chain. -/
def addBlock (w : Writing) : Writing :=
  { w with
    blocks := w.blocks ++ [⟨[], 0⟩]
    blockCount := add32 w.blockCount 1
    mountUsed := add32 w.mountUsed sizeofShadowfsBlock }

/-- How much of `src` goes into the last block. -/
def toWrite (last : ShadowfsBlock) (src : List (BitVec 8)) : Nat :=
  min src.length (sub32 shadowfsBlockSize last.used)

/-- Copying it there. -/
def fill (w : Writing) (src : List (BitVec 8)) : Writing :=
  match w.blocks.getLast? with
  | none => w
  | some last =>
    let k := toWrite last src
    { w with
      blocks := w.blocks.dropLast ++
        [⟨last.data.take last.used ++ src.take k ++ last.data.drop (last.used + k),
          add32 last.used k⟩]
      written := add32 w.written k }

/-- One round of the loop: what is left of the source, and the variables. -/
def round (w : Writing) (src : List (BitVec 8)) : List (BitVec 8) × Writing :=
  let w := if w.needsBlock then w.addBlock else w
  (src.drop (toWrite (w.blocks.getLast?.getD ⟨[], 0⟩) src), w.fill src)

end Writing

/-- The loop of `shadowfs_write`. -/
def writeLoop (quota : Nat) : Nat → Writing → List (BitVec 8) → Except Fault Writing
  | _, w, [] => .ok w
  | 0, _, _ :: _ => .error .diverge
  | fuel + 1, w, src@(_ :: _) =>
    if w.mountUsed ≥ quota then .ok w
    else
      let (src, w) := w.round src
      writeLoop quota fuel w src

/-- `shadowfs_write`: the bytes written, the file at its new position, and the file system. -/
def shadowfsWrite (fs : FileSystem) (file : File) (buf : List (BitVec 8)) :
    Except Fault (Nat × File × FileSystem) := do
  let n ← fs.deref file.inode
  if buf = [] then .ok (0, file, fs)
  else
    match n.privateData with
    | .dir .. => .error .wrongView
    | .file blocks blockCount =>
      let m := fs.mountOf n.sb
      let w ← writeLoop m.quota buf.length ⟨blocks, blockCount, m.used, 0⟩ buf
      let fs := fs.setInode file.inode
        { n with privateData := .file w.blocks w.blockCount, size := add32 n.size w.written }
      .ok (w.written, { file with position := add32 file.position w.written },
        fs.setUsed n.sb w.mountUsed)

/-- The walk of `shadowfs_truncate` to a size other than 0: the blocks that stay. -/
def keepBlocks : List ShadowfsBlock → Nat → List ShadowfsBlock
  | [], _ => []
  | block :: blocks, bytesRemaining =>
    if bytesRemaining = 0 then []
    else if bytesRemaining < block.used then
      { block with used := bytesRemaining } :: keepBlocks blocks 0
    else block :: keepBlocks blocks (bytesRemaining - block.used)

/-- `shadowfs_truncate` -/
def shadowfsTruncate (fs : FileSystem) (a size : Nat) : Except Fault (Int × FileSystem) := do
  let n ← fs.deref a
  match n.privateData with
  | .dir .. => .ok (-1, fs)
  | .file blocks blockCount =>
    let kept := if size = 0 then [] else keepBlocks blocks size
    let freed := blocks.length - kept.length
    let used := sub32 (fs.mountOf n.sb).used (sizeofShadowfsBlock * freed)
    let count := if size = 0 then 0 else sub32 blockCount freed
    let fs := fs.setInode a { n with privateData := .file kept count, size := size }
    .ok (0, fs.setUsed n.sb used)

end AcornOS
