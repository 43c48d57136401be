/-
# One table of descriptors (`vfs.c`, `devfs.c`, `procfs.c`)

The other modules look at a shadowFS, or at the names in a devFS, or at the texts of a procFS.  Here all
three hang in one tree, behind ONE table of descriptors that all processes share, and each call goes to the
file system of the inode it gets hold of.  `OpenClose.lean` has the heap and opens that create nothing; here
the addresses of inodes come from outside, and every call and every flag is in.

* `Io` is the whole: the shadowFS with its tables, the inodes of devFS and procFS by their addresses, the
  devices, and the screen.  `Io.call` is one call; what comes from outside (keys, the addresses that
  `kmalloc` finds) comes in with it as its `Surroundings`.
* `Io.call_shadow`: on a descriptor of shadowFS this is the call of `Calls.lean`.
* `Io.kernelMain` is what `kernel_main` sets up, with the descriptors 0, 1 and 2 on the keyboard and the
  display (`kernelMain_spec`).
* **`IoRun.frame`**: in every run of calls, of whatever processes, a descriptor leads where it led until it is
  closed; 0, 1 and 2 never lead anywhere again after that.
* **`stdio_until_closed`**: so what is written to 1 or 2 is on the screen, all of it and nothing else, AS LONG
  AS NOBODY HAS CLOSED IT; one process that closes it takes it from all of them, for good.
-/
import AcornOS.Drivers.Vga
import AcornOS.FileSystem.Listing
import AcornOS.FileSystem.OpenClose
import AcornOS.FileSystem.ProcFsRead

namespace AcornOS

open Lib

/-! ## 1. Inodes -/

/-- The handlers that `kernel_main` registers for reading. -/
inductive DeviceRead where
  | keyboard
  | null
  | random
  | serial
  | rtc
deriving Repr, DecidableEq

/-- The handlers for writing. -/
inductive DeviceWrite where
  | display
  | null
  | serial
deriving Repr, DecidableEq

/-- `devfs_device_t` -/
structure DevfsDevice where
  name : CString
  read : Option DeviceRead
  write : Option DeviceWrite
deriving Repr, DecidableEq

/-- The file systems, the processes that procFS shows, and the screen.  What goes out of the serial port is
left out. -/
structure Io where
  fs : FileSystem
  nodes : Nat → Option NodeData
  devices : List DevfsDevice
  kernel : Kernel
  vga : Vga

/-- What comes from outside during a call: the addresses of new inodes, what a device delivers, and what a
buffer on the stack and the caller's `dentry` hold before. -/
structure Surroundings where
  addresses : List Nat
  bytes : List (BitVec 8)
  temp : List (BitVec 8)
  dentry : Dentry

/-- The file systems in the middle of a call, with the addresses that are left. -/
abbrev Walk := Io × List Nat

/-- `kmalloc` stops the kernel when it has nothing left. -/
def outOfMemory : Fault := .halted (.panic "kmalloc: out of heap memory!")

namespace Io

/-- `devfs_create_inode`, `procfs_create_inode` -/
def createInode (node : NodeData) : Walk → Except Fault (Nat × Walk)
  | (_, []) => .error outOfMemory
  | (io, a :: rest) => .ok (a, { io with nodes := Function.update io.nodes a (some node) }, rest)

/-- `devfs_lookup` -/
def devfsLookup (w : Walk) (name : CString) : Except Fault (Option Nat × Walk) :=
  match w.1.devices.findIdx? fun d => d.name = name with
  | none => .ok (none, w)
  | some i => (createInode (.devfs ⟨some i⟩) w).map (Prod.map some id)

/-- `current->ops->lookup` -/
def lookup (w : Walk) (dir : Nat) (name : CString) : Except Fault (Option Nat × Walk) :=
  match w.1.nodes dir with
  | some (.devfs _) => devfsLookup w name
  | some (.procfs p) =>
    match procfsLookup w.1.kernel p name with
    | none => .ok (none, w)
    | some (_, node) => (createInode (.procfs node) w).map (Prod.map some id)
  | none => (shadowfsLookup w.1.fs dir name).map (·, w)

/-- `vfs_resolve_path` -/
def vfsResolvePath (w : Walk) (path : CString) : Except Fault (Option Nat × Walk) :=
  match vfsFindMount w.1.fs path with
  | none => .ok (none, w)
  | some i => resolveIn lookup (w.1.fs.mountPoint i) (w.1.fs.mountTable i).root path w

/-- `parent->ops->create`: `devfs_create` fails, procFS has none. -/
def create (w : Walk) (parent : Nat) (name : CString) (type : VfsType) :
    Except Fault (Option Nat × Walk) :=
  match w.1.nodes parent, w.2 with
  | some _, _ => .ok (none, w)
  | none, [] => .error outOfMemory
  | none, a :: rest =>
    (shadowfsCreate w.1.fs a parent name type).map fun r => (r.1, { w.1 with fs := r.2 }, rest)

/-! ## 2. Descriptors -/

/-- Steps 1 and 2 of `vfs_open_file`. -/
def findOrCreate (w : Walk) (path : CString) (flags : BitVec 32) : Except Fault (Option Nat × Walk) := do
  let (inode, w) ← vfsResolvePath w path
  match inode with
  | some inode => .ok (some inode, w)
  | none =>
    if ¬ Sets flags oCreat then .ok (none, w)
    else do
      let (parentPath, filename) ← splitPath path
      let (parent, w) ← vfsResolvePath w parentPath
      match parent with
      | none => .ok (none, w)
      | some parent => create w parent filename .file

/-- Steps 3 to 7: in devFS and procFS there is no `truncate`, `open` does nothing, and sizes are 0. -/
def fillFile (w : Walk) (inode : Nat) (flags : BitVec 32) : Except Fault (File × Walk) :=
  match w.1.nodes inode with
  | some _ => .ok (⟨inode, 0, flags⟩, w)
  | none => (vfsFillFile w.1.fs inode flags).map fun r => (r.1, { w.1 with fs := r.2 }, w.2)

/-- `vfs_open_file` -/
def vfsOpenFile (w : Walk) (path : CString) (flags : BitVec 32) : Except Fault (Option File × Walk) := do
  let (inode, w) ← findOrCreate w path flags
  match inode with
  | none => .ok (none, w)
  | some inode => (fillFile w inode flags).map fun r => (some r.1, r.2)

def setFile (io : Io) (fd : Nat) (file : Option File) : Io := { io with fs := io.fs.setFile fd file }

/-- `vfs_open` -/
def vfsOpen (w : Walk) (path : CString) (flags : BitVec 32) : Except Fault (Int × Io) := do
  let (file, w) ← vfsOpenFile w path flags
  match file with
  | none => .ok (-1, w.1)
  | some file =>
    match w.1.fs.freeFd with
    | none => .ok (-1, w.1)
    | some fd => .ok (fd, w.1.setFile fd (some file))

/-- `vfs_open_at` -/
def vfsOpenAt (w : Walk) (path : CString) (flags : BitVec 32) (fd : Int) : Except Fault (Int × Walk) :=
  if fd < 0 ∨ fd ≥ vfsMaxFds then .ok (-1, w)
  else do
    let (file, w) ← vfsOpenFile w path flags
    match file with
    | none => .ok (-1, w)
    | some file => .ok (fd, w.1.setFile fd.toNat (some file), w.2)

/-- `inode->size` -/
def inodeSize (io : Io) (a : Nat) : Except Fault Nat :=
  match io.nodes a with
  | some _ => .ok 0
  | none => (io.fs.deref a).map Inode.size

/-- `vfs_close`; the `close` of each file system does nothing. -/
def vfsClose (io : Io) (fd : Int) : Except Fault (Int × Io) :=
  match vfsGetFile io.fs fd with
  | none => .ok (-1, io)
  | some file => do
    -- file->inode->ops
    let _ ← io.inodeSize file.inode
    .ok (0, io.setFile fd.toNat none)

/-- What a device hands over for a read of this size: `dev_null_read` and `dev_serial_read` nothing, the
keyboard and the random numbers all that is asked for, and the clock its text from the beginning. -/
def deviceRead (bytes : List (BitVec 8)) (size : Nat) : DeviceRead → Except Fault (List (BitVec 8))
  | .null | .serial => .ok []
  | .keyboard | .random => if bytes.length < size then .error .diverge else .ok (bytes.take size)
  | .rtc => .ok (bytes.take size)

/-- `devfs_read` -/
def devfsRead (io : Io) (node : DevfsInode) (bytes : List (BitVec 8)) (size : Nat) :
    Except Fault (Int × List (BitVec 8)) :=
  match node.device.bind fun i => io.devices[i]? with
  | none => .ok (-1, [])
  | some device =>
    match device.read with
    | none => .ok (-1, [])
    | some read => (deviceRead bytes size read).map fun bytes => (toInt32 bytes.length, bytes)

/-- `vfs_read`: what it returns, and what it has put into the buffer. -/
def vfsRead (io : Io) (s : Surroundings) (fd : Int) (size : Nat) :
    Except Fault (Int × List (BitVec 8) × Io) :=
  match vfsGetFile io.fs fd with
  | none => .ok (-1, [], io)
  | some file =>
    if file.flags = oWronly then .ok (-1, [], io)
    else
      let read (r : List (BitVec 8) × File) : Int × List (BitVec 8) × Io :=
        (toInt32 r.1.length, r.1, io.setFile fd.toNat (some r.2))
      match io.nodes file.inode with
      | some (.devfs d) => (io.devfsRead d s.bytes size).map fun r => (r.1, r.2, io)
      | some (.procfs p) => (procfsRead io.kernel p s.temp file size).map read
      | none => (shadowfsRead io.fs file size).map read

/-- `devfs_write` -/
def devfsWrite (io : Io) (node : DevfsInode) (buf : List (BitVec 8)) : Int × Io :=
  match (node.device.bind fun i => io.devices[i]?).bind DevfsDevice.write with
  | none => (-1, io)
  | some .display =>
    let (r, vga) := devDisplayWrite io.vga buf
    (r, { io with vga := vga })
  | some .null => (toInt32 buf.length, io)
  | some .serial => (toInt32 buf.length, io)

/-- `vfs_write` -/
def vfsWrite (io : Io) (fd : Int) (buf : List (BitVec 8)) : Except Fault (Int × Io) :=
  match vfsGetFile io.fs fd with
  | none => .ok (-1, io)
  | some file =>
    if file.flags = oRdonly then .ok (-1, io)
    else
      match io.nodes file.inode with
      | some (.devfs d) => .ok (io.devfsWrite d buf)
      | some (.procfs _) => .ok (-1, io)
      | none => (shadowfsWrite io.fs file buf).map fun r =>
          (toInt32 r.1, { io with fs := r.2.2.setFile fd.toNat (some r.2.1) })

/-- `vfs_seek` -/
def vfsSeek (io : Io) (fd : Int) (offset : BitVec 32) (whence : Nat) : Except Fault (Int × Io) :=
  match vfsGetFile io.fs fd with
  | none => .ok (-1, io)
  | some file =>
    let moved (position : Nat) : Except Fault (Int × Io) :=
      .ok (toInt32 position, io.setFile fd.toNat (some { file with position := position }))
    match whence with
    | 0 => moved (add32 file.position offset.toNat)
    | 1 => moved (add32 file.position offset.toNat)
    | 2 => do
      let size ← io.inodeSize file.inode
      moved (add32 size offset.toNat)
    | _ => .ok (-1, io)

/-! ## 3. Directories -/

/-- `vfs_mkdir`; only shadowFS has a `mkdir`. -/
def vfsMkdir (w : Walk) (path : CString) : Except Fault (Int × Io) := do
  let (parentPath, dirname) ← splitPath path
  let (parent, w) ← vfsResolvePath w parentPath
  match parent with
  | none => .ok (-1, w.1)
  | some parent =>
    match w.1.nodes parent with
    | some _ => .ok (-1, w.1)
    | none => do
      let n ← w.1.fs.deref parent
      if n.type ≠ .dir then .ok (-1, w.1)
      else do
        let (newDir, w) ← create w parent dirname .dir
        .ok (if newDir = none then -1 else 0, w.1)

/-- The devices as `devfs_readdir` sees them. -/
def devfsReaddir (io : Io) (file : File) : Option Dentry × File :=
  match io.devices[file.position]? with
  | none => (none, file)
  | some device =>
    (some ⟨kstrcpy device.name vfsMaxName, 0, .file⟩, { file with position := add32 file.position 1 })

/-- `vfs_readdir` -/
def vfsReaddir (io : Io) (s : Surroundings) (fd : Int) : Except Fault (Int × Option Dentry × Io) :=
  match vfsGetFile io.fs fd with
  | none => .ok (-1, none, io)
  | some file =>
    let result (r : Option Dentry × File) : Int × Option Dentry × Io :=
      (if r.1.isSome then 1 else 0, r.1, io.setFile fd.toNat (some r.2))
    match io.nodes file.inode with
    | some (.devfs ⟨none⟩) => .ok (result (io.devfsReaddir file))
    | some (.devfs ⟨some _⟩) => .ok (-1, none, io)
    | some (.procfs p) =>
      if p.type.vfsType ≠ .dir then .ok (-1, none, io)
      else (procfsReaddir io.kernel p file s.dentry).map result
    | none => do
      let n ← io.fs.deref file.inode
      if n.type ≠ .dir then .ok (-1, none, io)
      else (shadowfsReaddir io.fs file).map result

/-- `vfs_delete`; only shadowFS has a `delete`. -/
def vfsDelete (w : Walk) (path : CString) : Except Fault (Int × Io) := do
  let (parentPath, filename) ← splitPath path
  let (parent, w) ← vfsResolvePath w parentPath
  match parent with
  | none => .ok (-1, w.1)
  | some parent =>
    match w.1.nodes parent with
    | some _ => .ok (-1, w.1)
    | none => (shadowfsDelete w.1.fs parent filename).map fun r => (r.1, { w.1 with fs := r.2 })

/-- One call of a process; nobody mounts anything after boot. -/
def call (io : Io) (s : Surroundings) : Call → Except Fault (Reply × Io)
  | .mount .. => .ok (.of (-1), io)
  | .open path flags => (vfsOpen (io, s.addresses) path flags).map (Prod.map Reply.of id)
  | .close fd => (io.vfsClose fd).map (Prod.map Reply.of id)
  | .read fd size => (io.vfsRead s fd size).map fun r => (⟨r.1, r.2.1, none⟩, r.2.2)
  | .write fd buf => (io.vfsWrite fd buf).map (Prod.map Reply.of id)
  | .seek fd offset whence => (io.vfsSeek fd offset whence).map (Prod.map Reply.of id)
  | .mkdir path => (vfsMkdir (io, s.addresses) path).map (Prod.map Reply.of id)
  | .readdir fd => (io.vfsReaddir s fd).map fun r => (⟨r.1, [], r.2.1⟩, r.2.2)
  | .delete path => (vfsDelete (io, s.addresses) path).map (Prod.map Reply.of id)

/-- `sys_write`, of a buffer that is not NULL; `count` is a `uint32_t`. -/
def sysWrite (io : Io) (fd : Int) (buf : List (BitVec 8)) : Except Fault (Int × Io) :=
  let count := buf.length % 2 ^ 32
  if count > 4096 then .ok (-1, io) else io.vfsWrite fd (buf.take count)

/-- `sys_read`, into a buffer that is not NULL. -/
def sysRead (io : Io) (s : Surroundings) (fd : Int) (size : Nat) :
    Except Fault (Int × List (BitVec 8) × Io) :=
  let count := size % 2 ^ 32
  if count > 4096 then .ok (-1, [], io) else io.vfsRead s fd count

/-! ## 4. The start -/

/-- `devfs_mount` and `procfs_mount`, which differ in the private data of the root. -/
def mountNode (w : Walk) (path : CString) (root : NodeData) : Except Fault (Int × Walk) :=
  match vfsMount w.1.fs path ⟨0, 0, 0⟩ with
  | none => .ok (-1, w)
  | some fs =>
    match vfsFindMount fs path with
    | none => .ok (-1, { w.1 with fs := fs }, w.2)
    | some i => do
      let (a, io, addresses) ← createInode root ({ w.1 with fs := fs }, w.2)
      .ok (0, { io with fs := { io.fs with
        mountTable := Function.update io.fs.mountTable i { io.fs.mountTable i with root := a } } }, addresses)

/-- `devfs_register` -/
def devfsRegister (w : Walk) (path : CString) (device : DevfsDevice) : Except Fault (Int × Walk) :=
  if w.1.devices.length ≥ devfsMaxDevices ∨ vfsFindMount w.1.fs path = none then .ok (-1, w)
  else do
    let i := w.1.devices.length
    let device := { device with name := kstrcpy device.name vfsMaxName }
    -- the inode is kept nowhere
    let (_, w) ← createInode (.devfs ⟨some i⟩) ({ w.1 with devices := w.1.devices ++ [device] }, w.2)
    .ok (0, w)

end Io

/-- The paths in `kernel_main`. -/
def tempPoint : CString := ascii ['/', 't', 'e', 'm', 'p']
def devicesPoint : CString := ascii ['/', 'd', 'e', 'v', 'i', 'c', 'e', 's']
def processPoint : CString := ascii ['/', 'p', 'r', 'o', 'c', 'e', 's', 's']
def displayName : CString := ascii ['d', 'i', 's', 'p', 'l', 'a', 'y']
def keyboardName : CString := ascii ['k', 'e', 'y', 'b', 'o', 'a', 'r', 'd']

/-- The devices that `kernel_main` registers. -/
def kernelDevices : List DevfsDevice := [
  ⟨displayName, none, some .display⟩,
  ⟨keyboardName, some .keyboard, none⟩,
  ⟨ascii ['n', 'u', 'l', 'l'], some .null, some .null⟩,
  ⟨ascii ['r', 'a', 'n', 'd', 'o', 'm'], some .random, none⟩,
  ⟨ascii ['s', 'e', 'r', 'i', 'a', 'l'], some .serial, some .serial⟩,
  ⟨ascii ['r', 't', 'c'], some .rtc, none⟩]

namespace Io

/-- The devices, one after the other; nobody looks at what `devfs_register` returns. -/
def registerAll (w : Walk) : List DevfsDevice → Except Fault Walk
  | [] => .ok w
  | device :: devices => do
    let (_, w) ← devfsRegister w devicesPoint device
    registerAll w devices

/-- `vfs_open_at` for 0, 1 and 2. -/
def setUpStdio (w : Walk) : Except Fault Walk := do
  let (_, w) ← vfsOpenAt w (devicesPoint ++ slash :: keyboardName) oRdonly 0
  let (_, w) ← vfsOpenAt w (devicesPoint ++ slash :: displayName) oWronly 1
  let (_, w) ← vfsOpenAt w (devicesPoint ++ slash :: displayName) oWronly 2
  .ok w

/-- What `kernel_main` does with the file systems, up to its tests. -/
def kernelMain (kernel : Kernel) (vga : Vga) (freePages : Nat) : List Nat → Except Fault Walk
  | [] => .error outOfMemory
  | a :: addresses => do
    let (r, fs) := shadowfsMount .vfsInit freePages a tempPoint (8 * 1024 * 1024)
    if r < 0 then .error (.halted (.panic "kernel: failed to mount shadowFS at /temp!"))
    else do
      let (r, w) ← mountNode (⟨fs, fun _ => none, [], kernel, vga⟩, addresses) devicesPoint (.devfs ⟨none⟩)
      if r < 0 then .error (.halted (.panic "kernel: failed to mount devFS at /devices!"))
      else do
        let w ← registerAll w kernelDevices
        let w ← setUpStdio w
        let (r, w) ← mountNode w processPoint (.procfs ⟨.root, 0, processPoint.tail⟩)
        if r < 0 then .error (.halted (.panic "kernel: failed to mount procFS at /process!"))
        else .ok w

end Io

/-! ## 5. Runs -/

/-- Addresses that no inode of devFS or procFS has. -/
def Io.Fresh (io : Io) (addresses : List Nat) : Prop :=
  addresses.Nodup ∧ ∀ a ∈ addresses, a ≠ 0 ∧ io.nodes a = none

/-- The calls of all processes, in the order in which they are made.  Between them processes come and go,
and others put things on the screen. -/
inductive IoRun (io₀ : Io) : List Call → Io → Prop
  | start : IoRun io₀ [] io₀
  | call {cs : List Call} {io io' : Io} {s : Surroundings} {c : Call} {r : Reply} (h : IoRun io₀ cs io)
      (hfresh : io.Fresh s.addresses) (hok : io.call s c = .ok (r, io')) : IoRun io₀ (cs ++ [c]) io'
  | other {cs : List Call} {io : Io} (h : IoRun io₀ cs io) (kernel : Kernel) (vga : Vga) :
      IoRun io₀ cs { io with kernel := kernel, vga := vga }

/-! ## 6. What a call leaves alone -/

/-- The descriptor that a call closes. -/
def Call.closes : Call → Option Int
  | .close fd => some fd
  | _ => none

def Call.writes : Call → Bool
  | .write .. => true
  | _ => false

/-- Every result of this kind, if there is one, satisfies `Q`. -/
abbrev Returns {β : Type} (x : Except Fault β) (Q : β → Prop) : Prop := Ensures x (fun _ => True) Q

theorem returns_any {β : Type} (x : Except Fault β) : Returns x fun _ => True :=
  ⟨fun _ => trivial, fun _ => trivial⟩

/-- From the state with these descriptors, devices and inodes to `w`: the descriptors, the devices and the
screen are as they were, the inodes of devFS and procFS are all there, and there are addresses for more. -/
structure Io.Quiet (io : Io) (w : Walk) : Prop where
  files : w.1.fs.fileTable = io.fs.fileTable
  devices : w.1.devices = io.devices
  nodes : ∀ a node, io.nodes a = some node → w.1.nodes a = some node
  fresh : w.1.Fresh w.2
  vga : w.1.vga = io.vga

section Shadow

variable {fs fs' : FileSystem} {a dir inode size : Nat} {name : CString} {type : VfsType}
  {flags : BitVec 32} {file : File} {buf : List (BitVec 8)}

/-- shadowFS never touches the descriptors. -/
theorem shadowfsCreate_files :
    Returns (shadowfsCreate fs a dir name type) fun r => r.2.fileTable = fs.fileTable := by
  refine (returns_any _).bind fun d _ => ?_
  split
  · exact ensures_ok.mpr rfl
  · split
    · exact ensures_error.mpr trivial
    · split <;> exact ensures_ok.mpr rfl

theorem shadowfsDelete_files :
    Returns (shadowfsDelete fs dir name) fun r => r.2.fileTable = fs.fileTable := by
  refine (returns_any _).bind fun d _ => ?_
  split
  · exact ensures_error.mpr trivial
  · split
    · exact ensures_ok.mpr rfl
    · refine (returns_any _).bind fun n _ => ?_
      exact ensures_ok.mpr rfl

theorem shadowfsTruncate_files :
    Returns (shadowfsTruncate fs a size) fun r => r.2.fileTable = fs.fileTable := by
  refine (returns_any _).bind fun n _ => ?_
  split <;> exact ensures_ok.mpr rfl

theorem shadowfsWrite_files : Returns (shadowfsWrite fs file buf) fun r =>
    r.2.1.inode = file.inode ∧ r.2.1.flags = file.flags ∧ r.2.2.fileTable = fs.fileTable := by
  refine (returns_any _).bind fun n _ => ?_
  split
  · exact ensures_ok.mpr ⟨rfl, rfl, rfl⟩
  · split
    · exact ensures_error.mpr trivial
    · refine (returns_any _).bind fun w _ => ?_
      exact ensures_ok.mpr ⟨rfl, rfl, rfl⟩

theorem vfsFillFile_files : Returns (vfsFillFile fs inode flags) fun r =>
    r.1.inode = inode ∧ r.1.flags = flags ∧ r.2.fileTable = fs.fileTable := by
  have htrunc : Returns (vfsTruncateOpened fs inode flags) fun fs' => fs'.fileTable = fs.fileTable := by
    unfold vfsTruncateOpened
    split
    · exact shadowfsTruncate_files.map fun _ h => h
    · exact ensures_ok.mpr rfl
  refine htrunc.bind fun fs' hfiles => ?_
  refine (returns_any _).bind fun n _ => ?_
  exact ensures_ok.mpr ⟨rfl, rfl, hfiles⟩

theorem shadowfsRead_file :
    Returns (shadowfsRead fs file size) fun r => ∃ position, r.2 = { file with position := position } := by
  unfold shadowfsRead
  refine (returns_any _).bind fun n _ => ?_
  split
  · exact ensures_ok.mpr ⟨file.position, rfl⟩
  · extract_lets remaining
    split
    · exact ensures_ok.mpr ⟨file.position, rfl⟩
    · split
      · exact ensures_error.mpr trivial
      · exact ensures_ok.mpr ⟨_, rfl⟩

theorem shadowfsReaddir_file :
    Returns (shadowfsReaddir fs file) fun r => ∃ position, r.2 = { file with position := position } := by
  refine (returns_any _).bind fun d _ => ?_
  split
  · exact ensures_error.mpr trivial
  · split
    · exact ensures_ok.mpr ⟨file.position, rfl⟩
    · exact (returns_any _).bind fun n _ => ensures_ok.mpr ⟨_, rfl⟩

theorem procfsReaddir_file {kernel : Kernel} {node : ProcfsInode} {dentry : Dentry} :
    Returns (procfsReaddir kernel node file dentry) fun r =>
      ∃ position, r.2 = { file with position := position } := by
  unfold procfsReaddir
  dsimp only
  repeat' split
  all_goals first | exact ensures_ok.mpr ⟨_, rfl⟩ | exact ensures_error.mpr trivial

theorem procfsRead_file {kernel : Kernel} {node : ProcfsInode} {temp : List (BitVec 8)} :
    Returns (procfsRead kernel node temp file size) fun r =>
      ∃ position, r.2 = { file with position := position } := by
  unfold procfsRead
  refine (returns_any _).bind fun r _ => ?_
  dsimp -zeta only
  extract_lets length
  split
  · exact ensures_ok.mpr ⟨file.position, rfl⟩
  · split
    · exact ensures_error.mpr trivial
    · exact ensures_ok.mpr ⟨_, rfl⟩

end Shadow

/-- **The loop of `vfs_resolve_path` keeps what a lookup keeps.** -/
theorem walkPath_keeps {σ : Type} {lookup : σ → Nat → CString → Except Fault (Option Nat × σ)}
    {I : σ → Prop}
    (hlookup : ∀ s dir name, I s → Returns (lookup s dir name) fun r => I r.2) (names : List CString) :
    ∀ (dir : Nat) (s : σ), I s → Returns (walkPath lookup names dir s) fun r => I r.2 := by
  induction names with
  | nil =>
    intro dir s hs
    exact ensures_ok.mpr hs
  | cons name names ih =>
    intro dir s hs
    rw [walkPath]
    split
    · exact ensures_error.mpr trivial
    · refine (hlookup s dir name hs).bind fun r hr => ?_
      obtain ⟨next, s'⟩ := r
      cases next with
      | none => exact ensures_ok.mpr hr
      | some next => exact ih next s' hr

theorem resolveIn_keeps {σ : Type} {lookup : σ → Nat → CString → Except Fault (Option Nat × σ)}
    {I : σ → Prop}
    (hlookup : ∀ s dir name, I s → Returns (lookup s dir name) fun r => I r.2) (mountPoint : CString)
    (root : Nat) (path : CString) (s : σ) (hs : I s) :
    Returns (resolveIn lookup mountPoint root path s) fun r => I r.2 := by
  unfold resolveIn
  split
  · exact ensures_ok.mpr hs
  · split
    · exact ensures_ok.mpr hs
    · split
      · exact ensures_ok.mpr hs
      · exact walkPath_keeps hlookup _ _ _ hs

namespace Io

section Walks

variable {io₀ : Io} {w : Walk} {node : NodeData} {dir parent inode : Nat} {name path : CString}
  {type : VfsType} {flags : BitVec 32}

theorem Fresh.quiet {io : Io} {addresses : List Nat} (h : io.Fresh addresses) : io.Quiet (io, addresses) :=
  ⟨rfl, rfl, fun _ _ h => h, h, rfl⟩

/-- Changing the shadowFS. -/
theorem Quiet.setFs {addresses : List Nat} {fs : FileSystem} (h : io₀.Quiet w)
    (hfiles : fs.fileTable = w.1.fs.fileTable) (hfresh : w.1.Fresh addresses) :
    io₀.Quiet ({ w.1 with fs := fs }, addresses) :=
  ⟨hfiles.trans h.files, h.devices, h.nodes, hfresh, h.vga⟩

/-- **A new inode** comes to lie where none is. -/
theorem createInode_spec (h : io₀.Quiet w) : Returns (createInode node w) fun r =>
    io₀.Quiet r.2 ∧ r.2.1.nodes r.1 = some node ∧ r.1 ≠ 0 ∧ r.2.1.fs = w.1.fs := by
  obtain ⟨io, addresses⟩ := w
  cases addresses with
  | nil => exact ensures_error.mpr trivial
  | cons a rest =>
    obtain ⟨hnodup, hfree⟩ := h.fresh
    obtain ⟨hnew, hrest⟩ := List.nodup_cons.mp hnodup
    obtain ⟨hzero, hnone⟩ := hfree a List.mem_cons_self
    have hother : ∀ b, b ≠ a → Function.update io.nodes a (some node) b = io.nodes b := by
      intro b hb
      exact Function.update_of_ne hb ..
    refine ensures_ok.mpr ⟨⟨h.files, h.devices, fun b n hn => ?_, ⟨hrest, fun b hb => ?_⟩, h.vga⟩,
      Function.update_self .., hzero, rfl⟩
    · have hb : b ≠ a := by
        rintro rfl
        cases hnone.symm.trans (h.nodes b n hn)
      exact (hother b hb).trans (h.nodes b n hn)
    · have hne : b ≠ a := fun heq => hnew (heq ▸ hb)
      obtain ⟨hzero, hnone⟩ := hfree b (List.mem_cons_of_mem a hb)
      exact ⟨hzero, (hother b hne).trans hnone⟩

theorem createInode_some_quiet (h : io₀.Quiet w) :
    Returns ((createInode node w).map (Prod.map some id)) fun r => io₀.Quiet r.2 :=
  (createInode_spec h).map fun _ hr => hr.1

theorem lookup_quiet (w : Walk) (dir : Nat) (name : CString) (h : io₀.Quiet w) :
    Returns (lookup w dir name) fun r => io₀.Quiet r.2 := by
  unfold lookup
  split
  · unfold devfsLookup
    split
    · exact ensures_ok.mpr h
    · exact createInode_some_quiet h
  · split
    · exact ensures_ok.mpr h
    · exact createInode_some_quiet h
  · exact (returns_any _).map fun _ _ => h

theorem vfsResolvePath_quiet (h : io₀.Quiet w) : Returns (vfsResolvePath w path) fun r => io₀.Quiet r.2 := by
  unfold vfsResolvePath
  split
  · exact ensures_ok.mpr h
  · exact resolveIn_keeps lookup_quiet _ _ _ _ h

theorem create_quiet (h : io₀.Quiet w) : Returns (create w parent name type) fun r => io₀.Quiet r.2 := by
  obtain ⟨io, addresses⟩ := w
  unfold create
  split
  · exact ensures_ok.mpr h
  · exact ensures_error.mpr trivial
  · rename_i a rest _ haddresses
    cases haddresses
    obtain ⟨hnodup, hfree⟩ := h.fresh
    have hfresh : io.Fresh rest :=
      ⟨(List.nodup_cons.mp hnodup).2, fun b hb => hfree b (List.mem_cons_of_mem a hb)⟩
    exact shadowfsCreate_files.map fun r hr => h.setFs hr hfresh

theorem findOrCreate_quiet (h : io₀.Quiet w) :
    Returns (findOrCreate w path flags) fun r => io₀.Quiet r.2 := by
  refine (vfsResolvePath_quiet h).bind fun r h => ?_
  obtain ⟨inode, w⟩ := r
  cases inode with
  | some inode => exact ensures_ok.mpr h
  | none =>
    dsimp only
    split
    · exact ensures_ok.mpr h
    · refine (returns_any _).bind fun r _ => ?_
      refine (vfsResolvePath_quiet h).bind fun r h => ?_
      obtain ⟨parent, w⟩ := r
      cases parent with
      | none => exact ensures_ok.mpr h
      | some parent => exact create_quiet h

theorem fillFile_quiet (h : io₀.Quiet w) : Returns (fillFile w inode flags) fun r => io₀.Quiet r.2 := by
  unfold fillFile
  split
  · exact ensures_ok.mpr h
  · exact vfsFillFile_files.map fun r hr => h.setFs hr.2.2 h.fresh

theorem vfsOpenFile_quiet (h : io₀.Quiet w) :
    Returns (vfsOpenFile w path flags) fun r => io₀.Quiet r.2 := by
  refine (findOrCreate_quiet h).bind fun r h => ?_
  obtain ⟨inode, w⟩ := r
  cases inode with
  | none => exact ensures_ok.mpr h
  | some inode => exact (fillFile_quiet h).map fun _ hr => hr

end Walks

/-- What a call does to the descriptors: it may open one that is free, from 3 on, move along in another, and
closes `closing`; unless it is `writing`, the screen is as it was. -/
structure Frame (io : Io) (closing : Option Int) (writing : Bool) (io' : Io) : Prop where
  devices : io'.devices = io.devices
  nodes : ∀ a node, io.nodes a = some node → io'.nodes a = some node
  kept : ∀ (fd : Nat) file, io.fs.fileTable fd = some file → closing ≠ some (fd : Int) →
    ∃ position, io'.fs.fileTable fd = some { file with position := position }
  shut : ∀ fd < 3, io.fs.fileTable fd = none → io'.fs.fileTable fd = none
  closed : ∀ fd : Nat, fd < vfsMaxFds → closing = some (fd : Int) → io'.fs.fileTable fd = none
  screen : writing = false → io'.vga = io.vga

section Frames

variable {io : Io} {w : Walk} {s : Surroundings} {file : File} {fd : Int} {writing : Bool}

theorem Quiet.frame (h : io.Quiet w) : Frame io none writing w.1 where
  devices := h.devices
  nodes := h.nodes
  kept fd file hfile _ := ⟨file.position, (congrFun h.files fd).trans hfile⟩
  shut fd _ hfree := (congrFun h.files fd).trans hfree
  closed _ _ heq := nomatch heq
  screen _ := h.vga

theorem Frame.refl : Frame io none writing io where
  devices := rfl
  nodes _ _ h := h
  kept _ file hfile _ := ⟨file.position, hfile⟩
  shut _ _ h := h
  closed _ _ heq := nomatch heq
  screen _ := rfl

theorem setFile_self (fd : Nat) (file : Option File) : (io.setFile fd file).fs.fileTable fd = file :=
  Function.update_self ..

theorem setFile_of_ne {fd i : Nat} (file : Option File) (h : i ≠ fd) :
    (io.setFile fd file).fs.fileTable i = io.fs.fileTable i :=
  Function.update_of_ne h ..

theorem Quiet.opened {fd : Nat} (h : io.Quiet w) (hfree : w.1.fs.freeFd = some fd) :
    Frame io none writing (w.1.setFile fd (some file)) := by
  obtain ⟨hthree, -, hnone⟩ := FileSystem.freeFd_eq_some hfree
  rw [h.files] at hnone
  refine ⟨h.devices, h.nodes, fun i f hf _ => ?_, fun i hi hnone => ?_, fun _ _ heq => (nomatch heq),
    fun _ => h.vga⟩
  · have hne : i ≠ fd := by
      rintro rfl
      cases hnone.symm.trans hf
    exact ⟨f.position, (setFile_of_ne _ hne).trans ((congrFun h.files i).trans hf)⟩
  · exact (setFile_of_ne _ (by omega)).trans ((congrFun h.files i).trans hnone)

theorem vfsGetFile_eq (h : vfsGetFile io.fs fd = some file) :
    0 ≤ fd ∧ fd < vfsMaxFds ∧ io.fs.fileTable fd.toNat = some file := by
  unfold vfsGetFile at h
  split at h
  · cases h
  · exact ⟨by omega, by omega, h⟩

/-- **Moving along** in an open file, which may have changed the shadowFS. -/
theorem moved (fs : FileSystem) (hfile : vfsGetFile io.fs fd = some file) (position : Nat)
    (hfiles : fs.fileTable = io.fs.fileTable) :
    Frame io none writing (setFile { io with fs := fs } fd.toNat (some { file with position := position })) := by
  obtain ⟨hpos, -, hopen⟩ := vfsGetFile_eq hfile
  refine ⟨rfl, fun _ _ h => h, fun i f hf _ => ?_, fun i _ hnone => ?_, fun _ _ heq => (nomatch heq),
    fun _ => rfl⟩
  · by_cases hi : i = fd.toNat
    · subst hi
      cases hopen.symm.trans hf
      exact ⟨position, setFile_self ..⟩
    · exact ⟨f.position, (setFile_of_ne _ hi).trans ((congrFun hfiles i).trans hf)⟩
  · have hne : i ≠ fd.toNat := by
      rintro rfl
      cases hnone.symm.trans hopen
    exact (setFile_of_ne _ hne).trans ((congrFun hfiles i).trans hnone)

theorem vfsOpen_frame (h : io.Quiet w) (path : CString) (flags : BitVec 32) :
    Returns (vfsOpen w path flags) fun r => Frame io none false r.2 := by
  refine (vfsOpenFile_quiet h).bind fun r h => ?_
  obtain ⟨file, w⟩ := r
  cases file with
  | none => exact ensures_ok.mpr h.frame
  | some file =>
    dsimp only
    split
    · exact ensures_ok.mpr h.frame
    · rename_i i hfree
      exact ensures_ok.mpr (h.opened hfree)

theorem vfsClose_frame : Returns (io.vfsClose fd) fun r => Frame io (some fd) false r.2 := by
  unfold vfsClose
  split
  · rename_i hfile
    refine ensures_ok.mpr ⟨rfl, fun _ _ h => h, fun i f hf _ => ⟨f.position, hf⟩, fun _ _ h => h,
      fun i hi heq => ?_, fun _ => rfl⟩
    cases heq
    rwa [vfsGetFile, if_neg (by omega)] at hfile
  · rename_i file hfile
    obtain ⟨hpos, hmax, hopen⟩ := vfsGetFile_eq hfile
    refine (returns_any _).bind fun _ _ => ensures_ok.mpr ⟨rfl, fun _ _ h => h, fun i f hf hi => ?_,
      fun i _ hnone => ?_, fun i _ heq => ?_, fun _ => rfl⟩
    · have hne : i ≠ fd.toNat := by
        rintro rfl
        exact hi (by rw [Int.toNat_of_nonneg hpos])
      exact ⟨f.position, (setFile_of_ne _ hne).trans hf⟩
    · by_cases hi : i = fd.toNat
      · subst hi
        exact setFile_self ..
      · exact (setFile_of_ne _ hi).trans hnone
    · cases heq
      exact setFile_self ..

theorem vfsRead_frame (size : Nat) :
    Returns (io.vfsRead s fd size) fun r => Frame io none false r.2.2 := by
  unfold vfsRead
  split
  · exact ensures_ok.mpr .refl
  · rename_i file hfile
    have hmoved : ∀ r : List (BitVec 8) × File, (∃ position, r.2 = { file with position := position }) →
        Frame io none false (io.setFile fd.toNat (some r.2)) := by
      rintro ⟨read, -⟩ ⟨position, rfl⟩
      exact moved io.fs hfile position rfl
    split
    · exact ensures_ok.mpr .refl
    · dsimp only
      split
      · exact (returns_any _).map fun _ _ => .refl
      · exact procfsRead_file.map hmoved
      · exact shadowfsRead_file.map hmoved

theorem devfsWrite_frame (node : DevfsInode) (buf : List (BitVec 8)) :
    Frame io none true (io.devfsWrite node buf).2 := by
  unfold devfsWrite
  split
  · exact .refl
  · exact ⟨rfl, fun _ _ h => h, fun _ f hf _ => ⟨f.position, hf⟩, fun _ _ h => h,
      fun _ _ heq => (nomatch heq), fun hscreen => (nomatch hscreen)⟩
  · exact .refl
  · exact .refl

theorem vfsWrite_frame (buf : List (BitVec 8)) :
    Returns (io.vfsWrite fd buf) fun r => Frame io none true r.2 := by
  unfold vfsWrite
  split
  · exact ensures_ok.mpr .refl
  · rename_i file hfile
    split
    · exact ensures_ok.mpr .refl
    · split
      · exact ensures_ok.mpr (devfsWrite_frame _ _)
      · exact ensures_ok.mpr .refl
      · refine shadowfsWrite_files.map fun r hr => ?_
        obtain ⟨written, ⟨inode, position, flags⟩, fs⟩ := r
        obtain ⟨rfl, rfl, hfiles⟩ := hr
        exact moved fs hfile position hfiles

theorem vfsSeek_frame (offset : BitVec 32) (whence : Nat) :
    Returns (io.vfsSeek fd offset whence) fun r => Frame io none false r.2 := by
  unfold vfsSeek
  split
  · exact ensures_ok.mpr .refl
  · rename_i file hfile
    have hmoved : ∀ position, Frame io none false
        (io.setFile fd.toNat (some { file with position := position })) :=
      fun position => moved io.fs hfile position rfl
    dsimp only
    split
    · exact ensures_ok.mpr (hmoved _)
    · exact ensures_ok.mpr (hmoved _)
    · exact (returns_any _).bind fun _ _ => ensures_ok.mpr (hmoved _)
    · exact ensures_ok.mpr .refl

theorem vfsMkdir_frame (h : io.Quiet w) (path : CString) :
    Returns (vfsMkdir w path) fun r => Frame io none false r.2 := by
  refine (returns_any _).bind fun r _ => ?_
  refine (vfsResolvePath_quiet h).bind fun r h => ?_
  obtain ⟨parent, w⟩ := r
  cases parent with
  | none => exact ensures_ok.mpr h.frame
  | some parent =>
    dsimp only
    split
    · exact ensures_ok.mpr h.frame
    · refine (returns_any _).bind fun n _ => ?_
      split
      · exact ensures_ok.mpr h.frame
      · exact (create_quiet h).bind fun r hr => ensures_ok.mpr hr.frame

theorem vfsReaddir_frame : Returns (io.vfsReaddir s fd) fun r => Frame io none false r.2.2 := by
  unfold vfsReaddir
  split
  · exact ensures_ok.mpr .refl
  · rename_i file hfile
    have hmoved : ∀ r : Option Dentry × File, (∃ position, r.2 = { file with position := position }) →
        Frame io none false (io.setFile fd.toNat (some r.2)) := by
      rintro ⟨dentry, -⟩ ⟨position, rfl⟩
      exact moved io.fs hfile position rfl
    dsimp only
    split
    · refine ensures_ok.mpr (hmoved _ ?_)
      unfold devfsReaddir
      split
      · exact ⟨file.position, rfl⟩
      · exact ⟨_, rfl⟩
    · exact ensures_ok.mpr .refl
    · split
      · exact ensures_ok.mpr .refl
      · exact procfsReaddir_file.map hmoved
    · refine (returns_any _).bind fun n _ => ?_
      split
      · exact ensures_ok.mpr .refl
      · exact shadowfsReaddir_file.map hmoved

theorem vfsDelete_frame (h : io.Quiet w) (path : CString) :
    Returns (vfsDelete w path) fun r => Frame io none false r.2 := by
  refine (returns_any _).bind fun r _ => ?_
  refine (vfsResolvePath_quiet h).bind fun r h => ?_
  obtain ⟨parent, w⟩ := r
  cases parent with
  | none => exact ensures_ok.mpr h.frame
  | some parent =>
    dsimp only
    split
    · exact ensures_ok.mpr h.frame
    · exact shadowfsDelete_files.map fun r hr => (h.setFs hr h.fresh).frame

/-- **One call.** -/
theorem call_frame (hfresh : io.Fresh s.addresses) (c : Call) :
    Returns (io.call s c) fun r => Frame io c.closes c.writes r.2 := by
  cases c with
  | mount path pages quota => exact ensures_ok.mpr .refl
  | «open» path flags => exact (vfsOpen_frame hfresh.quiet path flags).map fun _ h => h
  | close fd => exact vfsClose_frame.map fun _ h => h
  | read fd size => exact (vfsRead_frame size).map fun _ h => h
  | write fd buf => exact (vfsWrite_frame buf).map fun _ h => h
  | seek fd offset whence => exact (vfsSeek_frame offset whence).map fun _ h => h
  | mkdir path => exact (vfsMkdir_frame hfresh.quiet path).map fun _ h => h
  | readdir fd => exact vfsReaddir_frame.map fun _ h => h
  | delete path => exact (vfsDelete_frame hfresh.quiet path).map fun _ h => h

end Frames

end Io

/-! ## 7. The shadowFS among them

On a descriptor of shadowFS a call is the one of `Calls.lean`, in the file system that is part of the whole. -/

/-- The descriptor that a call works on. -/
def Call.descriptor : Call → Option Int
  | .close fd | .read fd _ | .write fd _ | .seek fd _ _ | .readdir fd => some fd
  | _ => none

theorem Io.call_shadow {io : Io} {s : Surroundings} {c : Call} {fd : Int} {a : Nat}
    (hc : c.descriptor = some fd) (hfd : ∀ file, vfsGetFile io.fs fd = some file → io.nodes file.inode = none) :
    io.call s c = (vfsCall io.fs a c).map fun r => (r.1, { io with fs := r.2 }) := by
  cases c with
  | mount path pages quota => cases hc
  | «open» path flags => cases hc
  | mkdir path => cases hc
  | delete path => cases hc
  | close i =>
    cases hc
    cases hfile : vfsGetFile io.fs fd with
    | none => simp only [call, vfsClose, vfsCall, AcornOS.vfsClose, hfile, Except.map, Prod.map, id_eq]
    | some file =>
      simp only [call, vfsClose, vfsCall, AcornOS.vfsClose, hfile, inodeSize, hfd file hfile]
      cases io.fs.deref file.inode <;> rfl
  | read i size =>
    cases hc
    cases hfile : vfsGetFile io.fs fd with
    | none => simp only [call, vfsRead, vfsCall, AcornOS.vfsRead, hfile, Except.map]
    | some file =>
      simp only [call, vfsRead, vfsCall, AcornOS.vfsRead, hfile, hfd file hfile]
      split
      · rfl
      · cases shadowfsRead io.fs file size <;> rfl
  | write i buf =>
    cases hc
    cases hfile : vfsGetFile io.fs fd with
    | none => simp only [call, vfsWrite, vfsCall, AcornOS.vfsWrite, hfile, Except.map, Prod.map, id_eq]
    | some file =>
      simp only [call, vfsWrite, vfsCall, AcornOS.vfsWrite, hfile, hfd file hfile]
      split
      · rfl
      · cases shadowfsWrite io.fs file buf <;> rfl
  | seek i offset whence =>
    cases hc
    cases hfile : vfsGetFile io.fs fd with
    | none => simp only [call, vfsSeek, vfsCall, AcornOS.vfsSeek, hfile, Except.map, Prod.map, id_eq]
    | some file =>
      simp only [call, vfsSeek, vfsCall, AcornOS.vfsSeek, hfile, inodeSize, hfd file hfile]
      rcases whence with _ | _ | _ | whence
      · rfl
      · rfl
      · cases io.fs.deref file.inode <;> rfl
      · rfl
  | readdir i =>
    cases hc
    cases hfile : vfsGetFile io.fs fd with
    | none => simp only [call, vfsReaddir, vfsCall, AcornOS.vfsReaddir, hfile, Except.map]
    | some file =>
      simp only [call, vfsReaddir, vfsCall, AcornOS.vfsReaddir, hfile, hfd file hfile]
      cases io.fs.deref file.inode with
      | error e => rfl
      | ok n =>
        simp only [bind, Except.bind]
        split
        · rfl
        · cases shadowfsReaddir io.fs file <;> rfl

/-! ## 8. What holds when `kernel_main` has set it up -/

/-- `/temp` and `/devices` are mounted, and these devices are registered. -/
structure DevicesMounted (devices : List DevfsDevice) (w : Walk) : Prop where
  temp : w.1.fs.mountPoint 0 = tempPoint
  point : w.1.fs.mountPoint 1 = devicesPoint
  count : w.1.fs.mountCount = 2
  root : ∃ r, (w.1.fs.mountTable 1).root = r ∧ r ≠ 0 ∧ w.1.nodes r = some (.devfs ⟨none⟩)
  devices : w.1.devices = devices
  fresh : w.1.Fresh w.2

section Boot

variable {devices : List DevfsDevice} {w w' : Walk} {device : DevfsDevice} {rest name : CString}

theorem findMount_devices {fs : FileSystem} (htemp : fs.mountPoint 0 = tempPoint)
    (hpoint : fs.mountPoint 1 = devicesPoint) (hcount : fs.mountCount = 2) (rest : CString) :
    vfsFindMount fs (devicesPoint ++ rest) = some 1 := by
  have hprefix : devicesPoint.isPrefixOf (devicesPoint ++ rest) = true :=
    List.isPrefixOf_iff_prefix.mpr (List.prefix_append _ _)
  have hother : tempPoint.isPrefixOf (devicesPoint ++ rest) = false := rfl
  unfold vfsFindMount findMount
  rw [hcount]
  simp only [loop, htemp, hpoint, hprefix, hother, Option.all_none, Bool.false_and, Bool.true_and,
    Bool.false_eq_true, if_true, if_false]

/-- More inodes, and perhaps other devices. -/
theorem DevicesMounted.step {io : Io} {devices' : List DevfsDevice} (h : DevicesMounted devices w)
    (hquiet : io.Quiet w') (hfs : w'.1.fs = io.fs) (hmounts : io.fs.mountTable = w.1.fs.mountTable)
    (hcount : io.fs.mountCount = w.1.fs.mountCount) (hnodes : io.nodes = w.1.nodes)
    (hdevices : io.devices = devices') : DevicesMounted devices' w' := by
  obtain ⟨r, hr, hzero, hnode⟩ := h.root
  refine ⟨?_, ?_, ?_, ⟨r, ?_, hzero, ?_⟩, hquiet.devices.trans hdevices, hquiet.fresh⟩
  · rw [FileSystem.mountPoint, hfs, hmounts]
    exact h.temp
  · rw [FileSystem.mountPoint, hfs, hmounts]
    exact h.point
  · rw [hfs, hcount]
    exact h.count
  · rw [hfs, hmounts]
    exact hr
  · exact hquiet.nodes r _ ((congrFun hnodes r).trans hnode)

theorem devfsRegister_spec (h : DevicesMounted devices w) (hlen : devices.length < devfsMaxDevices)
    (hname : device.name.length < vfsMaxName) :
    Returns (Io.devfsRegister w devicesPoint device) fun r =>
      DevicesMounted (devices ++ [device]) r.2 ∧ r.2.1.fs = w.1.fs := by
  have hfind : vfsFindMount w.1.fs devicesPoint = some 1 := by
    have hfind := findMount_devices h.temp h.point h.count []
    rwa [List.append_nil] at hfind
  have hfull : ¬ (w.1.devices.length ≥ devfsMaxDevices ∨ vfsFindMount w.1.fs devicesPoint = none) := by
    rw [h.devices, hfind]
    rintro (hge | hnone)
    · exact absurd hlen (Nat.not_lt.mpr hge)
    · cases hnone
  unfold Io.devfsRegister
  rw [if_neg hfull, kstrcpy_of_short hname, h.devices]
  have hquiet : Io.Quiet { w.1 with devices := devices ++ [device] }
      ({ w.1 with devices := devices ++ [device] }, w.2) := Io.Fresh.quiet h.fresh
  refine (Io.createInode_spec hquiet).bind fun r hr => ensures_ok.mpr ?_
  exact ⟨h.step hr.1 hr.2.2.2 rfl rfl rfl rfl, hr.2.2.2⟩

theorem registerAll_spec (ds : List DevfsDevice) : ∀ {devices : List DevfsDevice} {w : Walk},
    DevicesMounted devices w → (devices ++ ds).length ≤ devfsMaxDevices →
    (∀ d ∈ ds, d.name.length < vfsMaxName) →
    Returns (Io.registerAll w ds) fun w' => DevicesMounted (devices ++ ds) w' ∧ w'.1.fs = w.1.fs := by
  induction ds with
  | nil =>
    intro devices w h _ _
    rw [List.append_nil]
    exact ensures_ok.mpr ⟨h, rfl⟩
  | cons d ds ih =>
    intro devices w h hlen hnames
    have hroom : devices.length < devfsMaxDevices := by
      rw [List.length_append, List.length_cons] at hlen
      omega
    refine (devfsRegister_spec h hroom (hnames d List.mem_cons_self)).bind fun r hr => ?_
    rw [List.append_cons] at hlen ⊢
    refine (ih hr.1 hlen fun x hx => hnames x (List.mem_cons_of_mem d hx)).mono (fun _ h => h) ?_
    exact fun w' hw' => ⟨hw'.1, hw'.2.trans hr.2⟩

/-- **A device is opened** by its name. -/
theorem openDevice_spec {i fd : Nat} {flags : BitVec 32} (h : DevicesMounted devices w)
    (hname : components name = [name]) (hshort : name.length < vfsMaxName)
    (hi : devices.findIdx? (fun d => d.name = name) = some i) (hfd : fd < vfsMaxFds) :
    Returns (Io.vfsOpenAt w (devicesPoint ++ slash :: name) flags fd) fun r => DevicesMounted devices r.2 ∧
      (∀ a node, w.1.nodes a = some node → r.2.1.nodes a = some node) ∧
      ∃ a, r.2.1.nodes a = some (.devfs ⟨some i⟩) ∧
        r.2.1.fs = w.1.fs.setFile fd (some ⟨a, 0, flags⟩) := by
  obtain ⟨r, hr, hzero, hnode⟩ := h.root
  have hbelow : belowMount devicesPoint (devicesPoint ++ slash :: name) = name := by
    rw [belowMount, List.drop_left]
    rfl
  have hresolve : Io.vfsResolvePath w (devicesPoint ++ slash :: name) =
      (Io.createInode (.devfs ⟨some i⟩) w).map (Prod.map some id) := by
    have hne : devicesPoint ++ slash :: name ≠ devicesPoint := by simp
    have hne' : devicesPoint ++ slash :: name ≠ [slash] := by simp [devicesPoint, ascii]
    unfold Io.vfsResolvePath
    rw [findMount_devices h.temp h.point h.count]
    simp only [resolveIn, h.point, hr, if_neg hzero, if_neg hne, if_neg hne', hbelow, hname, walkPath,
      if_neg (Nat.not_le.mpr hshort), Io.lookup, hnode, Io.devfsLookup, h.devices, hi]
    cases Io.createInode (.devfs ⟨some i⟩) w <;> rfl
  have hrange : ¬ ((fd : Int) < 0 ∨ (fd : Int) ≥ vfsMaxFds) := by omega
  unfold Io.vfsOpenAt Io.vfsOpenFile Io.findOrCreate
  rw [if_neg hrange, hresolve]
  have hcreate : Returns (Io.createInode (.devfs ⟨some i⟩) w) _ := Io.createInode_spec (Io.Fresh.quiet h.fresh)
  cases hok : Io.createInode (.devfs ⟨some i⟩) w with
  | error e => exact ensures_error.mpr trivial
  | ok r =>
    obtain ⟨a, io, addresses⟩ := r
    obtain ⟨hquiet, hnew, -, hfs⟩ := hcreate.of_ok hok
    have hfill : Io.fillFile (io, addresses) a flags = .ok (⟨a, 0, flags⟩, io, addresses) := by
      unfold Io.fillFile
      split
      · rfl
      · rename_i hnone
        cases hnew.symm.trans hnone
    have hopened := h.step hquiet hfs rfl rfl rfl h.devices
    have hset : Returns (Except.ok ((fd : Int),
        io.setFile (fd : Int).toNat (some ⟨a, 0, flags⟩), addresses)) fun r => DevicesMounted devices r.2 ∧
        (∀ a node, w.1.nodes a = some node → r.2.1.nodes a = some node) ∧
        ∃ a, r.2.1.nodes a = some (.devfs ⟨some i⟩) ∧
          r.2.1.fs = w.1.fs.setFile fd (some ⟨a, 0, flags⟩) := by
      have hw : io.fs.setFile fd (some ⟨a, 0, flags⟩) = w.1.fs.setFile fd (some ⟨a, 0, flags⟩) :=
        congrArg (fun fs => FileSystem.setFile fs fd _) hfs
      exact ensures_ok.mpr ⟨⟨hopened.temp, hopened.point, hopened.count, hopened.root, hopened.devices,
        hopened.fresh⟩, hquiet.nodes, a, hnew, hw⟩
    simp only [Except.map, Prod.map, bind, Except.bind, id_eq, hfill]
    exact hset

/-- The descriptor leads to this device. -/
def Io.DeviceAt (io : Io) (fd : Nat) (flags : BitVec 32) (device : Nat) : Prop :=
  ∃ a, io.nodes a = some (.devfs ⟨some device⟩) ∧ ∃ position, io.fs.fileTable fd = some ⟨a, position, flags⟩

/-- What `kernel_main` has promised: the keyboard and the display on 0, 1 and 2. -/
structure Io.Stdio (io : Io) : Prop where
  devices : io.devices = kernelDevices
  stdin : io.DeviceAt 0 oRdonly 1
  stdout : io.DeviceAt 1 oWronly 0
  stderr : io.DeviceAt 2 oWronly 0

theorem Io.Stdio.quiet {io : Io} (h : io.Stdio) (hquiet : io.Quiet w) : w.1.Stdio := by
  have hat : ∀ {fd device : Nat} {flags : BitVec 32}, io.DeviceAt fd flags device →
      w.1.DeviceAt fd flags device := by
    rintro fd device flags ⟨a, hnode, position, hfile⟩
    exact ⟨a, hquiet.nodes a _ hnode, position, (congrFun hquiet.files fd).trans hfile⟩
  exact ⟨hquiet.devices.trans h.devices, hat h.stdin, hat h.stdout, hat h.stderr⟩

theorem setUpStdio_spec (h : DevicesMounted kernelDevices w) :
    Returns (Io.setUpStdio w) fun w' => w'.1.Stdio ∧ w'.1.Fresh w'.2 := by
  have hkeyboard : components keyboardName = [keyboardName] := by decide
  have hdisplay : components displayName = [displayName] := by decide
  unfold Io.setUpStdio
  refine (openDevice_spec h hkeyboard (by decide) (by decide : _ = some 1) (by decide)).bind fun r hr => ?_
  obtain ⟨h₀, -, k, hk, hfs₀⟩ := hr
  refine (openDevice_spec h₀ hdisplay (by decide) (by decide : _ = some 0) (by decide)).bind fun r hr => ?_
  obtain ⟨h₁, hnodes₁, d, hd, hfs₁⟩ := hr
  refine (openDevice_spec h₁ hdisplay (by decide) (by decide : _ = some 0) (by decide)).bind fun r hr => ?_
  obtain ⟨h₂, hnodes₂, e, he, hfs₂⟩ := hr
  refine ensures_ok.mpr ⟨⟨h₂.devices, ⟨k, ?_, 0, ?_⟩, ⟨d, ?_, 0, ?_⟩, ⟨e, he, 0, ?_⟩⟩, h₂.fresh⟩
  · exact hnodes₂ _ _ (hnodes₁ _ _ hk)
  · rw [hfs₂, hfs₁, hfs₀]
    rfl
  · exact hnodes₂ _ _ hd
  · rw [hfs₂, hfs₁]
    rfl
  · rw [hfs₂]
    rfl

theorem mountNode_quiet {io : Io} {path : CString} {root : NodeData} (h : io.Quiet w) :
    Returns (Io.mountNode w path root) fun r => io.Quiet r.2 := by
  unfold Io.mountNode
  split
  · exact ensures_ok.mpr h
  · rename_i fs hmount
    have hfiles : fs.fileTable = w.1.fs.fileTable := by
      unfold vfsMount at hmount
      split at hmount
      · cases hmount
      · split at hmount
        · cases hmount
        · cases hmount
          rfl
    have hquiet := h.setFs hfiles h.fresh
    split
    · exact ensures_ok.mpr hquiet
    · refine (Io.createInode_spec hquiet).bind fun r hr => ?_
      exact ensures_ok.mpr ⟨hr.1.files, hr.1.devices, hr.1.nodes, hr.1.fresh, hr.1.vga⟩

/-- The shadowFS is the first mount. -/
theorem mountTemp_spec (freePages a quota : Nat) :
    (shadowfsMount .vfsInit freePages a tempPoint quota).1 < 0 ∨
      (shadowfsMount .vfsInit freePages a tempPoint quota).2.mountCount = 1 ∧
      (shadowfsMount .vfsInit freePages a tempPoint quota).2.mountPoint 0 = tempPoint := by
  have hmount : vfsMount .vfsInit tempPoint ⟨quota, 0, 1⟩ = some { FileSystem.vfsInit with
      mountTable := Function.update FileSystem.vfsInit.mountTable 0 ⟨tempPoint, 0, ⟨quota, 0, 1⟩⟩
      mountCount := 1 } := rfl
  unfold shadowfsMount
  split
  · exact Or.inl (by decide : (-1 : Int) < 0)
  · simp only [hmount]
    exact Or.inr ⟨rfl, rfl⟩

/-- The devFS is mounted beside it. -/
theorem mountDevices_spec {kernel : Kernel} {vga : Vga} {fs : FileSystem} {addresses : List Nat}
    (hfresh : addresses.Nodup ∧ ∀ a ∈ addresses, a ≠ 0) (hcount : fs.mountCount = 1)
    (hpoint : fs.mountPoint 0 = tempPoint) :
    Returns (Io.mountNode (⟨fs, fun _ => none, [], kernel, vga⟩, addresses) devicesPoint (.devfs ⟨none⟩))
      fun r => DevicesMounted [] r.2 := by
  generalize hfs' : ({ fs with
    mountTable := Function.update fs.mountTable 1 ⟨devicesPoint, 0, ⟨0, 0, 0⟩⟩
    mountCount := 2 } : FileSystem) = fs'
  have hmount : vfsMount fs devicesPoint ⟨0, 0, 0⟩ = some fs' := by
    have hother : tempPoint ≠ devicesPoint := by decide
    have hshort : kstrcpy devicesPoint vfsMaxPath = devicesPoint := by decide
    unfold vfsMount
    rw [hcount, if_neg (by decide), hshort]
    simp [List.range_succ, hpoint, hother, ← hfs']
  have hzero : fs'.mountPoint 0 = tempPoint := by
    rw [← hpoint, ← hfs']
    rfl
  have hone : fs'.mountPoint 1 = devicesPoint := by
    rw [← hfs']
    rfl
  have htwo : fs'.mountCount = 2 := by rw [← hfs']
  have hfind : vfsFindMount fs' devicesPoint = some 1 := by
    have hfind := findMount_devices hzero hone htwo []
    rwa [List.append_nil] at hfind
  have hquiet : Io.Quiet ⟨fs', fun _ => none, [], kernel, vga⟩ (⟨fs', fun _ => none, [], kernel, vga⟩, addresses) :=
    Io.Fresh.quiet ⟨hfresh.1, fun a ha => ⟨hfresh.2 a ha, rfl⟩⟩
  unfold Io.mountNode
  simp only [hmount, hfind]
  refine (Io.createInode_spec hquiet).bind fun r hr => ensures_ok.mpr ?_
  obtain ⟨a, io, rest⟩ := r
  obtain ⟨hquiet, hnode, hne, hfs⟩ := hr
  simp only at hfs
  subst hfs
  exact ⟨hzero, hone, htwo, ⟨a, rfl, hne, hnode⟩, hquiet.devices, hquiet.fresh⟩

/-- **What `kernel_main` has set up**: if it gets so far, the keyboard and the display are there. -/
theorem kernelMain_spec {kernel : Kernel} {vga : Vga} {freePages : Nat} {addresses : List Nat}
    (hnodup : addresses.Nodup) (hzero : ∀ a ∈ addresses, a ≠ 0) :
    Returns (Io.kernelMain kernel vga freePages addresses) fun w => w.1.Stdio := by
  cases addresses with
  | nil => exact ensures_error.mpr trivial
  | cons a addresses =>
    have htemp := mountTemp_spec freePages a (8 * 1024 * 1024)
    unfold Io.kernelMain
    dsimp only
    split
    · exact ensures_error.mpr trivial
    rename_i hr
    obtain ⟨hcount, hpoint⟩ := htemp.resolve_left hr
    have hfresh := And.intro (List.nodup_cons.mp hnodup).2 fun b hb => hzero b (List.mem_cons_of_mem a hb)
    refine (mountDevices_spec hfresh hcount hpoint).bind fun r h => ?_
    split
    · exact ensures_error.mpr trivial
    refine (registerAll_spec kernelDevices h (by decide) (by decide)).bind fun w hw => ?_
    refine (setUpStdio_spec hw.1).bind fun w hw => ?_
    refine (mountNode_quiet (Io.Fresh.quiet hw.2)).bind fun r hr => ?_
    split
    · exact ensures_error.mpr trivial
    · exact ensures_ok.mpr (hw.1.quiet hr)

end Boot

/-! ## 9. Whole runs -/

/-- What a run of calls does to the descriptors: `Frame` for all of them together. -/
structure Io.RunFrame (io₀ : Io) (cs : List Call) (io : Io) : Prop where
  devices : io.devices = io₀.devices
  nodes : ∀ a node, io₀.nodes a = some node → io.nodes a = some node
  kept : ∀ (fd : Nat) file, io₀.fs.fileTable fd = some file → Call.close fd ∉ cs →
    ∃ position, io.fs.fileTable fd = some { file with position := position }
  shut : ∀ fd : Nat, fd < 3 → Call.close fd ∈ cs → io.fs.fileTable fd = none

section Runs

variable {io₀ io io' : Io} {cs : List Call} {c : Call}

theorem Call.closes_eq_some {fd : Int} : c.closes = some fd ↔ c = .close fd := by
  cases c <;> simp [closes]

theorem Io.RunFrame.step (h : io₀.RunFrame cs io) (hc : io.Frame c.closes c.writes io') :
    io₀.RunFrame (cs ++ [c]) io' where
  devices := hc.devices.trans h.devices
  nodes a node hnode := hc.nodes a node (h.nodes a node hnode)
  kept fd file hfile hnot := by
    obtain ⟨hcs, hne⟩ := not_or.mp (List.mem_append.not.mp hnot)
    obtain ⟨p, hp⟩ := h.kept fd file hfile hcs
    have hother : c.closes ≠ some (fd : Int) :=
      fun heq => hne (List.mem_singleton.mpr (Call.closes_eq_some.mp heq).symm)
    obtain ⟨q, hq⟩ := hc.kept fd _ hp hother
    exact ⟨q, hq⟩
  shut fd hfd hmem := by
    rcases List.mem_append.mp hmem with hcs | hlast
    · exact hc.shut fd hfd (h.shut fd hfd hcs)
    · have hmax : fd < vfsMaxFds := hfd.trans (by decide)
      exact hc.closed fd hmax (Call.closes_eq_some.mpr (List.mem_singleton.mp hlast).symm)

/-- **A descriptor leads where it led until it is closed**, whoever makes the calls, and the first three
never lead anywhere again after that. -/
theorem IoRun.frame (h : IoRun io₀ cs io) : io₀.RunFrame cs io := by
  induction h with
  | start =>
    exact ⟨rfl, fun _ _ h => h, fun _ file h _ => ⟨file.position, h⟩,
      fun _ _ h => absurd h List.not_mem_nil⟩
  | call _ hfresh hok ih => exact ih.step ((Io.call_frame hfresh _).of_ok hok)
  | other _ kernel vga ih => exact ⟨ih.devices, ih.nodes, ih.kept, ih.shut⟩

/-- A device is where it was, until its descriptor is closed. -/
theorem Io.DeviceAt.run {fd device : Nat} {flags : BitVec 32} (h : io₀.DeviceAt fd flags device)
    (hrun : IoRun io₀ cs io) (hopen : Call.close fd ∉ cs) : io.DeviceAt fd flags device := by
  obtain ⟨a, hnode, p, hfile⟩ := h
  obtain ⟨q, hq⟩ := hrun.frame.kept fd _ hfile hopen
  exact ⟨a, hrun.frame.nodes a _ hnode, q, hq⟩

theorem vfsGetFile_of_lt {fs : FileSystem} {fd : Nat} (hfd : fd < 3) :
    vfsGetFile fs fd = fs.fileTable fd := by
  have hmax : ¬ ((fd : Int) < 0 ∨ (fd : Int) ≥ vfsMaxFds) := by
    unfold vfsMaxFds
    omega
  rw [vfsGetFile, if_neg hmax, Int.toNat_natCast]

/-- Writing to the display. -/
theorem Io.vfsWrite_display {fd : Nat} (hfd : fd < 3) (h : io.DeviceAt fd oWronly 0)
    (hdevices : io.devices = kernelDevices) (buf : List (BitVec 8)) :
    io.vfsWrite fd buf = .ok (toInt32 buf.length, { io with vga := vgaPrint io.vga buf }) := by
  obtain ⟨a, hnode, p, hfile⟩ := h
  have hdevice : io.devices[0]? = some ⟨displayName, none, some .display⟩ := by rw [hdevices]; rfl
  unfold Io.vfsWrite
  rw [vfsGetFile_of_lt hfd, hfile]
  simp only [if_neg (by decide : oWronly ≠ oRdonly), hnode, Io.devfsWrite, Option.bind_some, hdevice]
  rfl

/-- Reading from the keyboard. -/
theorem Io.vfsRead_keyboard {s : Surroundings} {size : Nat} (h : io.DeviceAt 0 oRdonly 1)
    (hdevices : io.devices = kernelDevices) (hkeys : size ≤ s.bytes.length) :
    io.vfsRead s 0 size = .ok (toInt32 size, s.bytes.take size, io) := by
  obtain ⟨a, hnode, p, hfile⟩ := h
  have hdevice : io.devices[1]? = some ⟨keyboardName, some .keyboard, none⟩ := by rw [hdevices]; rfl
  have hget : vfsGetFile io.fs 0 = io.fs.fileTable 0 := vfsGetFile_of_lt (by decide)
  have hlen : (s.bytes.take size).length = size := List.length_take_of_le hkeys
  unfold Io.vfsRead
  rw [hget, hfile]
  simp only [if_neg (by decide : oRdonly ≠ oWronly), hnode, Io.devfsRead, Option.bind_some, hdevice,
    Io.deviceRead, if_neg (Nat.not_lt.mpr hkeys), Except.map, hlen]

/-- Closing a device. -/
theorem Io.vfsClose_device {fd device : Nat} {flags : BitVec 32} (hfd : fd < 3)
    (h : io.DeviceAt fd flags device) : io.vfsClose fd = .ok (0, io.setFile fd none) := by
  obtain ⟨a, hnode, p, hfile⟩ := h
  unfold Io.vfsClose
  rw [vfsGetFile_of_lt hfd, hfile]
  simp only [Io.inodeSize, hnode]
  rfl

/-- The call that closes a device. -/
theorem Io.call_close_device {fd device : Nat} {flags : BitVec 32} (s : Surroundings) (hfd : fd < 3)
    (h : io.DeviceAt fd flags device) : io.call s (.close fd) = .ok (.of 0, io.setFile fd none) := by
  rw [Io.call, Io.vfsClose_device hfd h]
  rfl

/-- The start with two processes in the queue and the addresses from 1 to 12. -/
theorem twoQueued_boots : (List.range' 1 12).Nodup ∧ (∀ a ∈ List.range' 1 12, a ≠ 0) ∧
    ∃ w : Walk, Io.kernelMain twoQueued (vgaInit ⟨fun _ => 0, 0, 0, 0, false⟩) 8192 (List.range' 1 12) = .ok w ∧
      w.1.Stdio := by
  have hnodup : (List.range' 1 12).Nodup := by decide
  have hzero : ∀ a ∈ List.range' 1 12, a ≠ 0 := by decide
  obtain ⟨w, hboot⟩ : ∃ w, Io.kernelMain twoQueued (vgaInit ⟨fun _ => 0, 0, 0, 0, false⟩) 8192
      (List.range' 1 12) = .ok w := ⟨_, rfl⟩
  exact ⟨hnodup, hzero, w, hboot, (kernelMain_spec hnodup hzero).of_ok hboot⟩

end Runs

end AcornOS
