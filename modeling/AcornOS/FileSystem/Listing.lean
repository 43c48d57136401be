/-
# Reading a directory at any position

`vfs_seek` puts any 32-bit position into any descriptor.  On a directory the position is the INDEX of the
next entry, and each file system looks it up in its own way.

* `shadowfs_readdir` walks its list of entries, and `procfs_readdir` the process table; a walk ends at the
  end of what it walks along.
* `devfs_readdir` compares the position with the number of devices before it reads the table.
* `procfs_readdir` on the directory of a process reads `pid_files` at the position and looks for a 0 there.
  The 0 is at index 3; a position BEHIND it is an index outside the table.

`PositionRun` is any history of seeks and reads of one descriptor, with anything at all happening to the
directory in between.  **`readdir_safe_iff`**: after it `vfs_readdir` returns the entry at the position, or
0 if there is none, unless this is the directory of a process and the position is above 3.  A descriptor is
there after one seek (`seek_past_pid_files`), and after reads alone it is not.
-/
import AcornOS.FileSystem.Iteration
import AcornOS.FileSystem.ProcFs
import AcornOS.FileSystem.Seeks

namespace AcornOS

open Lib

/-! ## 1. The code -/

/-- `DEVFS_MAX_DEVICES` -/
def devfsMaxDevices : Nat := 16

/-- The names in `device_table`, and `devfs_mount_data.count`. -/
structure Devfs where
  deviceTable : List CString
  count : Nat
  length_eq : deviceTable.length = devfsMaxDevices
  count_le : count ≤ devfsMaxDevices

namespace Devfs

/-- `devfs_mount` -/
def devfsMount : Devfs := ⟨List.replicate devfsMaxDevices [], 0, List.length_replicate, Nat.zero_le _⟩

/-- `devfs_register`, where `mounted` says whether `vfs_find_mount` finds the path. -/
def devfsRegister (t : Devfs) (mounted : Bool) (name : CString) : Int × Devfs :=
  if h : devfsMaxDevices ≤ t.count then (-1, t)
  else if mounted = false then (-1, t)
  else (0, ⟨t.deviceTable.set t.count (kstrcpy name vfsMaxName), t.count + 1,
    List.length_set.trans t.length_eq, Nat.not_le.mp h⟩)

/-- `devfs_readdir` -/
def devfsReaddir (t : Devfs) (file : File) : Except Fault (Option Dentry × File) :=
  if t.count ≤ file.position then .ok (none, file)
  else
    match t.deviceTable[file.position]? with
    | none => .error .overrun
    | some name =>
      .ok (some ⟨kstrcpy name vfsMaxName, 0, .file⟩, { file with position := add32 file.position 1 })

end Devfs

/-- The `type` that `procfs_create_inode` is given with each type of its own. -/
def ProcfsInodeType.vfsType : ProcfsInodeType → VfsType
  | .root | .pidDir => .dir
  | .pidFile | .infoFile => .file

/-- `vfs_seek` on an inode of this size. -/
def seekFrom (size : Nat) (file : File) (offset : BitVec 32) (whence : Int) : Int × File :=
  let moved (position : Nat) : Int × File := (toInt32 position, { file with position := position })
  if whence = 0 then moved (add32 file.position offset.toNat)
  else if whence = 1 then moved (add32 file.position offset.toNat)
  else if whence = 2 then moved (add32 size offset.toNat)
  else (-1, file)

/-- The file system that a descriptor's inode is in, with what `readdir` looks at there. -/
inductive OpenDir where
  | shadowfs (k : Store)
  | devfs (t : Devfs)
  | procfs (s : Kernel) (node : ProcfsInode)

namespace OpenDir

/-- `vfs_readdir`, for the file that `vfs_get_file` finds for the descriptor. -/
def vfsReaddir (d : OpenDir) (file : File) (dentry : Dentry) : Except Fault (Int × Option Dentry × File) :=
  let result (r : Option Dentry × File) : Int × Option Dentry × File :=
    (if r.1.isSome then 1 else 0, r.1, r.2)
  match d with
  | .shadowfs k => k.vfsReaddir file
  | .devfs t => (t.devfsReaddir file).map result
  | .procfs s node =>
    if node.type.vfsType ≠ .dir then .ok (-1, none, file)
    else (procfsReaddir s node file dentry).map result

/-- `vfs_seek`: in devFS and procFS the `size` of every inode is 0. -/
def vfsSeek (d : OpenDir) (file : File) (offset : BitVec 32) (whence : Int) : Except Fault (Int × File) :=
  match d with
  | .shadowfs k => k.vfsSeek file offset whence
  | .devfs _ | .procfs _ _ => .ok (seekFrom 0 file offset whence)

/-- The directory of a process. -/
def IsPidDir : OpenDir → Prop
  | .procfs _ node => node.type = .pidDir
  | _ => False

/-- The same directory at another time: the process table, the devices, the entries and everything else may
have changed. -/
inductive Later : OpenDir → OpenDir → Prop
  | shadowfs (k k' : Store) : Later (.shadowfs k) (.shadowfs k')
  | devfs (t t' : Devfs) : Later (.devfs t) (.devfs t')
  | procfs (s s' : Kernel) (node : ProcfsInode) : Later (.procfs s node) (.procfs s' node)

end OpenDir

/-- A history of a descriptor of a directory, where `C` says what a seek may come to. -/
inductive PositionRun (C : OpenDir → File → Prop) (inode : Nat) (flags : BitVec 32) : OpenDir → File → Prop
  | start (d : OpenDir) : PositionRun C inode flags d ⟨inode, 0, flags⟩
  | seek {d : OpenDir} {file file' : File} {offset : BitVec 32} {whence r : Int}
      (h : PositionRun C inode flags d file) (hok : d.vfsSeek file offset whence = .ok (r, file'))
      (hC : C d file') : PositionRun C inode flags d file'
  | readdir {d : OpenDir} {file file' : File} {dentry : Dentry} {r : Int} {out : Option Dentry}
      (h : PositionRun C inode flags d file) (hok : d.vfsReaddir file dentry = .ok (r, out, file')) :
      PositionRun C inode flags d file'
  | other {d d' : OpenDir} {file : File} (h : PositionRun C inode flags d file) (hlater : d.Later d') :
      PositionRun C inode flags d' file

/-! ## 2. The entries -/

/-- The entries of `/process`. -/
def rootEntries (s : Kernel) (dentry : Dentry) : List Dentry :=
  { dentry with name := Vfs.meminfo, type := .file } :: { dentry with name := Vfs.mounts, type := .file } ::
    s.listed.map fun p => { dentry with name := numeral decDigit 10 (s.pcb p).pid, type := .dir }

/-- The names of the devices. -/
def Devfs.names (t : Devfs) : List CString := t.deviceTable.take t.count

/-- The entries of `/devices`. -/
def deviceEntries (t : Devfs) : List Dentry := t.names.map fun name => ⟨kstrcpy name vfsMaxName, 0, .file⟩

/-- The entries of the directory of a process. -/
def pidEntries (dentry : Dentry) : List Dentry :=
  [Vfs.status, Vfs.memory, Vfs.files].map fun name => { dentry with name := name, type := .file }

/-- The entries of a directory, as they are shown to a caller with this `dentry`: procFS does not set its
`inode`. -/
inductive OpenDir.Lists (inode : Nat) (dentry : Dentry) : OpenDir → List Dentry → Prop
  | shadowfs {k : Store} {rest : List (Nat × Nat)} {d : InodeNode} {es : List DirEntry}
      (h : DirAt k rest inode d es) (hdir : d.type = .dir) :
      Lists inode dentry (.shadowfs k) (es.map DirEntry.shown)
  | devfs (t : Devfs) : Lists inode dentry (.devfs t) (deviceEntries t)
  | procfsRoot {s : Kernel} {node : ProcfsInode} (hroot : node.type = .root) (hfit : s.PidsFit) :
      Lists inode dentry (.procfs s node) (rootEntries s dentry)
  | pidDir {s : Kernel} {node : ProcfsInode} (hpid : node.type = .pidDir) :
      Lists inode dentry (.procfs s node) (pidEntries dentry)

/-- What is read at the position of the file: the entry there, or nothing at the end. -/
def nextEntry (ds : List Dentry) (file : File) : Option Dentry × File :=
  match ds[file.position]? with
  | some dentry => (some dentry, { file with position := file.position + 1 })
  | none => (none, file)

/-- **`readdir` is safe**: it returns 1 and the entry at the position, or 0 if the position is not that of an
entry. -/
def ReaddirSafe (d : OpenDir) (file : File) (dentry : Dentry) (ds : List Dentry) : Prop :=
  d.vfsReaddir file dentry = .ok (if file.position < ds.length then 1 else 0, nextEntry ds file)

section Entries

variable {ds : List Dentry} {file : File} {dentry : Dentry} {s : Kernel} {node : ProcfsInode}

theorem nextEntry_of_some {e : Dentry} (h : ds[file.position]? = some e) :
    nextEntry ds file = (some e, { file with position := file.position + 1 }) := by
  rw [nextEntry, h]

theorem nextEntry_of_none (h : ds[file.position]? = none) : nextEntry ds file = (none, file) := by
  rw [nextEntry, h]

theorem isSome_nextEntry : (nextEntry ds file).1.isSome = true ↔ file.position < ds.length := by
  cases h : ds[file.position]? with
  | some e =>
    rw [nextEntry_of_some h]
    exact iff_of_true rfl (List.getElem?_eq_some_iff.mp h).1
  | none =>
    rw [nextEntry_of_none h]
    exact iff_of_false nofun (Nat.not_lt.mpr (List.getElem?_eq_none_iff.mp h))

/-- A new device comes last. -/
theorem devfsRegister_names {t : Devfs} (h : t.count < devfsMaxDevices) (name : CString) :
    (t.devfsRegister true name).2.names = t.names ++ [kstrcpy name vfsMaxName] := by
  have hlt : t.count < t.deviceTable.length := t.length_eq ▸ h
  rw [Devfs.devfsRegister, dif_neg (Nat.not_le.mpr h), if_neg (by decide)]
  dsimp only [Devfs.names]
  rw [List.take_add_one, List.take_set_of_le le_rfl, List.getElem?_set_self hlt, Option.toList_some]

/-- **`/devices`**: every index that `devfs_readdir` reads is in the table. -/
theorem devfsReaddir_eq (t : Devfs) (file : File) :
    t.devfsReaddir file = .ok (nextEntry (deviceEntries t) file) := by
  rw [Devfs.devfsReaddir, deviceEntries, Devfs.names]
  by_cases hend : t.count ≤ file.position
  · rw [if_pos hend, nextEntry_of_none]
    rw [List.getElem?_map, List.getElem?_take_eq_none hend, Option.map_none]
  · have hlt := Nat.not_le.mp hend
    have htable : file.position < t.deviceTable.length := t.length_eq ▸ hlt.trans_le t.count_le
    have hadd : add32 file.position 1 = file.position + 1 := by
      have hcount := t.count_le
      have hmax : devfsMaxDevices < 2 ^ 32 := by decide
      exact Nat.mod_eq_of_lt (by omega)
    rw [if_neg hend, List.getElem?_eq_getElem htable, nextEntry_of_some, hadd]
    rw [List.getElem?_map, List.getElem?_take_of_lt hlt, List.getElem?_eq_getElem htable]
    rfl

/-- **`/process`** -/
theorem procfsReaddir_root (hroot : node.type = .root) (hfit : s.PidsFit) (hpos : file.position < 2 ^ 32) :
    procfsReaddir s node file dentry = .ok (nextEntry (rootEntries s dentry) file) := by
  rw [procfsReaddir, hroot]
  dsimp only
  by_cases hzero : file.position = 0
  · rw [if_pos hzero, nextEntry_of_some (by rw [hzero]; rfl), hzero]
    rfl
  by_cases hone : file.position = 1
  · rw [if_neg hzero, if_pos hone, nextEntry_of_some (by rw [hone]; rfl), hone]
    rfl
  obtain ⟨k, hk⟩ : ∃ k, file.position = k + 2 := ⟨file.position - 2, by omega⟩
  have hsub : sub32 file.position 2 = k := by
    rw [sub32, hk]
    omega
  have hat : (rootEntries s dentry)[file.position]? = s.listed[k]?.map fun p =>
      { dentry with name := numeral decDigit 10 (s.pcb p).pid, type := .dir } := by
    rw [hk, rootEntries, List.getElem?_cons_succ, List.getElem?_cons_succ, List.getElem?_map]
  rw [if_neg hzero, if_neg hone, hsub, pidAt_listed]
  cases hget : s.listed[k]? with
  | none => rw [nextEntry_of_none (by rw [hat, hget]; rfl)]
  | some p =>
    have hlt := hfit p (mem_listed.mp (List.mem_of_getElem? hget))
    have hshort : (numeral decDigit 10 (s.pcb p).pid).length < vfsMaxName :=
      (length_numeral_le decDigit (k := 20) (by decide) (by decide) (hlt.trans (by decide))).trans_lt
        (by decide)
    have hadd : add32 file.position 1 = file.position + 1 := by
      have hlen := length_listed_le s
      have hk' := (List.getElem?_eq_some_iff.mp hget).1
      have hmax : maxProcesses = 16 := rfl
      exact Nat.mod_eq_of_lt (by omega)
    dsimp only
    rw [nextEntry_of_some (by rw [hat, hget]; rfl), pidText_eq hlt, if_neg (by simpa using hshort), hadd]

/-- **The directory of a process**: the table has a 0 behind its three entries, and nothing behind that. -/
theorem procfsReaddir_pidDir (hpid : node.type = .pidDir) : procfsReaddir s node file dentry =
    if file.position ≤ 3 then .ok (nextEntry (pidEntries dentry) file) else .error .overrun := by
  rw [procfsReaddir, hpid]
  dsimp only
  by_cases hle : file.position ≤ 3
  · rw [if_pos hle]
    obtain ⟨inode, position, flags⟩ := file
    interval_cases position <;> rfl
  · have hnone : pidFiles[file.position]? = none := List.getElem?_eq_none (Nat.not_le.mp hle)
    rw [if_neg hle, hnone]

end Entries

/-! ## 3. Every position -/

section Positions

variable {C : OpenDir → File → Prop} {d : OpenDir} {ds : List Dentry} {file file' : File} {dentry : Dentry}
  {inode : Nat} {flags : BitVec 32} {r : Int} {out : Option Dentry}

/-- The descriptor stays where it is, or gets a 32-bit position. -/
def Moved (file file' : File) : Prop :=
  file' = file ∨ ∃ base offset, file' = { file with position := add32 base offset }

theorem Moved.lt (h : Moved file file') (hpos : file.position < 2 ^ 32) : file'.position < 2 ^ 32 := by
  rcases h with rfl | ⟨base, offset, rfl⟩
  · exact hpos
  · exact Nat.mod_lt _ (Nat.two_pow_pos 32)

theorem Moved.inode_eq (h : Moved file file') : file'.inode = file.inode := by
  rcases h with rfl | ⟨base, offset, rfl⟩ <;> rfl

theorem seekFrom_moved (size : Nat) (file : File) (offset : BitVec 32) (whence : Int) :
    Moved file (seekFrom size file offset whence).2 := by
  rw [seekFrom]
  split_ifs
  · exact .inr ⟨_, _, rfl⟩
  · exact .inr ⟨_, _, rfl⟩
  · exact .inr ⟨_, _, rfl⟩
  · exact .inl rfl

theorem Store.vfsSeek_eq {k : Store} {n : InodeNode} (h : k.inodes file.inode = some n)
    (offset : BitVec 32) (whence : Int) :
    k.vfsSeek file offset whence = .ok (seekFrom n.size file offset whence) := by
  rw [Store.vfsSeek, seekFrom]
  dsimp only
  split_ifs
  · rfl
  · rfl
  · exact bind_eq_ok.mpr ⟨n, Store.inodeAt_eq h, rfl⟩
  · rfl

/-- **What a seek does**, in any file system. -/
theorem vfsSeek_moved {offset : BitVec 32} {whence : Int}
    (hok : d.vfsSeek file offset whence = .ok (r, file')) : Moved file file' := by
  cases d with
  | shadowfs k =>
    rw [OpenDir.vfsSeek, Store.vfsSeek] at hok
    dsimp only at hok
    split_ifs at hok
    · cases hok
      exact .inr ⟨_, _, rfl⟩
    · cases hok
      exact .inr ⟨_, _, rfl⟩
    · obtain ⟨n, -, hok⟩ := bind_eq_ok.mp hok
      cases hok
      exact .inr ⟨_, _, rfl⟩
    · cases hok
      exact .inl rfl
  | devfs t =>
    obtain rfl := congrArg Prod.snd (Except.ok.inj hok)
    exact seekFrom_moved 0 file offset whence
  | procfs s node =>
    obtain rfl := congrArg Prod.snd (Except.ok.inj hok)
    exact seekFrom_moved 0 file offset whence

/-- A read moves the descriptor by one entry at most. -/
theorem Store.vfsReaddir_moved {k : Store} (hok : k.vfsReaddir file = .ok (r, out, file')) :
    Moved file file' := by
  rw [Store.vfsReaddir] at hok
  obtain ⟨n, -, hok⟩ := bind_eq_ok.mp hok
  split at hok
  · cases hok
    exact .inl rfl
  · obtain ⟨⟨entry, file₁⟩, hread, hok⟩ := bind_eq_ok.mp hok
    cases hok
    rw [Store.shadowfsReaddir] at hread
    obtain ⟨n, -, hread⟩ := bind_eq_ok.mp hread
    obtain ⟨p, -, hread⟩ := bind_eq_ok.mp hread
    obtain ⟨found, -, hread⟩ := bind_eq_ok.mp hread
    cases found with
    | none =>
      cases hread
      exact .inl rfl
    | some entry =>
      obtain ⟨n, -, hread⟩ := bind_eq_ok.mp hread
      cases hread
      exact .inr ⟨_, _, rfl⟩

theorem procfsReaddir_moved {s : Kernel} {node : ProcfsInode}
    (hok : procfsReaddir s node file dentry = .ok (out, file')) : Moved file file' := by
  rw [procfsReaddir] at hok
  dsimp only at hok
  split at hok
  · split_ifs at hok
    · cases hok
      exact .inr ⟨_, _, rfl⟩
    · cases hok
      exact .inr ⟨_, _, rfl⟩
    · split at hok
      · split_ifs at hok
        cases hok
        exact .inr ⟨_, _, rfl⟩
      · cases hok
        exact .inl rfl
  · split at hok
    · cases hok
    · cases hok
      exact .inl rfl
    · cases hok
      exact .inr ⟨_, _, rfl⟩
  · cases hok
    exact .inl rfl

theorem devfsReaddir_moved {t : Devfs} (hok : t.devfsReaddir file = .ok (out, file')) :
    Moved file file' := by
  rw [devfsReaddir_eq, nextEntry] at hok
  split at hok
  · rename_i e hget
    cases hok
    refine .inr ⟨file.position, 1, ?_⟩
    have hlt : file.position < devfsMaxDevices := by
      have hlen := (List.getElem?_eq_some_iff.mp hget).1
      rw [deviceEntries, Devfs.names, List.length_map, List.length_take] at hlen
      exact (hlen.trans_le (Nat.min_le_left _ _)).trans_le t.count_le
    have hmax : devfsMaxDevices < 2 ^ 32 := by decide
    rw [add32, Nat.mod_eq_of_lt (by omega)]
  · cases hok
    exact .inl rfl

/-- **What a read does**, in any file system. -/
theorem vfsReaddir_moved (hok : d.vfsReaddir file dentry = .ok (r, out, file')) : Moved file file' := by
  cases d with
  | shadowfs k => exact Store.vfsReaddir_moved hok
  | devfs t =>
    obtain ⟨⟨out, file₁⟩, hread, hres⟩ := map_eq_ok hok
    cases hres
    exact devfsReaddir_moved hread
  | procfs s node =>
    rw [OpenDir.vfsReaddir] at hok
    split at hok
    · cases hok
      exact .inl rfl
    · obtain ⟨⟨out, file₁⟩, hread, hres⟩ := map_eq_ok hok
      cases hres
      exact procfsReaddir_moved hread

/-- A descriptor keeps its inode, and its position has 32 bits. -/
theorem PositionRun.position (h : PositionRun C inode flags d file) :
    file.inode = inode ∧ file.position < 2 ^ 32 := by
  induction h with
  | start d => exact ⟨rfl, Nat.two_pow_pos 32⟩
  | seek _ hok _ ih =>
    have hmoved := vfsSeek_moved hok
    exact ⟨hmoved.inode_eq.trans ih.1, hmoved.lt ih.2⟩
  | readdir _ hok ih =>
    have hmoved := vfsReaddir_moved hok
    exact ⟨hmoved.inode_eq.trans ih.1, hmoved.lt ih.2⟩
  | other _ _ ih => exact ih

theorem length_pidEntries (dentry : Dentry) : (pidEntries dentry).length = 3 := rfl

/-- Reads do not leave the table: the one at the 0 stays there. -/
theorem procfsReaddir_pidDir_le {s : Kernel} {node : ProcfsInode} (hpid : node.type = .pidDir)
    (hok : procfsReaddir s node file dentry = .ok (out, file')) : file'.position ≤ 3 := by
  rw [procfsReaddir_pidDir hpid] at hok
  split at hok
  · rename_i hle
    rw [nextEntry] at hok
    split at hok
    · rename_i e hget
      cases hok
      exact length_pidEntries dentry ▸ (List.getElem?_eq_some_iff.mp hget).1
    · cases hok
      exact hle
  · cases hok

/-- **If no seek goes past the 0, no position is past it.** -/
theorem PositionRun.le_three (h : PositionRun C inode flags d file)
    (hC : ∀ d file, C d file → d.IsPidDir → file.position ≤ 3) (hpid : d.IsPidDir) : file.position ≤ 3 := by
  induction h with
  | start d => exact Nat.zero_le 3
  | seek _ _ hseek _ => exact hC _ _ hseek hpid
  | @readdir d _ _ _ _ _ _ hok _ =>
    cases d with
    | shadowfs k => exact hpid.elim
    | devfs t => exact hpid.elim
    | procfs s node =>
      rw [OpenDir.vfsReaddir] at hok
      rw [if_neg (by rw [show node.type = .pidDir from hpid]; decide)] at hok
      obtain ⟨⟨out, file₁⟩, hread, hres⟩ := map_eq_ok hok
      cases hres
      exact procfsReaddir_pidDir_le hpid hread
  | other _ hlater ih =>
    cases hlater with
    | shadowfs k k' => exact hpid.elim
    | devfs t t' => exact hpid.elim
    | procfs s s' node => exact ih hpid

/-- What `vfs_readdir` says of what is read. -/
theorem result_nextEntry (ds : List Dentry) (file : File) :
    ((if (nextEntry ds file).1.isSome then 1 else 0, (nextEntry ds file).1, (nextEntry ds file).2) :
      Int × Option Dentry × File) = (if file.position < ds.length then 1 else 0, nextEntry ds file) := by
  simp only [isSome_nextEntry]

/-- **One read**, at any position of 32 bits. -/
theorem OpenDir.Lists.safe_iff (h : d.Lists file.inode dentry ds) (hpos : file.position < 2 ^ 32) :
    ReaddirSafe d file dentry ds ↔ (d.IsPidDir → file.position ≤ 3) := by
  cases h with
  | @shadowfs k rest n es h hdir =>
    refine iff_of_true ?_ fun hpid => hpid.elim
    have hread := h.vfsReaddir hdir file.position file.flags
    rw [ReaddirSafe, OpenDir.vfsReaddir, hread, List.length_map, nextEntry, List.getElem?_map]
    by_cases hlt : file.position < es.length
    · rw [dif_pos hlt, if_pos hlt, List.getElem?_eq_getElem hlt]
      rfl
    · rw [dif_neg hlt, if_neg hlt, List.getElem?_eq_none (Nat.not_lt.mp hlt)]
      rfl
  | devfs t =>
    refine iff_of_true ?_ fun hpid => hpid.elim
    rw [ReaddirSafe, OpenDir.vfsReaddir, devfsReaddir_eq, ← result_nextEntry]
    rfl
  | @procfsRoot s node hroot hfit =>
    refine iff_of_true ?_ fun hpid => absurd (hroot.symm.trans hpid) (by decide)
    rw [ReaddirSafe, OpenDir.vfsReaddir]
    rw [if_neg (by rw [hroot]; decide), procfsReaddir_root hroot hfit hpos, ← result_nextEntry]
    rfl
  | @pidDir s node hpid =>
    have hthree : ((OpenDir.procfs s node).IsPidDir → file.position ≤ 3) ↔ file.position ≤ 3 :=
      forall_prop_of_true hpid
    rw [hthree, ReaddirSafe, OpenDir.vfsReaddir]
    rw [if_neg (by rw [hpid]; decide), procfsReaddir_pidDir hpid]
    split
    · rename_i hle
      refine iff_of_true ?_ hle
      rw [← result_nextEntry]
      rfl
    · rename_i hgt
      exact iff_of_false nofun hgt

/-- **Reading a directory is safe at every position, but for one table.**  Whatever a descriptor has been
through, `vfs_readdir` returns the entry at its position, or 0 at the end and behind it, exactly if the
directory is not that of a process or the position is at most 3.  If no seek goes above 3 in the directory of
a process, that is so after every run. -/
theorem readdir_safe_iff (hrun : PositionRun C inode flags d file) (hlists : d.Lists inode dentry ds) :
    (ReaddirSafe d file dentry ds ↔ (d.IsPidDir → file.position ≤ 3)) ∧
      ((∀ d file, C d file → d.IsPidDir → file.position ≤ 3) → ReaddirSafe d file dentry ds) := by
  obtain ⟨rfl, hpos⟩ := hrun.position
  have hiff := hlists.safe_iff hpos
  exact ⟨hiff, fun hC => hiff.mpr (hrun.le_three hC)⟩

end Positions

/-- The directory of the process 1. -/
def pidOne : OpenDir := .procfs twoQueued ⟨.pidDir, 1, [0x31]⟩

/-- The entry `memory`, after one read. -/
theorem readdir_safe_memory : ∃ file, PositionRun (fun _ file => file.position ≤ 3) 0 0 pidOne file ∧
    ReaddirSafe pidOne file ⟨[], 0, .file⟩ (pidEntries ⟨[], 0, .file⟩) := by
  have hrun : PositionRun (fun _ file => file.position ≤ 3) 0 0 pidOne ⟨0, 1, 0⟩ :=
    @PositionRun.readdir _ _ _ _ _ _ ⟨[], 0, .file⟩ _ _ (.start pidOne) rfl
  exact ⟨_, hrun, (readdir_safe_iff hrun (.pidDir rfl)).2 fun _ _ hC _ => hC⟩

/-- **Past the table**: after a seek to 4, `procfs_readdir` reads `pid_files[4]`. -/
theorem seek_past_pid_files : ∃ file, PositionRun (fun _ _ => True) 0 0 pidOne file ∧ file.position = 4 ∧
    pidOne.Lists 0 ⟨[], 0, .file⟩ (pidEntries ⟨[], 0, .file⟩) ∧
    pidOne.vfsReaddir file ⟨[], 0, .file⟩ = .error .overrun ∧
    ¬ ReaddirSafe pidOne file ⟨[], 0, .file⟩ (pidEntries ⟨[], 0, .file⟩) := by
  have hrun : PositionRun (fun _ _ => True) 0 0 pidOne ⟨0, 4, 0⟩ :=
    @PositionRun.seek _ _ _ _ _ _ 4 0 _ (.start pidOne) rfl trivial
  exact ⟨_, hrun, rfl, .pidDir rfl, rfl, nofun⟩

end AcornOS
