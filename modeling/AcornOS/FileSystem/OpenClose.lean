/-
# Opening and closing, over all three file systems

What `vfs_open` and `vfs_close` leave on the kernel heap.

* shadowFS keeps its inodes in a tree, and a lookup finds one.  `devfs_lookup` and `procfs_lookup` MAKE
  one, of two blocks, every time; `vfs_close` frees the `file_t` and nothing else.
* So a pair of calls leaves two blocks behind for every component that was looked up in a devFS or a
  procFS (`lookups`), and nothing if none was.
* The flags are those that ask for no creation and no truncation (`PlainFlags`).
-/
import AcornOS.FileSystem.Cursors
import AcornOS.Memory.Mem

namespace AcornOS

open Lib Relation
open scoped List

/-! ## 1. devFS and procFS -/

/-- `procfs_inode_type_t` -/
inductive ProcfsInodeType where
  | root
  | pidDir
  | pidFile
  | infoFile
deriving Repr, DecidableEq

/-- `procfs_inode_t` -/
structure ProcfsInode where
  type : ProcfsInodeType
  pid : Nat
  name : CString
deriving Repr, DecidableEq

/-- `devfs_inode_t`: the place of the device in the table, and `none` for the root. -/
structure DevfsInode where
  device : Option Nat
deriving Repr, DecidableEq

/-- The private data of an inode that is not in a shadowFS. -/
inductive NodeData where
  | devfs (d : DevfsInode)
  | procfs (p : ProcfsInode)
deriving Repr, DecidableEq

/-- The file systems and the heap.  `nodes` are the inodes of devFS and procFS by their addresses,
`fileAddr` the addresses of the `file_t`s, `devices` the names in `device_table`, and `pids` the
processes in `process_table`. -/
structure Vfs where
  fs : FileSystem
  nodes : Nat → Option NodeData
  heap : KHeap
  fileAddr : Nat → Nat
  devices : List CString
  pids : List Nat

/-- `sizeof` of `devfs_inode_t`, `procfs_inode_t` and `file_t`. -/
def sizeofDevfsInode : Nat := 8
def sizeofProcfsInode : Nat := 24
def sizeofFile : Nat := 32

namespace Vfs

variable (v : Vfs)

/-- `kmalloc` in the kernel that `v` is part of. -/
def kmalloc (size : Nat) : Except Fault (Nat × Vfs) :=
  match AcornOS.kmalloc v.heap size with
  | .error e => .error (.halted e)
  | .ok (p, heap) => .ok (p, { v with heap := heap })

/-- `kfree` in the kernel that `v` is part of. -/
def kfree (p : Nat) : Except Fault Vfs :=
  match AcornOS.kfree v.heap p with
  | .error e => .error (.halted e)
  | .ok heap => .ok { v with heap := heap }

/-- `devfs_create_inode` and `procfs_create_inode`: a block for the inode and one for its private data. -/
def createInode (size : Nat) (node : NodeData) : Except Fault (Nat × Vfs) := do
  let (inode, v) ← v.kmalloc sizeofInode
  let (_, v) ← v.kmalloc size
  .ok (inode, { v with nodes := Function.update v.nodes inode (some node) })

def devfsCreateInode (d : DevfsInode) : Except Fault (Option Nat × Vfs) :=
  (v.createInode sizeofDevfsInode (.devfs d)).map (Prod.map some id)

def procfsCreateInode (p : ProcfsInode) : Except Fault (Option Nat × Vfs) :=
  (v.createInode sizeofProcfsInode (.procfs p)).map (Prod.map some id)

/-- `devfs_lookup` -/
def devfsLookup (name : CString) : Except Fault (Option Nat × Vfs) :=
  match v.devices.findIdx? (· = name) with
  | none => .ok (none, v)
  | some i => v.devfsCreateInode ⟨some i⟩

/-- The names of the files of a procFS. -/
def meminfo : CString := [0x6D, 0x65, 0x6D, 0x69, 0x6E, 0x66, 0x6F]
def mounts : CString := [0x6D, 0x6F, 0x75, 0x6E, 0x74, 0x73]
def status : CString := [0x73, 0x74, 0x61, 0x74, 0x75, 0x73]
def memory : CString := [0x6D, 0x65, 0x6D, 0x6F, 0x72, 0x79]
def files : CString := [0x66, 0x69, 0x6C, 0x65, 0x73]

/-- The number that a name of digits stands for; the empty name stands for 0. -/
def parsePid (name : CString) : Option Nat :=
  if name.all fun c => 0x30 ≤ c && c ≤ 0x39 then
    some (name.foldl (fun pid c => (pid * 10 + (c.toNat - 0x30)) % 2 ^ 64) 0)
  else none

/-- `procfs_lookup` -/
def procfsLookup (dir : ProcfsInode) (name : CString) : Except Fault (Option Nat × Vfs) :=
  match dir.type with
  | .root =>
    if name = meminfo then v.procfsCreateInode ⟨.infoFile, 0, meminfo⟩
    else if name = mounts then v.procfsCreateInode ⟨.infoFile, 0, mounts⟩
    else
      match parsePid name with
      | none => .ok (none, v)
      | some pid =>
        if pid ∈ v.pids then v.procfsCreateInode ⟨.pidDir, pid, name⟩ else .ok (none, v)
  | .pidDir =>
    if name = status then v.procfsCreateInode ⟨.pidFile, dir.pid, status⟩
    else if name = memory then v.procfsCreateInode ⟨.pidFile, dir.pid, memory⟩
    else if name = files then v.procfsCreateInode ⟨.pidFile, dir.pid, files⟩
    else .ok (none, v)
  | .pidFile => .ok (none, v)
  | .infoFile => .ok (none, v)

/-- `current->ops->lookup` -/
def lookup (dir : Nat) (name : CString) : Except Fault (Option Nat × Vfs) :=
  match v.nodes dir with
  | some (.devfs _) => v.devfsLookup name
  | some (.procfs p) => v.procfsLookup p name
  | none => (shadowfsLookup v.fs dir name).map (·, v)

/-- `vfs_resolve_path` -/
def resolvePath (path : CString) : Except Fault (Option Nat × Vfs) :=
  match vfsFindMount v.fs path with
  | none => .ok (none, v)
  | some i => resolveIn lookup (v.fs.mountPoint i) (v.fs.mountTable i).root path v

/-- `inode->size`, which is 0 outside shadowFS. -/
def inodeSize (a : Nat) : Except Fault Nat :=
  match v.nodes a with
  | some _ => .ok 0
  | none => (v.fs.deref a).map Inode.size

end Vfs

/-! ## 2. `vfs_open` and `vfs_close` -/

/-- Flags without `O_CREAT` and `O_TRUNC`. -/
structure PlainFlags where
  flags : BitVec 32
  creat : ¬ Sets flags oCreat
  trunc : ¬ Sets flags oTrunc

namespace Vfs

variable (v : Vfs)

/-- `vfs_open`, with flags that leave out its steps 2 and 5.  The `open` of each file system does
nothing. -/
def vfsOpen (path : CString) (flags : PlainFlags) : Except Fault (Int × Vfs) := do
  let (inode, v) ← v.resolvePath path
  match inode with
  | none => .ok (-1, v)
  | some inode => do
    let (file, v) ← v.kmalloc sizeofFile
    let size ← v.inodeSize inode
    let position := if Sets flags.flags oAppend then size else 0
    match v.fs.freeFd with
    | none => (v.kfree file).map fun v => (-1, v)
    | some fd => .ok (fd, { v with
        fs := v.fs.setFile fd (some ⟨inode, position, flags.flags⟩)
        fileAddr := Function.update v.fileAddr fd file })

/-- `vfs_close`.  The `close` of each file system does nothing. -/
def vfsClose (fd : Int) : Except Fault (Int × Vfs) :=
  match vfsGetFile v.fs fd with
  | none => .ok (-1, v)
  | some file => do
    -- file->inode->ops
    let _ ← v.inodeSize file.inode
    let v ← v.kfree (v.fileAddr fd.toNat)
    .ok (0, { v with fs := v.fs.setFile fd.toNat none })

end Vfs

/-! ## 3. What a lookup leaves on the heap -/

/-- The file systems are as they were, and `k` more blocks are in use. -/
structure Vfs.Grows (v v' : Vfs) (k : Nat) : Prop where
  fs : v'.fs = v.fs
  heap : ∀ bs, Rep v.heap bs → ∃ bs' extra, Rep v'.heap bs' ∧ extra.length = k ∧
    inUse headerSize heapStart bs' ~ extra ++ inUse headerSize heapStart bs

namespace Vfs

section Lookups

variable {v v' v'' : Vfs} {a b dir k l size : Nat} {name path : CString} {node : NodeData}

theorem Grows.refl (v : Vfs) : Grows v v 0 := ⟨rfl, fun bs h => ⟨bs, [], h, rfl, .refl _⟩⟩

theorem Grows.trans (h : Grows v v' k) (h' : Grows v' v'' l) : Grows v v'' (k + l) := by
  refine ⟨h'.fs.trans h.fs, fun bs hrep => ?_⟩
  obtain ⟨bs', extra, hrep', hlen, hperm⟩ := h.heap bs hrep
  obtain ⟨bs'', extra', hrep'', hlen', hperm'⟩ := h'.heap bs' hrep'
  refine ⟨bs'', extra' ++ extra, hrep'', ?_, ?_⟩
  · rw [List.length_append, hlen, hlen', Nat.add_comm]
  · rw [List.append_assoc]
    exact hperm'.trans (hperm.append_left extra')

theorem kmalloc_grows (h : v.kmalloc size = .ok (a, v')) :
    Grows v v' 1 ∧ v'.nodes = v.nodes ∧ v'.fileAddr = v.fileAddr ∧ ∃ heap,
      AcornOS.kmalloc v.heap size = .ok (a, heap) ∧ v' = { v with heap := heap } := by
  unfold kmalloc at h
  split at h
  · cases h
  · rename_i p heap hok
    cases h
    refine ⟨⟨rfl, fun bs hrep => ?_⟩, rfl, rfl, heap, hok, rfl⟩
    obtain ⟨bs', x, n, hrep', -, -, hperm⟩ := (kmalloc_spec hrep).of_ok hok
    exact ⟨bs', [(x, n)], hrep', rfl, hperm⟩

/-- **A new inode** is two blocks. -/
theorem createInode_grows (h : v.createInode size node = .ok (a, v')) :
    Grows v v' 2 ∧ v'.nodes a = some node := by
  unfold createInode at h
  obtain ⟨⟨b, v₁⟩, h₁, h⟩ := bind_eq_ok.mp h
  obtain ⟨⟨c, v₂⟩, h₂, h⟩ := bind_eq_ok.mp h
  cases h
  have hgrows := (kmalloc_grows h₁).1.trans (kmalloc_grows h₂).1
  exact ⟨⟨hgrows.fs, hgrows.heap⟩, Function.update_self ..⟩

/-- **A lookup in devFS or procFS** that finds something has made it. -/
theorem lookup_node_grows (hnode : v.nodes dir = some node) (h : v.lookup dir name = .ok (some a, v')) :
    Grows v v' 2 ∧ v'.nodes a ≠ none := by
  have hcreate : ∀ {size : Nat} {node : NodeData},
      (v.createInode size node).map (Prod.map some id) = .ok (some a, v') →
      Grows v v' 2 ∧ v'.nodes a ≠ none := by
    intro size node hmap
    obtain ⟨⟨b, v₁⟩, h₁, heq⟩ := map_eq_ok hmap
    cases heq
    obtain ⟨hgrows, hnew⟩ := createInode_grows h₁
    exact ⟨hgrows, fun hnone => nomatch hnew.symm.trans hnone⟩
  unfold lookup at h
  rw [hnode] at h
  cases node with
  | devfs d =>
    simp only [devfsLookup] at h
    split at h
    · cases h
    · exact hcreate h
  | procfs p =>
    simp only [procfsLookup] at h
    repeat' split at h
    all_goals first | exact hcreate h | cases h

/-- **A walk in devFS or procFS** leaves two blocks for each component. -/
theorem walk_node_grows : ∀ (names : List CString) {dir : Nat} {v : Vfs}, v.nodes dir ≠ none →
    walkPath lookup names dir v = .ok (some a, v') → Grows v v' (2 * names.length)
  | [], _, v, _, h => by
    cases h
    exact Grows.refl _
  | name :: names, dir, v, hnode, h => by
    rw [walkPath] at h
    split at h
    · cases h
    obtain ⟨node, hnode⟩ := Option.ne_none_iff_exists'.mp hnode
    obtain ⟨⟨next, v₁⟩, h₁, h⟩ := bind_eq_ok.mp h
    cases next with
    | none => cases h
    | some b =>
      obtain ⟨hgrows, hb⟩ := lookup_node_grows hnode h₁
      rw [List.length_cons, Nat.mul_add, Nat.add_comm]
      exact hgrows.trans (walk_node_grows names hb h)

/-- The names that are looked up in devFS or procFS when the path is followed. -/
def lookups (v : Vfs) (path : CString) : List CString :=
  match vfsFindMount v.fs path with
  | none => []
  | some i =>
    if v.nodes (v.fs.mountTable i).root = none ∨ path = v.fs.mountPoint i ∨ path = [slash] then []
    else components (belowMount (v.fs.mountPoint i) path)

/-- Roots and entries lead to inodes, those of shadowFS are not those of the others, and the heap is a
heap. -/
structure Ok (v : Vfs) : Prop where
  roots : ∀ i, (v.fs.mountTable i).root ≠ 0 → v.nodes (v.fs.mountTable i).root = none →
    v.fs.inodes (v.fs.mountTable i).root ≠ none
  entries : ∀ d, ∀ e ∈ v.fs.entriesOf d, v.fs.inodes e.inode ≠ none
  apart : ∀ a, v.fs.inodes a ≠ none → v.nodes a = none
  heap : ∃ bs, Rep v.heap bs

/-- **A walk in shadowFS** changes nothing, and goes by the tree alone. -/
theorem walk_shadow (hv : v.Ok) {w : Vfs} (hfs : w.fs = v.fs) (hnodes : w.nodes = v.nodes) :
    ∀ (names : List CString) {dir : Nat}, v.fs.inodes dir ≠ none →
      walkPath lookup names dir v = .ok (some a, v') →
      v' = v ∧ walkPath lookup names dir w = .ok (some a, w)
  | [], _, _, h => by
    cases h
    exact ⟨rfl, rfl⟩
  | name :: names, dir, hdir, h => by
    rw [walkPath] at h ⊢
    split at h
    · cases h
    rename_i hlen
    obtain ⟨⟨next, v₁⟩, h₁, h⟩ := bind_eq_ok.mp h
    rw [if_neg hlen]
    unfold lookup at h₁
    rw [hv.apart dir hdir] at h₁
    obtain ⟨found, hfound, heq⟩ := map_eq_ok h₁
    cases heq
    have hlook : w.lookup dir name = .ok (next, w) := by
      rw [lookup, hnodes, hv.apart dir hdir, hfs]
      simp only [hfound, Except.map]
    cases next with
    | none => cases h
    | some b =>
      have hb : v.fs.inodes b ≠ none := by
        have hname := (FileSystem.shadowfsLookup_spec hdir).of_ok hfound
        obtain ⟨e, he, rfl⟩ := Option.map_eq_some_iff.mp hname.symm
        exact hv.entries dir e (List.mem_of_find?_eq_some he)
      obtain ⟨rfl, hw⟩ := walk_shadow hv hfs hnodes names hb h
      refine ⟨rfl, ?_⟩
      rw [hlook]
      exact hw

/-- **Following a path** leaves two blocks for each name looked up in devFS or procFS.  If there is none,
it changes nothing and goes by the trees alone. -/
theorem resolvePath_grows (hv : v.Ok) (h : v.resolvePath path = .ok (some a, v')) :
    Grows v v' (2 * (v.lookups path).length) ∧
      (v.lookups path = [] → v' = v ∧ ∀ w : Vfs, w.fs = v.fs → w.nodes = v.nodes →
        w.resolvePath path = .ok (some a, w)) := by
  unfold resolvePath at h
  unfold lookups
  cases hi : vfsFindMount v.fs path with
  | none =>
    rw [hi] at h
    cases h
  | some i =>
    rw [hi] at h
    simp only [resolveIn] at h
    have hw : ∀ w : Vfs, w.fs = v.fs → w.resolvePath path = resolveIn lookup (v.fs.mountPoint i)
        (v.fs.mountTable i).root path w := by
      intro w hfs
      simp only [resolvePath, hfs, hi]
    simp only
    split at h
    · cases h
    rename_i hroot
    have hlive := hv.roots i hroot
    split at h
    · rename_i hpoint
      cases h
      rw [if_pos (Or.inr (Or.inl hpoint))]
      refine ⟨Grows.refl _, fun _ => ⟨rfl, fun w hfs _ => ?_⟩⟩
      rw [hw w hfs, resolveIn, if_neg hroot, if_pos hpoint]
    rename_i hpoint
    split at h
    · rename_i hslash
      cases h
      rw [if_pos (Or.inr (Or.inr hslash))]
      refine ⟨Grows.refl _, fun _ => ⟨rfl, fun w hfs _ => ?_⟩⟩
      rw [hw w hfs, resolveIn, if_neg hroot, if_neg hpoint, if_pos hslash]
    rename_i hslash
    have hw' : ∀ w : Vfs, w.fs = v.fs → w.resolvePath path = walkPath lookup
        (components (belowMount (v.fs.mountPoint i) path)) (v.fs.mountTable i).root w := by
      intro w hfs
      rw [hw w hfs, resolveIn, if_neg hroot, if_neg hpoint, if_neg hslash]
    cases hnode : v.nodes (v.fs.mountTable i).root with
    | none =>
      rw [if_pos (Or.inl rfl)]
      obtain ⟨rfl, -⟩ := walk_shadow hv rfl rfl _ (hlive hnode) h
      refine ⟨Grows.refl _, fun _ => ⟨rfl, fun w hfs hnodes => ?_⟩⟩
      rw [hw' w hfs]
      exact (walk_shadow hv hfs hnodes _ (hlive hnode) h).2
    | some node =>
      rw [if_neg (by simp [hpoint, hslash])]
      refine ⟨walk_node_grows _ (by simp [hnode]) h, fun hnil => ?_⟩
      rw [hnil] at h hw'
      cases h
      refine ⟨rfl, fun w hfs _ => ?_⟩
      rw [hw' w hfs]
      rfl

end Lookups

/-! ## 4. A pair of calls -/

section Pairs

variable {v v₁ w : Vfs} {path : CString} {flags : PlainFlags} {fd : Int} {bs : List Block} {a : Nat}

/-- What `vfs_open` has done when it returns a descriptor. -/
theorem vfsOpen_cases (h : v.vfsOpen path flags = .ok (fd, v₁)) (hfd : 0 ≤ fd) :
    ∃ (a : Nat) (v' : Vfs) (p : Nat) (heap : KHeap) (size position i : Nat),
      v.resolvePath path = .ok (some a, v') ∧ AcornOS.kmalloc v'.heap sizeofFile = .ok (p, heap) ∧
      v'.inodeSize a = .ok size ∧ v'.fs.freeFd = some i ∧ fd = i ∧
      position = (if Sets flags.flags oAppend then size else 0) ∧ v₁ = { v' with
        heap := heap
        fs := v'.fs.setFile i (some ⟨a, position, flags.flags⟩)
        fileAddr := Function.update v'.fileAddr i p } := by
  unfold vfsOpen at h
  obtain ⟨⟨inode, v'⟩, hres, h⟩ := bind_eq_ok.mp h
  cases inode with
  | none =>
    cases h
    omega
  | some a =>
    obtain ⟨⟨p, v''⟩, hmalloc, h⟩ := bind_eq_ok.mp h
    obtain ⟨-, -, -, heap, hok, rfl⟩ := kmalloc_grows hmalloc
    obtain ⟨size, hsize, h⟩ := bind_eq_ok.mp h
    simp only at h
    cases hfree : v'.fs.freeFd with
    | none =>
      rw [hfree] at h
      obtain ⟨v₂, -, heq⟩ := map_eq_ok h
      cases heq
      omega
    | some i =>
      rw [hfree] at h
      cases h
      exact ⟨a, v', p, heap, size, _, i, hres, hok, hsize, hfree, rfl, rfl, rfl⟩

theorem setFile_unset {fs : FileSystem} {i : Nat} {g : File} (h : fs.fileTable i = none) :
    (fs.setFile i (some g)).setFile i none = fs := by
  simp only [FileSystem.setFile, Function.update_idem, ← h, Function.update_eq_self]

/-- **A pair of calls** leaves two blocks for each name looked up in devFS or procFS. -/
theorem open_close (hv : v.Ok) (hrep : Rep v.heap bs) (h : v.vfsOpen path flags = .ok (fd, v₁))
    (hfd : 0 ≤ fd) : ∃ v₂ bs₂ extra, v₁.vfsClose fd = .ok (0, v₂) ∧ Rep v₂.heap bs₂ ∧
      extra.length = 2 * (v.lookups path).length ∧
      inUse headerSize heapStart bs₂ ~ extra ++ inUse headerSize heapStart bs ∧
      (v.lookups path = [] → v₂.fs = v.fs ∧ v₂.nodes = v.nodes) := by
  obtain ⟨a, v', p, heap, size, position, i, hres, hok, hsize, hfree, rfl, -, rfl⟩ :=
    vfsOpen_cases h hfd
  obtain ⟨hgrows, hsame⟩ := resolvePath_grows hv hres
  obtain ⟨bs', extra, hrep', hlen, hperm⟩ := hgrows.heap bs hrep
  obtain ⟨bs₁, x, n, hrep₁, hp, -, hperm₁⟩ := (kmalloc_spec hrep').of_ok hok
  simp only at hrep₁ hp
  subst hp
  obtain ⟨heap₂, bs₂, hkfree, hrep₂, hperm₂⟩ :=
    kfree_spec hrep₁ (hperm₁.mem_iff.mpr List.mem_cons_self)
  obtain ⟨-, hmax, hnone⟩ := FileSystem.freeFd_eq_some hfree
  have hperm' : inUse headerSize heapStart bs₂ ~ inUse headerSize heapStart bs' :=
    ((hperm₂.symm.trans hperm₁).cons_inv)
  refine ⟨{ v' with heap := heap₂, fileAddr := Function.update v'.fileAddr i (x + headerSize) }, bs₂, extra,
    ?_, hrep₂, hlen, hperm'.trans hperm, fun hnil => ?_⟩
  · have hget : vfsGetFile (v'.fs.setFile i (some ⟨a, position, flags.flags⟩)) i =
        some ⟨a, position, flags.flags⟩ := by
      rw [vfsGetFile, if_neg (by omega), Int.toNat_natCast, FileSystem.fileTable_setFile_self]
    have hinode : inodeSize { v' with
        heap := heap
        fs := v'.fs.setFile i (some ⟨a, position, flags.flags⟩)
        fileAddr := Function.update v'.fileAddr i (x + headerSize) } a = .ok size := hsize
    unfold vfsClose
    simp only [hget, hinode, bind, Except.bind, Int.toNat_natCast, kfree, Function.update_self,
      hkfree, setFile_unset hnone]
  · obtain ⟨rfl, -⟩ := hsame hnil
    exact ⟨rfl, rfl⟩

/-- A descriptor is had again, as long as the file systems and the blocks of the heap are the same. -/
theorem vfsOpen_again (hv : v.Ok) (hrep : Rep v.heap bs) (h : v.vfsOpen path flags = .ok (fd, v₁))
    (hfd : 0 ≤ fd) (hnil : v.lookups path = []) (hfs : w.fs = v.fs) (hnodes : w.nodes = v.nodes)
    (hrep' : Rep w.heap bs) : ∃ w₁, w.vfsOpen path flags = .ok (fd, w₁) := by
  obtain ⟨a, v', p, heap, size, position, i, hres, hok, hsize, hfree, rfl, -, -⟩ := vfsOpen_cases h hfd
  obtain ⟨rfl, hagain⟩ := (resolvePath_grows hv hres).2 hnil
  obtain ⟨⟨q, heap'⟩, hok'⟩ := hrep.kmalloc_ok hrep' hok
  have hsize' : inodeSize { w with heap := heap' } a = .ok size := by
    rw [← hsize]
    simp only [inodeSize, hfs, hnodes]
  have hfree' : w.fs.freeFd = some i := hfs ▸ hfree
  unfold vfsOpen
  simp only [hagain w hfs hnodes, bind, Except.bind, kmalloc, hok', hsize', hfree']
  exact ⟨_, rfl⟩

end Pairs

/-- A block that is left behind was not in use before. -/
theorem exists_left_behind {bs bs₂ : List Block} {extra : List (Nat × Nat)}
    (hperm : inUse headerSize heapStart bs₂ ~ extra ++ inUse headerSize heapStart bs)
    (hne : extra ≠ []) : ∃ p, (∃ n, DataRegion headerSize heapStart bs₂ p n) ∧
      ¬ ∃ n, DataRegion headerSize heapStart bs p n := by
  obtain ⟨⟨x, n⟩, ys, rfl⟩ := List.exists_cons_of_ne_nil hne
  have hnodup := (hperm.map Prod.fst).nodup_iff.mp (inUse_nodup headerSize_pos heapStart bs₂)
  have hnew : (x, n) ∈ inUse headerSize heapStart bs₂ := hperm.mem_iff.mpr (by simp)
  refine ⟨x + headerSize, ⟨n, x, hnew, rfl⟩, ?_⟩
  rintro ⟨m, z, hz, hzx⟩
  obtain rfl : x = z := by omega
  have hmem : x ∈ (ys ++ inUse headerSize heapStart bs).map Prod.fst :=
    List.mem_map.mpr ⟨(x, m), List.mem_append_right ys hz, rfl⟩
  exact absurd hmem (List.nodup_cons.mp hnodup).1

/-- `n` pairs of calls. -/
def openCloseTimes (path : CString) (flags : PlainFlags) : Nat → Vfs → Except Fault Vfs
  | 0, v => .ok v
  | n + 1, v => do
    let (fd, v) ← v.vfsOpen path flags
    let (_, v) ← v.vfsClose fd
    openCloseTimes path flags n v

theorem openCloseTimes_ok {v v₁ : Vfs} {path : CString} {flags : PlainFlags} {fd : Int} {bs : List Block}
    (hv : v.Ok) (hrep : Rep v.heap bs) (h : v.vfsOpen path flags = .ok (fd, v₁)) (hfd : 0 ≤ fd)
    (hnil : v.lookups path = []) : ∀ (n : Nat) {w : Vfs}, w.fs = v.fs → w.nodes = v.nodes →
      Rep w.heap bs → ∃ w', openCloseTimes path flags n w = .ok w' ∧ Rep w'.heap bs
  | 0, w, _, _, hrepw => ⟨w, rfl, hrepw⟩
  | n + 1, w, hfs, hnodes, hrepw => by
    obtain ⟨w₁, hopen⟩ := vfsOpen_again hv hrep h hfd hnil hfs hnodes hrepw
    have hw : w.Ok := by
      refine ⟨?_, ?_, ?_, bs, hrepw⟩
      · rw [hfs, hnodes]
        exact hv.roots
      · rw [hfs]
        exact hv.entries
      · rw [hfs, hnodes]
        exact hv.apart
    have hnilw : w.lookups path = [] := by
      rw [lookups, hfs, hnodes]
      exact hnil
    obtain ⟨w₂, bs₂, extra, hclose, hrep₂, hlen, hperm, hsame⟩ := open_close hw hrepw hopen hfd
    rw [hnilw, List.length_nil, Nat.mul_zero, List.length_eq_zero_iff] at hlen
    subst hlen
    obtain rfl := hrepw.unique hrep₂ hperm
    obtain ⟨hfs₂, hnodes₂⟩ := hsame hnilw
    obtain ⟨w', hrest, hrep'⟩ := openCloseTimes_ok hv hrep h hfd hnil n (hfs₂.trans hfs)
      (hnodes₂.trans hnodes) hrep₂
    refine ⟨w', ?_, hrep'⟩
    simp only [openCloseTimes, hopen, hclose, bind, Except.bind, hrest]


/-- **Opening and closing leaves nothing behind exactly if nothing is looked up in devFS or procFS**: if
the path leads into a shadowFS, or to the root of its mount.  Then the blocks of the heap are those there
were, and any number of such pairs can follow. -/
theorem open_close_restores_iff (v v₁ : Vfs) (hv : v.Ok) (bs : List Block) (hrep : Rep v.heap bs)
    (path : CString) (flags : PlainFlags) (fd : Int) (hopen : v.vfsOpen path flags = .ok (fd, v₁))
    (hfd : 0 ≤ fd) : ∃ v₂ bs₂, v₁.vfsClose fd = .ok (0, v₂) ∧ Rep v₂.heap bs₂ ∧
      ((∀ p, (∃ n, DataRegion headerSize heapStart bs₂ p n) ↔
        ∃ n, DataRegion headerSize heapStart bs p n) ↔ v.lookups path = []) ∧
      (v.lookups path = [] → bs₂ = bs ∧ v₂.heap.heapUsed = v.heap.heapUsed ∧
        ∀ n, ∃ w, openCloseTimes path flags n v = .ok w ∧ Rep w.heap bs) := by
  obtain ⟨v₂, bs₂, extra, hclose, hrep₂, hlen, hperm, hsame⟩ := open_close hv hrep hopen hfd
  have hback : v.lookups path = [] → bs₂ = bs := by
    intro hnil
    rw [hnil, List.length_nil, Nat.mul_zero, List.length_eq_zero_iff] at hlen
    subst hlen
    exact hrep.unique hrep₂ hperm
  refine ⟨v₂, bs₂, hclose, hrep₂, ⟨fun hsameLive => ?_, fun hnil p => ?_⟩, fun hnil => ⟨hback hnil, ?_, ?_⟩⟩
  · cases hextra : extra with
    | nil =>
      rw [hextra, List.length_nil] at hlen
      exact List.length_eq_zero_iff.mp (by omega)
    | cons y ys =>
      obtain ⟨p, hlive, hnew⟩ := exists_left_behind hperm (by simp [hextra])
      exact absurd ((hsameLive p).mp hlive) hnew
  · rw [hback hnil]
  · rw [hrep₂.used, hrep.used, hback hnil]
  · exact fun n => openCloseTimes_ok hv hrep hopen hfd hnil n rfl rfl hrep

/-- A new heap, a shadowFS at `/temp` and nothing else. -/
def tempVfs : Vfs where
  fs := tempFs
  nodes _ := none
  heap := memInit fun _ => ⟨0, false, 0⟩
  fileAddr _ := 0
  devices := []
  pids := []

theorem tempVfs_ok : tempVfs.Ok where
  roots _ hroot _ := (tempFs_reached (fun _ _ => True) trivial).ok.root_live hroot
  entries := (tempFs_reached (fun _ _ => True) trivial).ok.live
  apart _ _ := rfl
  heap := ⟨_, memInit_rep _⟩

/-- `O_RDONLY` -/
def readOnly : PlainFlags := ⟨oRdonly, by decide, by decide⟩

/-- `/temp` is opened and closed, and the heap is one free block again. -/
theorem open_close_restores_temp : ∃ v₁ v₂, tempVfs.vfsOpen tempPath readOnly = .ok (3, v₁) ∧
    v₁.vfsClose 3 = .ok (0, v₂) ∧ Rep v₂.heap [⟨heapSize - headerSize, true⟩] := by
  have hfd : (tempVfs.vfsOpen tempPath readOnly).map Prod.fst = .ok 3 := by decide +kernel
  obtain ⟨⟨fd, v₁⟩, hopen, rfl⟩ := map_eq_ok hfd
  obtain ⟨v₂, bs₂, hclose, hrep, -, hback⟩ := open_close_restores_iff tempVfs v₁ tempVfs_ok _
    (memInit_rep _) tempPath readOnly 3 hopen (by decide)
  have hnil : tempVfs.lookups tempPath = [] := by decide +kernel
  exact ⟨v₁, v₂, hopen, hclose, (hback hnil).1 ▸ hrep⟩

/-- `/devices` and `/devices/null` -/
def devicesPath : CString := [0x2F, 0x64, 0x65, 0x76, 0x69, 0x63, 0x65, 0x73]
def nullPath : CString := devicesPath ++ [0x2F, 0x6E, 0x75, 0x6C, 0x6C]

/-- A new heap, and a devFS at `/devices` with the device `null`. -/
def devVfs : Vfs where
  fs := { FileSystem.vfsInit with
    mountTable := fun _ => ⟨devicesPath, 0x1000, ⟨0, 0, 0⟩⟩
    mountCount := 1 }
  nodes := Function.update (fun _ => none) 0x1000 (some (.devfs ⟨none⟩))
  heap := memInit fun _ => ⟨0, false, 0⟩
  fileAddr _ := 0
  devices := [[0x6E, 0x75, 0x6C, 0x6C]]
  pids := []

/-- `/devices/null` is opened and closed: a block is in use that was not. -/
theorem device_inode_left_behind : ∃ v₁ v₂ bs₂, devVfs.Ok ∧
    Rep devVfs.heap [⟨heapSize - headerSize, true⟩] ∧
    devVfs.vfsOpen nullPath readOnly = .ok (3, v₁) ∧
    v₁.vfsClose 3 = .ok (0, v₂) ∧ Rep v₂.heap bs₂ ∧
    ∃ p, (∃ n, DataRegion headerSize heapStart bs₂ p n) ∧
      ¬ ∃ n, DataRegion headerSize heapStart [⟨heapSize - headerSize, true⟩] p n := by
  have hok : devVfs.Ok := by
    refine ⟨fun i _ hnone => ?_, nofun, fun a ha => absurd rfl ha, _, memInit_rep _⟩
    have hroot : devVfs.nodes (devVfs.fs.mountTable i).root = some (.devfs ⟨none⟩) := by
      simp [devVfs]
    cases hroot.symm.trans hnone
  have hfd : (devVfs.vfsOpen nullPath readOnly).map Prod.fst = .ok 3 := by
    decide +kernel
  obtain ⟨⟨fd, v₁⟩, hopen, rfl⟩ := map_eq_ok hfd
  obtain ⟨v₂, bs₂, extra, hclose, hrep, hlen, hperm, -⟩ := open_close hok (memInit_rep _) hopen (by decide)
  have hnames : devVfs.lookups nullPath = [[0x6E, 0x75, 0x6C, 0x6C]] := by decide +kernel
  refine ⟨v₁, v₂, bs₂, hok, memInit_rep _, hopen, hclose, hrep, exists_left_behind hperm ?_⟩
  rintro rfl
  rw [hnames] at hlen
  cases hlen

end Vfs

end AcornOS
