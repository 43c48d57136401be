/-
# shadowFS in memory (`file_system/shadowfs/shadowfs.c`)

`ShadowFs.lean` has a directory as a list of entries and a file as a list of blocks.  In the source both
are nodes on the kernel heap, chained by their `next` pointers, and the bytes of a block are a page of
its own.  `Store` is that: inodes, private data, entries and blocks by their addresses, over the heap of
`Memory/Mem.lean` and the page allocator.

The functions below are those of the source, loop by loop and pointer by pointer.

* **The union** in `shadowfs_inode_t` needs no tag.  Both of its views are a pointer and a counter, so
  they are one structure here; what a pointer of the wrong kind leads to is found missing.
* **Loops** along a chain may not end.  The heap has no room for `heapFuel` objects, so a walk of that
  many steps has met a node twice.
* **Freed memory** holds nothing (`Store.kfree`), and following a pointer to it is the fault `freed`.
-/
import AcornOS.Core.ElfImage
import AcornOS.FileSystem.ShadowFs
import AcornOS.Lib.Linked
import AcornOS.Memory.Objects

namespace AcornOS

open Lib

/-! ## 1. The objects -/

/-- `sizeof(shadowfs_inode_t)` -/
def sizeofShadowfsInode : Nat := 16

/-- `inode_t` -/
structure InodeNode where
  inodeNum : Nat
  type : VfsType
  size : Nat
  sb : Nat
  privateData : Nat
deriving Repr, DecidableEq

/-- `shadowfs_inode_t`: the first block and the number of blocks, or the first entry and the number of
entries. -/
structure PrivNode where
  first : Nat
  count : Nat
deriving Repr, DecidableEq

/-- What a `shadowfs_block_t` holds: where the kernel sees its page, and the bytes used of it. -/
structure PageBlock where
  data : Nat
  used : Nat
deriving Repr, DecidableEq

/-- The kernel has stopped. -/
def Fault.Halts (e : Fault) : Prop := ∃ why, e = .halted why

/-- The memory of shadowFS.  The mounts are given by their superblocks. -/
structure Store where
  machine : Machine
  heap : KHeap
  mounts : Nat → ShadowfsMount
  inodes : Nat → Option InodeNode
  privs : Nat → Option PrivNode
  dentries : Nodes ShadowfsDentry
  blocks : Nodes PageBlock

namespace Store

/-- `kmalloc` -/
def kmalloc (k : Store) (size : Nat) : Except Fault (Nat × Store) :=
  match AcornOS.kmalloc k.heap size with
  | .error why => .error (.halted why)
  | .ok (p, heap) => .ok (p, { k with heap := heap })

/-- `kfree`, after which nothing lies at the address. -/
def kfree (k : Store) (p : Nat) : Except Fault Store :=
  match AcornOS.kfree k.heap p with
  | .error why => .error (.halted why)
  | .ok heap => .ok { k with
      heap := heap
      inodes := Function.update k.inodes p none
      privs := Function.update k.privs p none
      dentries := Function.update k.dentries p none
      blocks := Function.update k.blocks p none }

/-- `physical_to_virtual((uint64_t)pmm_alloc())` -/
def pmmAlloc (k : Store) : Except Fault (Nat × Store) :=
  match AcornOS.pmmAlloc k.machine.pmm with
  | .error why => .error (.halted why)
  | .ok (page, pmm) => .ok (physicalToVirtual page, { k with machine := { k.machine with pmm := pmm } })

/-- `pmm_free((void*)virtual_to_physical((uint64_t)block->data))` -/
def pmmFree (k : Store) (data : Nat) : Store :=
  { k with machine :=
    { k.machine with pmm := AcornOS.pmmFree k.machine.pmm (virtualToPhysical data) } }

/-- Following a pointer to an inode. -/
def inodeAt (k : Store) (a : Nat) : Except Fault InodeNode :=
  match k.inodes a with
  | some n => .ok n
  | none => .error .freed

/-- Following a pointer to private data. -/
def privAt (k : Store) (a : Nat) : Except Fault PrivNode :=
  match k.privs a with
  | some p => .ok p
  | none => .error .freed

/-- Following a pointer to an entry or a block, and writing its `next`. -/
def setNext {α : Type} (m : Nodes α) (a next : Nat) : Except Fault (Nodes α) :=
  match m a with
  | some node => .ok (Function.update m a (some { node with next := next }))
  | none => .error .freed

def setPriv (k : Store) (a : Nat) (p : PrivNode) : Store :=
  { k with privs := Function.update k.privs a (some p) }

def setSize (k : Store) (a : Nat) (n : InodeNode) (size : Nat) : Store :=
  { k with inodes := Function.update k.inodes a (some { n with size := size }) }

/-- `mount->used += n` -/
def charge (k : Store) (sb n : Nat) : Store :=
  let m := k.mounts sb
  { k with mounts := Function.update k.mounts sb { m with used := add32 m.used n } }

/-- `mount->used -= n`, for the mount of a superblock. -/
def unchargeMount (mounts : Nat → ShadowfsMount) (sb n : Nat) : Nat → ShadowfsMount :=
  Function.update mounts sb { mounts sb with used := sub32 (mounts sb).used n }

def uncharge (k : Store) (sb n : Nat) : Store := { k with mounts := unchargeMount k.mounts sb n }

/-! ## 2. Directories -/

/-- `shadowfs_create_inode` -/
def shadowfsCreateInode (k : Store) (sb : Nat) (type : VfsType) : Except Fault (Nat × Store) := do
  let (inode, k) ← k.kmalloc sizeofInode
  let (priv, k) ← k.kmalloc sizeofShadowfsInode
  let m := k.mounts sb
  .ok (inode, { k with
    inodes := Function.update k.inodes inode (some ⟨m.nextInodeNum, type, 0, sb, priv⟩)
    privs := Function.update k.privs priv (some ⟨0, 0⟩)
    mounts := Function.update k.mounts sb { m with nextInodeNum := add32 m.nextInodeNum 1 } })

/-- A walk along a chain that has come to an end. -/
def ended {α : Type} : Trail α → Except Fault (Trail α)
  | .endless => .error .diverge
  | .dangling => .error .freed
  | found => .ok found

/-- The entry with a name, and the one before it. -/
def findEntry (k : Store) (priv : Nat) (name : CString) : Except Fault (Trail ShadowfsDentry) := do
  let p ← k.privAt priv
  ended (trail k.dentries (fun e => e.name = name) heapFuel 0 p.first)

/-- `shadowfs_lookup` -/
def shadowfsLookup (k : Store) (dir : Nat) (name : CString) : Except Fault (Option Nat) := do
  let d ← k.inodeAt dir
  match ← k.findEntry d.privateData name with
  | .found _ _ entry => .ok (some entry.val.inode)
  | _ => .ok none

/-- Step 8 of `shadowfs_create`: the entry at the end of the list. -/
def addEntry (k : Store) (priv dentry : Nat) : Except Fault Store := do
  let p ← k.privAt priv
  if p.first = 0 then .ok (k.setPriv priv ⟨dentry, add32 p.count 1⟩)
  else
    match ← ended (toLast k.dentries heapFuel p.first) with
    | .found _ last node =>
      let k := { k with dentries := Function.update k.dentries last (some { node with next := dentry }) }
      .ok (k.setPriv priv { p with count := add32 p.count 1 })
    | _ => .error .freed

/-- `shadowfs_create` -/
def shadowfsCreate (k : Store) (dir : Nat) (name : CString) (type : VfsType) :
    Except Fault (Option Nat × Store) := do
  let d ← k.inodeAt dir
  if (k.mounts d.sb).used ≥ (k.mounts d.sb).quota then .ok (none, k)
  else
    match ← k.findEntry d.privateData name with
    | .found .. => .ok (none, k)
    | _ =>
      let (inode, k) ← k.shadowfsCreateInode d.sb type
      let (dentry, k) ← k.kmalloc sizeofShadowfsDentry
      let entry : Node ShadowfsDentry := ⟨⟨kstrcpy name vfsMaxName, inode⟩, 0⟩
      let k := { k with dentries := Function.update k.dentries dentry (some entry) }
      let k ← k.addEntry d.privateData dentry
      .ok (some inode, k.charge d.sb (sizeofShadowfsDentry + sizeofInode))

/-- The page of a block is given back; `shadowfs_truncate` has the mount pay for `each` block less. -/
def freePage (k : Store) (each : (Nat → ShadowfsMount) → Nat → ShadowfsMount) (data : Nat) : Store :=
  { k.pmmFree data with mounts := each k.mounts }

/-- Freeing a block and those behind it. -/
def freeBlocks (each : (Nat → ShadowfsMount) → Nat → ShadowfsMount) :
    Nat → Store → Nat → Except Fault Store
  | 0, _, _ => .error .diverge
  | fuel + 1, k, block =>
    if block = 0 then .ok k
    else
      match k.blocks block with
      | none => .error .freed
      | some node => do
        let k ← (k.freePage each node.val.data).kfree block
        freeBlocks each fuel k node.next

/-- The unlinking in `shadowfs_delete`. -/
def removeEntry (k : Store) (priv previous next : Nat) : Except Fault Store := do
  let p ← k.privAt priv
  if previous ≠ 0 then
    let dentries ← setNext k.dentries previous next
    .ok ({ k with dentries := dentries }.setPriv priv { p with count := sub32 p.count 1 })
  else .ok (k.setPriv priv ⟨next, sub32 p.count 1⟩)

/-- Freeing the blocks of an inode, if it is a file. -/
def freeData (k : Store) (inode : InodeNode) : Except Fault Store :=
  if inode.type = .file then do
    let p ← k.privAt inode.privateData
    freeBlocks id heapFuel k p.first
  else .ok k

/-- Freeing the inode of an entry, and what goes with it. -/
def freeInode (k : Store) (a : Nat) : Except Fault Store := do
  let inode ← k.inodeAt a
  let k ← k.freeData inode
  let k ← k.kfree inode.privateData
  k.kfree a

/-- `shadowfs_delete` -/
def shadowfsDelete (k : Store) (dir : Nat) (name : CString) : Except Fault (Int × Store) := do
  let d ← k.inodeAt dir
  match ← k.findEntry d.privateData name with
  | .found previous entry node => do
    let k ← k.removeEntry d.privateData previous node.next
    let k ← k.freeInode node.val.inode
    let k ← (k.uncharge d.sb (sizeofShadowfsDentry + sizeofInode)).kfree entry
    .ok (0, k)
  | _ => .ok (-1, k)

/-- `shadowfs_mkdir` -/
def shadowfsMkdir (k : Store) (dir : Nat) (name : CString) : Except Fault (Int × Store) := do
  let (newDir, k) ← k.shadowfsCreate dir name .dir
  .ok (if newDir = none then -1 else 0, k)

/-- The walk of `shadowfs_readdir` to the entry at the position. -/
def entryAt (m : Nodes ShadowfsDentry) : Nat → Nat → Nat → Nat → Except Fault (Option ShadowfsDentry)
  | 0, _, _, _ => .error .diverge
  | fuel + 1, position, index, entry =>
    if entry = 0 then .ok none
    else
      match m entry with
      | none => .error .freed
      | some node =>
        if index = position then .ok (some node.val)
        else entryAt m fuel position (add32 index 1) node.next

/-- `shadowfs_readdir` -/
def shadowfsReaddir (k : Store) (file : File) : Except Fault (Option Dentry × File) := do
  let d ← k.inodeAt file.inode
  let p ← k.privAt d.privateData
  match ← entryAt k.dentries heapFuel file.position 0 p.first with
  | none => .ok (none, file)
  | some entry =>
    let n ← k.inodeAt entry.inode
    .ok (some ⟨kstrcpy entry.name vfsMaxName, entry.inode, n.type⟩,
      { file with position := add32 file.position 1 })

/-! ## 3. Files -/

/-- A new block, behind `last` or as the first one. -/
def addBlock (k : Store) (priv sb last : Nat) : Except Fault (Nat × Store) := do
  let (block, k) ← k.kmalloc sizeofShadowfsBlock
  let (data, k) ← k.pmmAlloc
  let k := { k with blocks := Function.update k.blocks block (some ⟨⟨data, 0⟩, 0⟩) }
  let p ← k.privAt priv
  if p.first = 0 then
    .ok (block, (k.setPriv priv ⟨block, add32 p.count 1⟩).charge sb sizeofShadowfsBlock)
  else do
    let blocks ← setNext k.blocks last block
    let k := { k with blocks := blocks }.setPriv priv { p with count := add32 p.count 1 }
    .ok (block, k.charge sb sizeofShadowfsBlock)

/-- The block to go on with: a new one if `!last || last->used == SHADOWFS_BLOCK_SIZE`. -/
def openBlock (k : Store) (priv sb last : Nat) : Except Fault (Nat × Store) :=
  if last = 0 then k.addBlock priv sb last
  else
    match k.blocks last with
    | none => .error .freed
    | some node =>
      if node.val.used = shadowfsBlockSize then k.addBlock priv sb last else .ok (last, k)

/-- Copying into the last block what fits: how much that was. -/
def fillBlock (k : Store) (last : Nat) (src : List (BitVec 8)) : Except Fault (Nat × Store) :=
  match k.blocks last with
  | none => .error .freed
  | some node =>
    let n := min src.length (sub32 shadowfsBlockSize node.val.used)
    .ok (n, { k with
      machine := { k.machine with
        mem := writeBytes k.machine.mem (add64 node.val.data node.val.used) (src.take n) }
      blocks := Function.update k.blocks last
        (some { node with val := { node.val with used := add32 node.val.used n } }) })

/-- The loop of `shadowfs_write`: the bytes written. -/
def writeRounds (priv sb : Nat) : Nat → Store → (last written : Nat) → List (BitVec 8) →
    Except Fault (Nat × Store)
  | _, k, _, written, [] => .ok (written, k)
  | 0, _, _, _, _ :: _ => .error .diverge
  | fuel + 1, k, last, written, src@(_ :: _) =>
    if (k.mounts sb).used ≥ (k.mounts sb).quota then .ok (written, k)
    else do
      let (last, k) ← k.openBlock priv sb last
      let (n, k) ← k.fillBlock last src
      writeRounds priv sb fuel k last (add32 written n) (src.drop n)

/-- `shadowfs_write` -/
def shadowfsWrite (k : Store) (file : File) (buf : List (BitVec 8)) :
    Except Fault (Nat × File × Store) := do
  let n ← k.inodeAt file.inode
  let p ← k.privAt n.privateData
  if buf = [] then .ok (0, file, k)
  else
    match ← ended (trail k.blocks (fun _ => false) heapFuel 0 p.first) with
    | .missing last => do
      let (written, k) ← k.writeRounds n.privateData n.sb buf.length last 0 buf
      .ok (written, { file with position := add32 file.position written },
        k.setSize file.inode n (add32 n.size written))
    | _ => .error .freed

/-- `private->file.block_count--; if(previous) previous->next = 0;` -/
def dropBlock (k : Store) (priv previous : Nat) : Except Fault Store := do
  let p ← k.privAt priv
  let k := k.setPriv priv { p with count := sub32 p.count 1 }
  if previous = 0 then .ok k
  else do
    let blocks ← setNext k.blocks previous 0
    .ok { k with blocks := blocks }

/-- The loop of `shadowfs_truncate` to a size other than 0. -/
def trimBlocks (priv sb : Nat) : Nat → Store → (bytesRemaining previous block : Nat) →
    Except Fault Store
  | 0, _, _, _, _ => .error .diverge
  | fuel + 1, k, bytesRemaining, previous, block =>
    if block = 0 then .ok k
    else
      match k.blocks block with
      | none => .error .freed
      | some node =>
        if bytesRemaining = 0 then do
          let k ← (k.freePage (unchargeMount · sb sizeofShadowfsBlock) node.val.data).kfree block
          let k ← k.dropBlock priv previous
          trimBlocks priv sb fuel k 0 previous node.next
        else if bytesRemaining < node.val.used then
          let trimmed := { node with val := { node.val with used := bytesRemaining } }
          trimBlocks priv sb fuel { k with blocks := Function.update k.blocks block (some trimmed) } 0
            block node.next
        else trimBlocks priv sb fuel k (bytesRemaining - node.val.used) block node.next

/-- `shadowfs_truncate` -/
def shadowfsTruncate (k : Store) (a size : Nat) : Except Fault (Int × Store) := do
  let n ← k.inodeAt a
  let p ← k.privAt n.privateData
  if n.type ≠ .file then .ok (-1, k)
  else if size = 0 then do
    let k ← freeBlocks (unchargeMount · n.sb sizeofShadowfsBlock) heapFuel k p.first
    .ok (0, (k.setPriv n.privateData ⟨0, 0⟩).setSize a n 0)
  else do
    let k ← trimBlocks n.privateData n.sb heapFuel k size 0 p.first
    .ok (0, k.setSize a n size)

theorem inodeAt_eq {k : Store} {a : Nat} {n : InodeNode} (h : k.inodes a = some n) :
    k.inodeAt a = .ok n := by
  rw [inodeAt, h]

theorem privAt_eq {k : Store} {a : Nat} {p : PrivNode} (h : k.privs a = some p) :
    k.privAt a = .ok p := by
  rw [privAt, h]

theorem setNext_eq {α : Type} {m : Nodes α} {a n next : Nat} {v : α} (h : m a = some ⟨v, n⟩) :
    setNext m a next = .ok (Function.update m a (some ⟨v, next⟩)) := by
  rw [setNext, h]

/-! ## 4. What is touched -/

/-- Between `k` and `k'` only what lies at the addresses `xs` has changed. -/
structure Only (k k' : Store) (xs : List Nat) : Prop where
  inodes : ∀ x ∉ xs, k'.inodes x = k.inodes x
  privs : ∀ x ∉ xs, k'.privs x = k.privs x
  dentries : ∀ x ∉ xs, k'.dentries x = k.dentries x
  blocks : ∀ x ∉ xs, k'.blocks x = k.blocks x

section Only

variable {k k' k'' : Store} {xs ys objs : List Nat} {rest : List (Nat × Nat)} {a p size : Nat}

theorem Only.refl (k : Store) : Only k k [] :=
  ⟨fun _ _ => rfl, fun _ _ => rfl, fun _ _ => rfl, fun _ _ => rfl⟩

theorem Only.mono (h : Only k k' xs) (hsub : xs ⊆ ys) : Only k k' ys :=
  ⟨fun x hx => h.inodes x fun hxs => hx (hsub hxs), fun x hx => h.privs x fun hxs => hx (hsub hxs),
    fun x hx => h.dentries x fun hxs => hx (hsub hxs), fun x hx => h.blocks x fun hxs => hx (hsub hxs)⟩

theorem Only.trans (h : Only k k' xs) (h' : Only k' k'' ys) : Only k k'' (xs ++ ys) := by
  have hl := h.mono (List.subset_append_left xs ys)
  have hr := h'.mono (List.subset_append_right xs ys)
  exact ⟨fun x hx => (hr.inodes x hx).trans (hl.inodes x hx),
    fun x hx => (hr.privs x hx).trans (hl.privs x hx),
    fun x hx => (hr.dentries x hx).trans (hl.dentries x hx),
    fun x hx => (hr.blocks x hx).trans (hl.blocks x hx)⟩

theorem only_setPriv (k : Store) (a : Nat) (p : PrivNode) : Only k (k.setPriv a p) [a] where
  inodes _ _ := rfl
  privs _ hx := Function.update_of_ne (fun h => hx (List.mem_singleton.mpr h)) _ _
  dentries _ _ := rfl
  blocks _ _ := rfl

theorem only_setSize (k : Store) (a : Nat) (n : InodeNode) (size : Nat) :
    Only k (k.setSize a n size) [a] where
  inodes _ hx := Function.update_of_ne (fun h => hx (List.mem_singleton.mpr h)) _ _
  privs _ _ := rfl
  dentries _ _ := rfl
  blocks _ _ := rfl

/-- `kmalloc` hands out a new object, or stops the kernel. -/
theorem kmalloc_spec (k : Store) {size : Nat} (hsize : leastObject ≤ roundUp4 size) :
    Ensures (k.kmalloc size) Fault.Halts fun r =>
      ∃ heap, r.2 = { k with heap := heap } ∧ Moves k.heap heap [] [r.1] := by
  unfold kmalloc
  cases hok : AcornOS.kmalloc k.heap size with
  | error why => exact ensures_error.mpr ⟨why, rfl⟩
  | ok r => exact ensures_ok.mpr ⟨r.2, rfl, moves_kmalloc hsize hok⟩

theorem kfree_spec (hh : Heaped k.heap rest (p :: objs)) :
    ∃ k', k.kfree p = .ok k' ∧ Moves k.heap k'.heap [p] [] ∧ Only k k' [p] ∧ k'.mounts = k.mounts ∧
      k'.machine = k.machine := by
  obtain ⟨h', hok, hm⟩ := hh.kfree
  rw [kfree, hok]
  have hout : ∀ {β : Type} (f : Nat → Option β) x, x ∉ [p] → Function.update f p none x = f x :=
    fun f x hx => Function.update_of_ne (fun h => hx (List.mem_singleton.mpr h)) _ _
  exact ⟨_, rfl, hm, ⟨hout _, hout _, hout _, hout _⟩, rfl, rfl⟩

/-- Giving back a page touches no object. -/
theorem freePage_spec (k : Store) (each : (Nat → ShadowfsMount) → Nat → ShadowfsMount) (data : Nat) :
    (k.freePage each data).heap = k.heap ∧ Only k (k.freePage each data) [] ∧
      (k.freePage each data).mounts = each k.mounts ∧ (k.freePage each data).machine =
        { k.machine with pmm := AcornOS.pmmFree k.machine.pmm (virtualToPhysical data) } := by
  unfold freePage pmmFree
  exact ⟨rfl, ⟨fun _ _ => rfl, fun _ _ => rfl, fun _ _ => rfl, fun _ _ => rfl⟩, rfl, rfl⟩

/-- The pages of a list of blocks are given back. -/
def freePagesOf (pm : Pmm) (bs : List (Nat × PageBlock)) : Pmm :=
  bs.foldl (fun pm b => AcornOS.pmmFree pm (virtualToPhysical b.2.data)) pm

/-- **Freeing a chain of blocks**: the blocks, and their pages. -/
theorem freeBlocks_spec {each : (Nat → ShadowfsMount) → Nat → ShadowfsMount} :
    ∀ {bs : List (Nat × PageBlock)} {fuel : Nat} {k : Store} {a : Nat}, Linked k.blocks a bs →
      bs.length < fuel → Heaped k.heap rest (bs.map Prod.fst ++ objs) →
      ∃ k', freeBlocks each fuel k a = .ok k' ∧ Moves k.heap k'.heap (bs.map Prod.fst) [] ∧
        Only k k' (bs.map Prod.fst) ∧ k'.mounts = each^[bs.length] k.mounts ∧
        k'.machine = { k.machine with pmm := freePagesOf k.machine.pmm bs }
  | [], fuel + 1, k, a, hl, _, hh => by
    refine ⟨k, ?_, Moves.refl _, Only.refl k, rfl, rfl⟩
    rw [freeBlocks, if_pos (show a = 0 from hl)]
  | (x, v) :: bs, fuel + 1, k, a, hl, hfuel, hh => by
    have hx : x ∉ bs.map Prod.fst := (show Linked k.blocks a ([] ++ (x, v) :: bs) from hl).notMem_post
    obtain ⟨rfl, hx0, n, hn, hbs⟩ := hl
    obtain ⟨hheap, honly₀, hmounts₀, hmachine₀⟩ := freePage_spec k each v.data
    have hh₀ : Heaped (k.freePage each v.data).heap rest (a :: (bs.map Prod.fst ++ objs)) := by
      rw [hheap]
      exact hh
    obtain ⟨k₁, hfree, hm, honly, hmounts, hmachine⟩ := kfree_spec hh₀
    rw [hheap] at hm
    have honly₁ := honly₀.trans honly
    have hbs₁ : Linked k₁.blocks n bs :=
      hbs.congr fun y hy => honly₁.blocks y fun h => hx (List.mem_singleton.mp h ▸ hy)
    obtain ⟨k', hrun, hm', honly', hmounts', hmachine'⟩ :=
      @freeBlocks_spec each bs fuel k₁ n hbs₁ (Nat.lt_of_succ_lt_succ hfuel) (hm rest _ hh)
    refine ⟨k', ?_, hm.free hm', honly₁.trans honly', ?_, ?_⟩
    · rw [freeBlocks, if_neg hx0, hn]
      exact bind_eq_ok.mpr ⟨k₁, hfree, hrun⟩
    · rw [hmounts', hmounts, hmounts₀]
      rfl
    · rw [hmachine', hmachine, hmachine₀]
      simp only [freePagesOf, List.foldl_cons]

end Only

end Store

end AcornOS
