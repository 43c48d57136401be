/-
# The tree of inodes

What every shadowFS keeps in order while names are created and deleted and files are written:

* an entry of a directory leads to an inode that has not been freed, and no two entries lead to the
  same one, so that freeing an inode with its entry leaves no other entry behind that led to it;
* a root is a directory, no entry leads to it, and no two mounts share it;
* files are packed (`Files.lean`), and the size of a directory is 0.

`Mutation` lists what a call can do to the tree, each with the conditions under which it is done, and
`Mutation.ok` shows once that all of them keep this in order.
-/
import AcornOS.FileSystem.Vfs

namespace AcornOS

open Lib Relation

/-! ## 1. Entries and blocks -/

namespace FileSystem

/-- The entries of a directory; none for anything else. -/
def entriesOf (fs : FileSystem) (d : Nat) : List ShadowfsDentry :=
  match fs.inodes d with
  | some ⟨_, _, _, .dir entries _⟩ => entries
  | _ => []

/-- The blocks of a file; none for anything else. -/
def blocksOf (fs : FileSystem) (a : Nat) : List ShadowfsBlock :=
  match fs.inodes a with
  | some ⟨_, _, _, .file blocks _⟩ => blocks
  | _ => []

variable {fs : FileSystem} {a d : Nat} {n : Inode} {entries : List ShadowfsDentry}
  {blocks : List ShadowfsBlock} {count : Nat}

theorem entriesOf_dir (h : fs.inodes d = some n) (hdata : n.privateData = .dir entries count) :
    fs.entriesOf d = entries := by
  obtain ⟨_, _, _, _⟩ := n
  cases hdata
  simp only [entriesOf, h]

theorem entriesOf_file (h : fs.inodes d = some n) (hdata : n.privateData = .file blocks count) :
    fs.entriesOf d = [] := by
  obtain ⟨_, _, _, _⟩ := n
  cases hdata
  simp only [entriesOf, h]

theorem entriesOf_none (h : fs.inodes d = none) : fs.entriesOf d = [] := by
  simp only [entriesOf, h]

theorem blocksOf_file (h : fs.inodes a = some n) (hdata : n.privateData = .file blocks count) :
    fs.blocksOf a = blocks := by
  obtain ⟨_, _, _, _⟩ := n
  cases hdata
  simp only [blocksOf, h]

theorem blocksOf_dir (h : fs.inodes a = some n) (hdata : n.privateData = .dir entries count) :
    fs.blocksOf a = [] := by
  obtain ⟨_, _, _, _⟩ := n
  cases hdata
  simp only [blocksOf, h]

theorem blocksOf_none (h : fs.inodes a = none) : fs.blocksOf a = [] := by
  simp only [blocksOf, h]

/-- Entries and blocks are read off the inode. -/
theorem entriesOf_congr {fs' : FileSystem} (h : fs'.inodes d = fs.inodes d) :
    fs'.entriesOf d = fs.entriesOf d := by
  simp only [entriesOf, h]

theorem blocksOf_congr {fs' : FileSystem} (h : fs'.inodes a = fs.inodes a) :
    fs'.blocksOf a = fs.blocksOf a := by
  simp only [blocksOf, h]

/-- Something that has an entry is a directory. -/
theorem inode_of_mem_entriesOf {e : ShadowfsDentry} (h : e ∈ fs.entriesOf d) :
    ∃ n entries count, fs.inodes d = some n ∧ n.privateData = .dir entries count ∧
      e ∈ entries := by
  cases hn : fs.inodes d with
  | none =>
    rw [entriesOf_none hn] at h
    cases h
  | some n =>
    cases hdata : n.privateData with
    | file blocks count =>
      rw [entriesOf_file hn hdata] at h
      cases h
    | dir entries count =>
      rw [entriesOf_dir hn hdata] at h
      exact ⟨n, entries, count, rfl, hdata, h⟩

/-! ## 2. What is kept in order -/

/-- The address leads to a directory. -/
def IsDir (fs : FileSystem) (a : Nat) : Prop := ∃ n, fs.inodes a = some n ∧ n.type = .dir

/-- The address leads to a file. -/
def IsFile (fs : FileSystem) (a : Nat) : Prop := ∃ n, fs.inodes a = some n ∧ n.type = .file

/-- The tree is in order. -/
structure Ok (fs : FileSystem) : Prop where
  null : fs.inodes 0 = none
  files : ∀ a n blocks count, fs.inodes a = some n → n.privateData = .file blocks count →
    fs.FileAt a n blocks
  dirs : ∀ a n entries count, fs.inodes a = some n → n.privateData = .dir entries count → n.size = 0
  live : ∀ d, ∀ e ∈ fs.entriesOf d, fs.inodes e.inode ≠ none
  nodup : ∀ d, ((fs.entriesOf d).map ShadowfsDentry.inode).Nodup
  parent : ∀ d d' e e', e ∈ fs.entriesOf d → e' ∈ fs.entriesOf d' → e.inode = e'.inode → d = d'
  roots : ∀ i, (fs.mountTable i).root ≠ 0 → fs.IsDir (fs.mountTable i).root ∧
    ∀ d, ∀ e ∈ fs.entriesOf d, e.inode ≠ (fs.mountTable i).root
  distinct : ∀ i j, (fs.mountTable i).root ≠ 0 → (fs.mountTable i).root = (fs.mountTable j).root → i = j
  used : ∀ i, (fs.mountOf i).used < 2 ^ 32
  quota : ∀ i, (fs.mountOf i).quota < 2 ^ 31

theorem isDir_iff : fs.IsDir a ↔ ∃ n entries count, fs.inodes a = some n ∧
    n.privateData = .dir entries count := by
  constructor
  · rintro ⟨n, hn, htype⟩
    cases hdata : n.privateData with
    | file blocks count => simp [Inode.type, hdata] at htype
    | dir entries count => exact ⟨n, entries, count, hn, hdata⟩
  · rintro ⟨n, entries, count, hn, hdata⟩
    exact ⟨n, hn, by simp [Inode.type, hdata]⟩

theorem isFile_iff : fs.IsFile a ↔ ∃ n blocks count, fs.inodes a = some n ∧
    n.privateData = .file blocks count := by
  constructor
  · rintro ⟨n, hn, htype⟩
    cases hdata : n.privateData with
    | file blocks count => exact ⟨n, blocks, count, hn, hdata⟩
    | dir entries count => simp [Inode.type, hdata] at htype
  · rintro ⟨n, blocks, count, hn, hdata⟩
    exact ⟨n, hn, by simp [Inode.type, hdata]⟩

/-- A file and a directory are not the same inode. -/
theorem IsDir.not_isFile (h : fs.IsDir a) : ¬ fs.IsFile a := by
  obtain ⟨n, hn, htype⟩ := h
  rintro ⟨n', hn', htype'⟩
  obtain rfl : n = n' := Option.some.inj (hn.symm.trans hn')
  rw [htype] at htype'
  cases htype'

end FileSystem

/-! ## 3. What a call does to the tree -/

namespace FileSystem

/-- The state after `shadowfs_create` has put a new inode at `a` and entered it in the directory `dir`,
whose inode was `d`. -/
def created (fs : FileSystem) (a dir : Nat) (d : Inode) (entries : List ShadowfsDentry) (count : Nat)
    (name : CString) (type : VfsType) : FileSystem :=
  let fs := shadowfsCreateInode fs a d.sb type
  let fs := fs.setInode dir
    { d with privateData := .dir (entries ++ [⟨kstrcpy name vfsMaxName, a⟩]) (add32 count 1) }
  fs.setUsed d.sb (add32 (fs.mountOf d.sb).used (sizeofShadowfsDentry + sizeofInode))

/-- The state after `shadowfs_delete` has unlinked the entry `name` of `dir` and freed its inode. -/
def deleted (fs : FileSystem) (dir : Nat) (d : Inode) (entries : List ShadowfsDentry) (count : Nat)
    (name : CString) (entry : ShadowfsDentry) : FileSystem :=
  let fs := fs.setInode dir
    { d with privateData := .dir (entries.eraseP fun e => e.name = name) (sub32 count 1) }
  let fs := fs.freeInode entry.inode
  fs.setUsed d.sb (sub32 (fs.mountOf d.sb).used (sizeofShadowfsDentry + sizeofInode))

/-- The state after the file at `a` has been given other blocks. -/
def rewritten (fs : FileSystem) (a : Nat) (n : Inode) (blocks : List ShadowfsBlock) (used : Nat) :
    FileSystem :=
  (fs.setInode a (n.withBlocks blocks)).setUsed n.sb used

/-- `shadowfs_create` can enter the name `name` in `dir`. -/
structure Enters (fs : FileSystem) (dir : Nat) (d : Inode) (entries : List ShadowfsDentry)
    (count : Nat) (name : CString) : Prop where
  inode : fs.inodes dir = some d
  data : d.privateData = .dir entries count
  quota : (fs.mountOf d.sb).used < (fs.mountOf d.sb).quota
  new : ∀ e ∈ entries, e.name ≠ name

/-- `shadowfs_delete` finds the name `name` in `dir`. -/
structure Removes (fs : FileSystem) (dir : Nat) (d : Inode) (entries : List ShadowfsDentry)
    (count : Nat) (name : CString) (entry : ShadowfsDentry) : Prop where
  inode : fs.inodes dir = some d
  data : d.privateData = .dir entries count
  found : entries.find? (fun e => e.name = name) = some entry

/-- A write turns the blocks of the file at `a` into `blocks'` and charges the mount for the new ones,
none of which is begun once the quota is used up. -/
structure Writes (fs : FileSystem) (a : Nat) (n : Inode) (blocks blocks' : List ShadowfsBlock)
    (used : Nat) : Prop where
  file : fs.FileAt a n blocks
  ok : BlocksOk blocks'
  more : blocks.length ≤ blocks'.length
  charge : used = grow32 (fs.mountOf n.sb).used
    (sizeofShadowfsBlock * (blocks'.length - blocks.length))
  quota : (fs.mountOf n.sb).quota + sizeofShadowfsBlock ≤ 2 ^ 32 → blocks'.length = blocks.length ∨
    (fs.mountOf n.sb).used + sizeofShadowfsBlock * (blocks'.length - blocks.length) <
      (fs.mountOf n.sb).quota + sizeofShadowfsBlock

end FileSystem

/-- What a call other than `vfs_delete` can do to the tree; the descriptors may change with it. -/
inductive Mutation (fs : FileSystem) : FileSystem → Prop
  | create {a dir : Nat} {d : Inode} {entries : List ShadowfsDentry} {count : Nat} {name : CString}
      {type : VfsType} (h : fs.Enters dir d entries count name) (ha : a ≠ 0)
      (hfresh : fs.inodes a = none) : Mutation fs (fs.created a dir d entries count name type)
  | write {a : Nat} {n : Inode} {blocks blocks' : List ShadowfsBlock} {used : Nat}
      (h : fs.Writes a n blocks blocks' used) : Mutation fs (fs.rewritten a n blocks' used)
  | truncate {a : Nat} {n : Inode} {blocks : List ShadowfsBlock} (h : fs.FileAt a n blocks) :
      Mutation fs (fs.rewritten a n []
        (sub32 (fs.mountOf n.sb).used (sizeofShadowfsBlock * blocks.length)))
  | files {table : Nat → Option File} : Mutation fs { fs with fileTable := table }

/-! ### The operations of shadowFS -/

section Operations

variable {fs fs' : FileSystem} {a dir : Nat} {name : CString} {type : VfsType}

theorem FileSystem.deref_eq_ok {n : Inode} : fs.deref a = .ok n ↔ fs.inodes a = some n := by
  unfold FileSystem.deref
  cases fs.inodes a with
  | none => simp
  | some m => simp

/-- **`shadowfs_create`** fails and changes nothing, or it creates the name. -/
theorem shadowfsCreate_cases {r : Option Nat}
    (h : shadowfsCreate fs a dir name type = .ok (r, fs')) :
    (r = none ∧ fs' = fs) ∨ ∃ d entries count, fs.Enters dir d entries count name ∧ r = some a ∧
      fs' = fs.created a dir d entries count name type := by
  unfold shadowfsCreate at h
  obtain ⟨d, hd, h⟩ := bind_eq_ok.mp h
  have hdir := FileSystem.deref_eq_ok.mp hd
  split at h
  · cases h
    exact Or.inl ⟨rfl, rfl⟩
  · rename_i hquota
    cases hdata : d.privateData with
    | file blocks count =>
      simp only [hdata] at h
      cases h
    | dir entries count =>
      simp only [hdata] at h
      split at h
      · cases h
        exact Or.inl ⟨rfl, rfl⟩
      · rename_i hname
        cases h
        refine Or.inr ⟨d, entries, count, ⟨hdir, hdata, Nat.lt_of_not_le hquota, ?_⟩, rfl, rfl⟩
        simpa using hname

/-- **`shadowfs_delete`** fails and changes nothing, or it deletes the name. -/
theorem shadowfsDelete_cases {r : Int} (h : shadowfsDelete fs dir name = .ok (r, fs')) :
    (r = -1 ∧ fs' = fs) ∨ ∃ d entries count entry, fs.Removes dir d entries count name entry ∧
      r = 0 ∧ fs' = fs.deleted dir d entries count name entry := by
  unfold shadowfsDelete at h
  obtain ⟨d, hd, h⟩ := bind_eq_ok.mp h
  have hdir := FileSystem.deref_eq_ok.mp hd
  cases hdata : d.privateData with
  | file blocks count =>
    simp only [hdata] at h
    cases h
  | dir entries count =>
    simp only [hdata] at h
    cases hentry : entries.find? (fun e => e.name = name) with
    | none =>
      simp only [hentry] at h
      cases h
      exact Or.inl ⟨rfl, rfl⟩
    | some entry =>
      simp only [hentry] at h
      obtain ⟨n, -, h⟩ := bind_eq_ok.mp h
      cases h
      exact Or.inr ⟨d, entries, count, entry, ⟨hdir, hdata, hentry⟩, rfl, rfl⟩

end Operations

/-! ## 4. The tree stays in order -/

namespace FileSystem

variable {fs : FileSystem} {a b dir i sb used count : Nat} {d n : Inode} {m : ShadowfsMount}
  {entries : List ShadowfsDentry} {blocks blocks' : List ShadowfsBlock} {name : CString}
  {type : VfsType} {entry : ShadowfsDentry}

/-! ### Mounts -/

@[simp] theorem root_setMount : ((fs.setMount sb m).mountTable i).root = (fs.mountTable i).root := by
  by_cases h : i = sb
  · subst h
    simp [setMount]
  · simp [setMount, Function.update_of_ne h]

@[simp] theorem mountPoint_setMount : (fs.setMount sb m).mountPoint i = fs.mountPoint i := by
  by_cases h : i = sb
  · subst h
    simp [mountPoint, setMount]
  · simp [mountPoint, setMount, Function.update_of_ne h]

theorem mountOf_setMount_of_ne (h : i ≠ sb) : (fs.setMount sb m).mountOf i = fs.mountOf i := by
  simp [mountOf, setMount, Function.update_of_ne h]

@[simp] theorem root_setUsed : ((fs.setUsed sb used).mountTable i).root = (fs.mountTable i).root :=
  root_setMount

@[simp] theorem mountPoint_setUsed : (fs.setUsed sb used).mountPoint i = fs.mountPoint i :=
  mountPoint_setMount

theorem mountOf_setUsed_of_ne (h : i ≠ sb) : (fs.setUsed sb used).mountOf i = fs.mountOf i :=
  mountOf_setMount_of_ne h

/-- Only `used` is written. -/
theorem quota_setUsed : ((fs.setUsed sb used).mountOf i).quota = (fs.mountOf i).quota := by
  by_cases h : i = sb
  · subst h
    rw [mountOf_setUsed_self]
  · rw [mountOf_setUsed_of_ne h]

theorem used_setUsed : ((fs.setUsed sb used).mountOf i).used =
    if i = sb then used else (fs.mountOf i).used := by
  by_cases h : i = sb
  · subst h
    simp
  · rw [mountOf_setUsed_of_ne h, if_neg h]

theorem used_setUsed_lt (h : ∀ i, (fs.mountOf i).used < 2 ^ 32) (hused : used < 2 ^ 32) (i : Nat) :
    ((fs.setUsed sb used).mountOf i).used < 2 ^ 32 := by
  by_cases hi : i = sb
  · subst hi
    rw [mountOf_setUsed_self]
    exact hused
  · rw [mountOf_setUsed_of_ne hi]
    exact h i

@[simp] theorem root_setInode : ((fs.setInode a n).mountTable i).root = (fs.mountTable i).root := rfl

@[simp] theorem mountPoint_setInode : (fs.setInode a n).mountPoint i = fs.mountPoint i := rfl

@[simp] theorem root_freeInode : ((fs.freeInode a).mountTable i).root = (fs.mountTable i).root := rfl

@[simp] theorem mountPoint_freeInode : (fs.freeInode a).mountPoint i = fs.mountPoint i := rfl

@[simp] theorem root_createInode :
    ((shadowfsCreateInode fs a sb type).mountTable i).root = (fs.mountTable i).root :=
  root_setMount

@[simp] theorem mountPoint_createInode :
    (shadowfsCreateInode fs a sb type).mountPoint i = fs.mountPoint i :=
  mountPoint_setMount

theorem mountOf_createInode_used :
    ((shadowfsCreateInode fs a sb type).mountOf i).used = (fs.mountOf i).used ∧
      ((shadowfsCreateInode fs a sb type).mountOf i).quota = (fs.mountOf i).quota := by
  by_cases h : i = sb
  · subst h
    simp [shadowfsCreateInode]
  · simp [shadowfsCreateInode, mountOf_setMount_of_ne h]

/-! ### A name is created -/

/-- The new inode. -/
def newInode (fs : FileSystem) (sb : Nat) (type : VfsType) : Inode :=
  ⟨(fs.mountOf sb).nextInodeNum, 0, sb, ShadowfsInode.empty type⟩

theorem inodes_created_new (h : a ≠ dir) :
    (fs.created a dir d entries count name type).inodes a = some (fs.newInode d.sb type) := by
  simp [created, shadowfsCreateInode, newInode, inodes_setInode_of_ne _ _ h]

theorem inodes_created_dir : (fs.created a dir d entries count name type).inodes dir =
    some { d with
      privateData := .dir (entries ++ [⟨kstrcpy name vfsMaxName, a⟩]) (add32 count 1) } := by
  simp [created]

theorem inodes_created_of_ne (hdir : b ≠ dir) (ha : b ≠ a) :
    (fs.created a dir d entries count name type).inodes b = fs.inodes b := by
  simp [created, shadowfsCreateInode, inodes_setInode_of_ne _ _ hdir, inodes_setInode_of_ne _ _ ha]

theorem entriesOf_newInode {fs' : FileSystem} (h : fs'.inodes a = some (fs.newInode sb type)) :
    fs'.entriesOf a = [] := by
  cases type with
  | file => exact entriesOf_file h rfl
  | dir => exact entriesOf_dir h rfl

theorem blocksOf_newInode {fs' : FileSystem} (h : fs'.inodes a = some (fs.newInode sb type)) :
    fs'.blocksOf a = [] := by
  cases type with
  | file => exact blocksOf_file h rfl
  | dir => exact blocksOf_dir h rfl

theorem Enters.ne (h : fs.Enters dir d entries count name) (hfresh : fs.inodes a = none) : a ≠ dir := by
  rintro rfl
  rw [h.inode] at hfresh
  cases hfresh

/-- Only the directory has another entry, behind the old ones. -/
theorem entriesOf_created (h : fs.Enters dir d entries count name) (hfresh : fs.inodes a = none) :
    (fs.created a dir d entries count name type).entriesOf b =
      if b = dir then fs.entriesOf dir ++ [⟨kstrcpy name vfsMaxName, a⟩] else fs.entriesOf b := by
  by_cases hdir : b = dir
  · subst hdir
    rw [if_pos rfl, entriesOf_dir h.inode h.data, entriesOf_dir inodes_created_dir rfl]
  rw [if_neg hdir]
  by_cases ha : b = a
  · subst ha
    rw [entriesOf_newInode (inodes_created_new (h.ne hfresh)), entriesOf_none hfresh]
  · exact entriesOf_congr (inodes_created_of_ne hdir ha)

/-- An entry is an old one, or the new one. -/
theorem mem_entriesOf_created (h : fs.Enters dir d entries count name) (hfresh : fs.inodes a = none)
    {e : ShadowfsDentry} (he : e ∈ (fs.created a dir d entries count name type).entriesOf b) :
    e ∈ fs.entriesOf b ∨ (b = dir ∧ e.inode = a) := by
  rw [entriesOf_created h hfresh] at he
  split at he
  · rename_i hb
    subst hb
    rcases List.mem_append.mp he with he | he
    · exact Or.inl he
    · rw [List.mem_singleton.mp he]
      exact Or.inr ⟨rfl, rfl⟩
  · exact Or.inl he

theorem blocksOf_created (h : fs.Enters dir d entries count name) (hfresh : fs.inodes a = none) :
    (fs.created a dir d entries count name type).blocksOf b = fs.blocksOf b := by
  by_cases hdir : b = dir
  · subst hdir
    rw [blocksOf_dir h.inode h.data, blocksOf_dir inodes_created_dir rfl]
  by_cases ha : b = a
  · subst ha
    rw [blocksOf_newInode (inodes_created_new (h.ne hfresh)), blocksOf_none hfresh]
  · exact blocksOf_congr (inodes_created_of_ne hdir ha)

/-- What leads somewhere still does, to an inode of the same type. -/
theorem type_created (h : fs.Enters dir d entries count name) (hfresh : fs.inodes a = none)
    (hn : fs.inodes b = some n) : ∃ n', (fs.created a dir d entries count name type).inodes b =
      some n' ∧ n'.type = n.type ∧ n'.sb = n.sb := by
  by_cases hdir : b = dir
  · subst hdir
    obtain rfl : d = n := Option.some.inj (h.inode.symm.trans hn)
    exact ⟨_, inodes_created_dir, by simp [Inode.type, h.data], rfl⟩
  · have ha : b ≠ a := by
      rintro rfl
      rw [hfresh] at hn
      cases hn
    exact ⟨n, (inodes_created_of_ne hdir ha).trans hn, rfl, rfl⟩

@[simp] theorem root_created : ((fs.created a dir d entries count name type).mountTable i).root =
    (fs.mountTable i).root := by
  simp [created]

@[simp] theorem mountPoint_created :
    (fs.created a dir d entries count name type).mountPoint i = fs.mountPoint i := by
  simp [created]

theorem Ok.created (hfs : fs.Ok) (h : fs.Enters dir d entries count name) (ha : a ≠ 0)
    (hfresh : fs.inodes a = none) : (fs.created a dir d entries count name type).Ok := by
  have hne := h.ne hfresh
  have hent : ∀ b, (fs.created a dir d entries count name type).entriesOf b = _ :=
    fun b => entriesOf_created h hfresh
  -- nothing led to the new inode before
  have hnew : ∀ b, ∀ e ∈ fs.entriesOf b, e.inode ≠ a := by
    intro b e he heq
    exact hfs.live b e he (heq ▸ hfresh)
  have hmem : ∀ b, ∀ e ∈ (fs.created a dir d entries count name type).entriesOf b,
      e ∈ fs.entriesOf b ∨ (b = dir ∧ e.inode = a) :=
    fun b e he => mem_entriesOf_created h hfresh he
  constructor
  · have hdir : (0 : Nat) ≠ dir := by
      rintro rfl
      cases hfs.null.symm.trans h.inode
    rw [inodes_created_of_ne hdir ha.symm]
    exact hfs.null
  · intro b n blocks c hn hdata
    by_cases hb : b = dir
    · subst hb
      rw [inodes_created_dir] at hn
      cases hn
      cases hdata
    by_cases hba : b = a
    · subst hba
      rw [inodes_created_new hne] at hn
      cases hn
      cases type with
      | file =>
        cases hdata
        exact ⟨inodes_created_new hne, rfl, blocksOk_nil, rfl⟩
      | dir => cases hdata
    · rw [inodes_created_of_ne hb hba] at hn
      obtain ⟨-, h₂, h₃, h₄⟩ := hfs.files b n blocks c hn hdata
      exact ⟨(inodes_created_of_ne hb hba).trans hn, h₂, h₃, h₄⟩
  · intro b n es c hn hdata
    by_cases hb : b = dir
    · subst hb
      rw [inodes_created_dir] at hn
      cases hn
      exact hfs.dirs b d entries count h.inode h.data
    by_cases hba : b = a
    · subst hba
      rw [inodes_created_new hne] at hn
      cases hn
      rfl
    · rw [inodes_created_of_ne hb hba] at hn
      exact hfs.dirs b n es c hn hdata
  · intro b e he
    rcases hmem b e he with he | ⟨-, hea⟩
    · obtain ⟨n, hn⟩ := Option.ne_none_iff_exists'.mp (hfs.live b e he)
      obtain ⟨n', hn', -⟩ := type_created h hfresh hn
      rw [hn']
      simp
    · rw [hea, inodes_created_new hne]
      simp
  · intro b
    rw [hent]
    split
    · rw [List.map_append, List.map_singleton, List.nodup_append]
      refine ⟨hfs.nodup dir, List.nodup_singleton _, ?_⟩
      intro x hx y hy
      obtain ⟨e, he, rfl⟩ := List.mem_map.mp hx
      rw [List.mem_singleton.mp hy]
      exact hnew dir e he
    · exact hfs.nodup b
  · intro b b' e e' he he' heq
    rcases hmem b e he with he | ⟨hb, hea⟩ <;> rcases hmem b' e' he' with he' | ⟨hb', hea'⟩
    · exact hfs.parent b b' e e' he he' heq
    · exact absurd (heq.trans hea') (hnew b e he)
    · exact absurd (heq.symm.trans hea) (hnew b' e' he')
    · rw [hb, hb']
  · intro j hj
    rw [root_created] at hj ⊢
    obtain ⟨⟨n, hn, htype⟩, hentries⟩ := hfs.roots j hj
    obtain ⟨n', hn', htype', -⟩ := type_created h hfresh hn
    refine ⟨⟨n', hn', htype'.trans htype⟩, fun b e he => ?_⟩
    rcases hmem b e he with he | ⟨-, hea⟩
    · exact hentries b e he
    · rw [hea]
      rintro rfl
      rw [hfresh] at hn
      cases hn
  · intro j k
    simp only [root_created]
    exact hfs.distinct j k
  · refine used_setUsed_lt (fun j => ?_) (Nat.mod_lt _ (by decide))
    rw [mountOf_setInode, mountOf_createInode_used.1]
    exact hfs.used j
  · intro j
    rw [FileSystem.created, quota_setUsed, mountOf_setInode, mountOf_createInode_used.2]
    exact hfs.quota j

/-! ### A name is deleted -/

theorem inodes_deleted_gone :
    (fs.deleted dir d entries count name entry).inodes entry.inode = none := by
  simp [deleted, freeInode]

theorem inodes_deleted_dir (h : dir ≠ entry.inode) :
    (fs.deleted dir d entries count name entry).inodes dir = some { d with
      privateData := .dir (entries.eraseP fun e => e.name = name) (sub32 count 1) } := by
  simp [deleted, freeInode, Function.update_of_ne h]

theorem inodes_deleted_of_ne (hdir : b ≠ dir) (hb : b ≠ entry.inode) :
    (fs.deleted dir d entries count name entry).inodes b = fs.inodes b := by
  simp [deleted, freeInode, Function.update_of_ne hb, inodes_setInode_of_ne _ _ hdir]

theorem Removes.mem (h : fs.Removes dir d entries count name entry) : entry ∈ fs.entriesOf dir := by
  rw [entriesOf_dir h.inode h.data]
  exact List.mem_of_find?_eq_some h.found

/-- The entry that is unlinked, among the others. -/
theorem Removes.split (h : fs.Removes dir d entries count name entry) : ∃ l₁ l₂,
    fs.entriesOf dir = l₁ ++ entry :: l₂ ∧ entries.eraseP (fun e => e.name = name) = l₁ ++ l₂ := by
  obtain ⟨-, l₁, l₂, hsplit, hnot⟩ := List.find?_eq_some_iff_append.mp h.found
  have hname := List.find?_some h.found
  refine ⟨l₁, l₂, (entriesOf_dir h.inode h.data).trans hsplit, ?_⟩
  rw [hsplit, List.eraseP_append_right]
  · simp [of_decide_eq_true hname]
  · intro e he
    simpa using hnot e he

/-- The entries of a directory other than the one that is freed. -/
theorem entriesOf_deleted_sublist (h : fs.Removes dir d entries count name entry) :
    ((fs.deleted dir d entries count name entry).entriesOf b).Sublist (fs.entriesOf b) := by
  by_cases hb : b = entry.inode
  · subst hb
    rw [entriesOf_none inodes_deleted_gone]
    exact List.nil_sublist _
  by_cases hdir : b = dir
  · subst hdir
    rw [entriesOf_dir (inodes_deleted_dir hb) rfl, entriesOf_dir h.inode h.data]
    exact List.eraseP_sublist
  · rw [entriesOf_congr (inodes_deleted_of_ne hdir hb)]

/-- Nothing leads to the freed inode any more. -/
theorem Ok.deleted_unlinked (hfs : fs.Ok) (h : fs.Removes dir d entries count name entry)
    {e : ShadowfsDentry} (he : e ∈ (fs.deleted dir d entries count name entry).entriesOf b) :
    e.inode ≠ entry.inode := by
  intro heq
  have hold := (entriesOf_deleted_sublist h).subset he
  obtain rfl : b = dir := hfs.parent b dir e entry hold h.mem heq
  by_cases hself : b = entry.inode
  · rw [hself, entriesOf_none inodes_deleted_gone] at he
    cases he
  obtain ⟨l₁, l₂, hsplit, herase⟩ := h.split
  rw [entriesOf_dir (inodes_deleted_dir hself) rfl, herase] at he
  have hnodup := hfs.nodup b
  rw [hsplit, List.map_append, List.map_cons] at hnodup
  have hnot := (List.nodup_middle.mp hnodup).notMem
  rw [← List.map_append] at hnot
  exact hnot (heq ▸ List.mem_map_of_mem he)

/-- What still leads somewhere leads to an inode of the same type. -/
theorem type_deleted (h : fs.Removes dir d entries count name entry) (hb : b ≠ entry.inode)
    (hn : fs.inodes b = some n) : ∃ n', (fs.deleted dir d entries count name entry).inodes b =
      some n' ∧ n'.type = n.type ∧ n'.sb = n.sb := by
  by_cases hdir : b = dir
  · subst hdir
    obtain rfl : d = n := Option.some.inj (h.inode.symm.trans hn)
    exact ⟨_, inodes_deleted_dir hb, by simp [Inode.type, h.data], rfl⟩
  · exact ⟨n, (inodes_deleted_of_ne hdir hb).trans hn, rfl, rfl⟩

@[simp] theorem root_deleted : ((fs.deleted dir d entries count name entry).mountTable i).root =
    (fs.mountTable i).root := by
  simp [deleted]

@[simp] theorem mountPoint_deleted :
    (fs.deleted dir d entries count name entry).mountPoint i = fs.mountPoint i := by
  simp [deleted]

theorem Ok.deleted (hfs : fs.Ok) (h : fs.Removes dir d entries count name entry) :
    (fs.deleted dir d entries count name entry).Ok := by
  have hsub : ∀ b, ((fs.deleted dir d entries count name entry).entriesOf b).Sublist
      (fs.entriesOf b) := fun b => entriesOf_deleted_sublist h
  -- an inode that is still there is the directory or an old one
  have hinode : ∀ b n, (fs.deleted dir d entries count name entry).inodes b = some n →
      (b = dir ∧ b ≠ entry.inode) ∨ fs.inodes b = some n := by
    intro b n hn
    by_cases hb : b = entry.inode
    · rw [hb, inodes_deleted_gone] at hn
      cases hn
    by_cases hdir : b = dir
    · exact Or.inl ⟨hdir, hb⟩
    · exact Or.inr ((inodes_deleted_of_ne hdir hb).symm.trans hn)
  constructor
  · cases hzero : (fs.deleted dir d entries count name entry).inodes 0 with
    | none => rfl
    | some n =>
      rcases hinode 0 n hzero with ⟨hdir, -⟩ | hn
      · rw [← hdir] at h
        cases hfs.null.symm.trans h.inode
      · cases hfs.null.symm.trans hn
  · intro b n blocks c hn hdata
    rcases hinode b n hn with ⟨rfl, hb⟩ | hold
    · rw [inodes_deleted_dir hb] at hn
      cases hn
      cases hdata
    · obtain ⟨-, h₂, h₃, h₄⟩ := hfs.files b n blocks c hold hdata
      exact ⟨hn, h₂, h₃, h₄⟩
  · intro b n es c hn hdata
    rcases hinode b n hn with ⟨rfl, hb⟩ | hold
    · rw [inodes_deleted_dir hb] at hn
      cases hn
      exact hfs.dirs b d entries count h.inode h.data
    · exact hfs.dirs b n es c hold hdata
  · intro b e he
    obtain ⟨n, hn⟩ := Option.ne_none_iff_exists'.mp (hfs.live b e ((hsub b).subset he))
    obtain ⟨n', hn', -⟩ := type_deleted h (hfs.deleted_unlinked h he) hn
    rw [hn']
    simp
  · intro b
    exact (hfs.nodup b).sublist ((hsub b).map _)
  · intro b b' e e' he he' heq
    exact hfs.parent b b' e e' ((hsub b).subset he) ((hsub b').subset he') heq
  · intro j hj
    rw [root_deleted] at hj ⊢
    obtain ⟨⟨n, hn, htype⟩, hentries⟩ := hfs.roots j hj
    have hne : (fs.mountTable j).root ≠ entry.inode := (hentries dir entry h.mem).symm
    obtain ⟨n', hn', htype', -⟩ := type_deleted h hne hn
    exact ⟨⟨n', hn', htype'.trans htype⟩, fun b e he => hentries b e ((hsub b).subset he)⟩
  · intro j k
    simp only [root_deleted]
    exact hfs.distinct j k
  · exact used_setUsed_lt hfs.used (Nat.mod_lt _ (by decide))
  · intro j
    rw [FileSystem.deleted, quota_setUsed]
    exact hfs.quota j

/-! ### A file is written -/

theorem inodes_rewritten_self :
    (fs.rewritten a n blocks' used).inodes a = some (n.withBlocks blocks') := by
  simp [rewritten]

theorem inodes_rewritten_of_ne (h : b ≠ a) :
    (fs.rewritten a n blocks' used).inodes b = fs.inodes b := by
  simp [rewritten, inodes_setInode_of_ne _ _ h]

theorem entriesOf_rewritten (h : fs.FileAt a n blocks) :
    (fs.rewritten a n blocks' used).entriesOf b = fs.entriesOf b := by
  by_cases hb : b = a
  · subst hb
    rw [entriesOf_file h.inode h.data, entriesOf_file inodes_rewritten_self rfl]
  · exact entriesOf_congr (inodes_rewritten_of_ne hb)

theorem blocksOf_rewritten_self : (fs.rewritten a n blocks' used).blocksOf a = blocks' :=
  blocksOf_file inodes_rewritten_self rfl

theorem blocksOf_rewritten_of_ne (h : b ≠ a) :
    (fs.rewritten a n blocks' used).blocksOf b = fs.blocksOf b :=
  blocksOf_congr (inodes_rewritten_of_ne h)

theorem used_rewritten : ((fs.rewritten a n blocks' used).mountOf i).used =
    if i = n.sb then used else (fs.mountOf i).used := by
  rw [rewritten, used_setUsed]
  rfl

theorem type_rewritten {n' : Inode} (blocks' : List ShadowfsBlock) (used : Nat)
    (h : fs.FileAt a n blocks) (hn : fs.inodes b = some n') :
    ∃ n'', (fs.rewritten a n blocks' used).inodes b = some n'' ∧ n''.type = n'.type ∧
      n''.sb = n'.sb := by
  by_cases hb : b = a
  · subst hb
    obtain rfl : n = n' := Option.some.inj (h.inode.symm.trans hn)
    exact ⟨_, inodes_rewritten_self, by simp [Inode.type, Inode.withBlocks, h.data], rfl⟩
  · exact ⟨n', (inodes_rewritten_of_ne hb).trans hn, rfl, rfl⟩

@[simp] theorem root_rewritten :
    ((fs.rewritten a n blocks' used).mountTable i).root = (fs.mountTable i).root := by
  simp [rewritten]

@[simp] theorem mountPoint_rewritten :
    (fs.rewritten a n blocks' used).mountPoint i = fs.mountPoint i := by
  simp [rewritten]

theorem Ok.rewritten (hfs : fs.Ok) (h : fs.FileAt a n blocks) (hok : BlocksOk blocks')
    (hused : used < 2 ^ 32) : (fs.rewritten a n blocks' used).Ok := by
  have hent : ∀ b, (fs.rewritten a n blocks' used).entriesOf b = fs.entriesOf b :=
    fun b => entriesOf_rewritten h
  constructor
  · have hzero : (0 : Nat) ≠ a := by
      rintro rfl
      cases hfs.null.symm.trans h.inode
    rw [inodes_rewritten_of_ne hzero]
    exact hfs.null
  · intro b n' bs c hn hdata
    by_cases hb : b = a
    · subst hb
      rw [inodes_rewritten_self] at hn
      cases hn
      cases hdata
      exact fileAt_setInode fs b used n hok
    · rw [inodes_rewritten_of_ne hb] at hn
      obtain ⟨-, h₂, h₃, h₄⟩ := hfs.files b n' bs c hn hdata
      exact ⟨(inodes_rewritten_of_ne hb).trans hn, h₂, h₃, h₄⟩
  · intro b n' es c hn hdata
    by_cases hb : b = a
    · subst hb
      rw [inodes_rewritten_self] at hn
      cases hn
      cases hdata
    · rw [inodes_rewritten_of_ne hb] at hn
      exact hfs.dirs b n' es c hn hdata
  · intro b e he
    rw [hent] at he
    obtain ⟨n', hn'⟩ := Option.ne_none_iff_exists'.mp (hfs.live b e he)
    obtain ⟨n'', hn'', -⟩ := type_rewritten blocks' used h hn'
    rw [hn'']
    simp
  · intro b
    rw [hent]
    exact hfs.nodup b
  · intro b b' e e' he he' heq
    rw [hent] at he he'
    exact hfs.parent b b' e e' he he' heq
  · intro j hj
    rw [root_rewritten] at hj ⊢
    obtain ⟨⟨n', hn', htype⟩, hentries⟩ := hfs.roots j hj
    obtain ⟨n'', hn'', htype', -⟩ := type_rewritten blocks' used h hn'
    refine ⟨⟨n'', hn'', htype'.trans htype⟩, fun b e he => ?_⟩
    rw [hent] at he
    exact hentries b e he
  · intro j k
    simp only [root_rewritten]
    exact hfs.distinct j k
  · exact used_setUsed_lt hfs.used hused
  · intro j
    rw [FileSystem.rewritten, quota_setUsed]
    exact hfs.quota j

theorem Ok.files_changed {table : Nat → Option File} (hfs : fs.Ok) :
    Ok { fs with fileTable := table } where
  null := hfs.null
  files a n blocks count hn hdata :=
    have h := hfs.files a n blocks count hn hdata
    ⟨hn, h.data, h.ok, h.size⟩
  dirs := hfs.dirs
  live := hfs.live
  nodup := hfs.nodup
  parent := hfs.parent
  roots := hfs.roots
  distinct := hfs.distinct
  used := hfs.used
  quota := hfs.quota

end FileSystem

theorem grow32_lt {m n : Nat} (h : m < 2 ^ 32) : grow32 m n < 2 ^ 32 := by
  unfold grow32
  split
  · exact h
  · exact Nat.mod_lt _ (by decide)

/-- **Every mutation keeps the tree in order.** -/
theorem Mutation.ok {fs fs' : FileSystem} (hmut : Mutation fs fs') (hfs : fs.Ok) : fs'.Ok := by
  cases hmut with
  | create h ha hfresh => exact hfs.created h ha hfresh
  | write h =>
    refine hfs.rewritten h.file h.ok ?_
    rw [h.charge]
    exact grow32_lt (hfs.used _)
  | truncate h => exact hfs.rewritten h blocksOk_nil (Nat.mod_lt _ (by decide))
  | files => exact hfs.files_changed

/-- What leads somewhere still does, to an inode of the same type and the same mount. -/
theorem Mutation.inode {fs fs' : FileSystem} {b : Nat} {n : Inode} (hmut : Mutation fs fs')
    (hn : fs.inodes b = some n) : ∃ n', fs'.inodes b = some n' ∧ n'.type = n.type ∧ n'.sb = n.sb := by
  cases hmut with
  | create h ha hfresh => exact FileSystem.type_created h hfresh hn
  | write h => exact FileSystem.type_rewritten _ _ h.file hn
  | truncate h => exact FileSystem.type_rewritten _ _ h hn
  | files => exact ⟨n, hn, rfl, rfl⟩

end AcornOS
