/-
# The quota and the memory behind it

`writeLoop` stops once `used` has come up to the quota, and a block of 4096 bytes counts 24 in `used`.

* `Charged` holds in every run: each file has been charged 144, each of its blocks 24, and the last block
  was begun while `used` was below the quota.
* So a quota of at most 168, which is one file and one block, bounds the memory; any larger quota `q` lets
  one file take about `4096 / 24` times as much (`quota_overrun`).
* Nothing checks `SHADOWFS_MAX_FILESIZE`.
-/
import AcornOS.FileSystem.Quota

namespace AcornOS

open Lib Relation

/-- `SHADOWFS_MAX_FILESIZE` -/
def shadowfsMaxFilesize : Nat := 16 * 1024 * 1024

/-! ## 1. What has been charged -/

namespace FileSystem

/-- What a file or directory has been charged, with its blocks. -/
def priceOf (fs : FileSystem) (x : Nat) : Nat := 144 + 24 * (fs.blocksOf x).length

/-- The inodes in `C` belong to the mount `i` and have been charged for; every file is among them, and
whatever an entry leads to.  The last block was begun below the quota. -/
structure Charged (fs : FileSystem) (i : Nat) (C : Finset Nat) : Prop where
  sb : ∀ b ∈ C, fs.sbOf b = some i
  files : ∀ b, fs.IsFile b → fs.sbOf b = some i → b ∈ C
  entries : ∀ x, ∀ e ∈ fs.entriesOf x, fs.sbOf e.inode = some i → e.inode ∈ C
  used : ∑ b ∈ C, fs.priceOf b ≤ (fs.mountOf i).used
  bound : ∑ b ∈ C, (fs.blocksOf b).length = 0 ∨
    144 + 24 * ∑ b ∈ C, (fs.blocksOf b).length < (fs.mountOf i).quota + 24

variable {fs fs' : FileSystem} {a b dir i used count : Nat} {d n : Inode}
  {entries : List ShadowfsDentry} {blocks blocks' : List ShadowfsBlock} {name : CString}
  {type : VfsType} {entry : ShadowfsDentry} {C : Finset Nat}

/-- The total price, taken apart. -/
theorem sum_priceOf (fs : FileSystem) (C : Finset Nat) : ∑ b ∈ C, fs.priceOf b =
    144 * C.card + 24 * ∑ b ∈ C, (fs.blocksOf b).length := by
  simp only [priceOf, Finset.sum_add_distrib, Finset.sum_const, smul_eq_mul, Finset.mul_sum]
  ring

theorem isFile_created
    (hb : (fs.created a dir d entries count name type).IsFile b) : b = a ∨ fs.IsFile b := by
  by_cases ha : b = a
  · exact Or.inl ha
  right
  obtain ⟨n, hn, htype⟩ := hb
  by_cases hdir : b = dir
  · subst hdir
    rw [inodes_created_dir] at hn
    cases hn
    cases htype
  · exact ⟨n, (inodes_created_of_ne hdir ha).symm.trans hn, htype⟩

/-- **A name is created.** -/
theorem Charged.created (h : fs.Charged i C) (hfs : fs.Ok)
    (henters : fs.Enters dir d entries count name) (hfresh : fs.inodes a = none) :
    ∃ C', (fs.created a dir d entries count name type).Charged i C' := by
  have hblocks : ∀ b, (fs.created a dir d entries count name type).blocksOf b = fs.blocksOf b :=
    fun b => blocksOf_created henters hfresh
  have ha : a ∉ C := by
    intro ha
    cases (sbOf_eq_none.mpr hfresh).symm.trans (h.sb a ha)
  have hne : ∀ b ∈ C, b ≠ a := fun b hb heq => ha (heq ▸ hb)
  have hprice : ∑ b ∈ C, (fs.created a dir d entries count name type).priceOf b =
      ∑ b ∈ C, fs.priceOf b := by
    refine Finset.sum_congr rfl fun b _ => ?_
    rw [priceOf, priceOf, hblocks]
  by_cases hi : i = d.sb
  · subst hi
    refine ⟨insert a C, fun b hb => ?_, fun b hfile hsb => ?_, fun x e he hsb => ?_, ?_, ?_⟩
    · rw [sbOf_created henters hfresh]
      split
      · rfl
      · rename_i hb'
        exact h.sb b ((Finset.mem_insert.mp hb).resolve_left hb')
    · rcases isFile_created hfile with rfl | hold
      · exact Finset.mem_insert_self b C
      · rw [sbOf_created henters hfresh] at hsb
        split at hsb
        · simp [*]
        · exact Finset.mem_insert_of_mem (h.files b hold hsb)
    · rw [sbOf_created henters hfresh] at hsb
      rcases mem_entriesOf_created henters hfresh he with hin | ⟨-, hea⟩
      · have hea : e.inode ≠ a := fun heq => hfs.live x e hin (heq ▸ hfresh)
        rw [if_neg hea] at hsb
        exact Finset.mem_insert_of_mem (h.entries x e hin hsb)
      · rw [hea]
        exact Finset.mem_insert_self a C
    · have hquota := hfs.quota d.sb
      have hlt : (fs.mountOf d.sb).used + 144 < 2 ^ 32 := by
        have := henters.quota
        omega
      have hnew : (fs.created a dir d entries count name type).priceOf a = 144 := by
        rw [priceOf, hblocks, blocksOf_none hfresh]
        rfl
      have hused := h.used
      rw [Finset.sum_insert ha, hnew, hprice, used_created, if_pos rfl, add32_eq hlt]
      omega
    · have hsum : ∑ b ∈ insert a C, ((fs.created a dir d entries count name type).blocksOf b).length =
          ∑ b ∈ C, (fs.blocksOf b).length := by
        rw [Finset.sum_insert ha, hblocks, blocksOf_none hfresh, List.length_nil, Nat.zero_add]
        exact Finset.sum_congr rfl fun b _ => by rw [hblocks]
      rw [hsum, quota_created]
      exact h.bound
  · refine ⟨C, fun b hb => ?_, fun b hfile hsb => ?_, fun x e he hsb => ?_, ?_, ?_⟩
    · rw [sbOf_created henters hfresh, if_neg (hne b hb)]
      exact h.sb b hb
    · rw [sbOf_created henters hfresh] at hsb
      split at hsb
      · exact absurd (Option.some.inj hsb).symm hi
      · rename_i hb
        exact h.files b ((isFile_created hfile).resolve_left hb) hsb
    · rw [sbOf_created henters hfresh] at hsb
      split at hsb
      · exact absurd (Option.some.inj hsb).symm hi
      · rename_i hea
        exact h.entries x e ((mem_entriesOf_created henters hfresh he).resolve_right fun h => hea h.2)
          hsb
    · rw [hprice, used_created, if_neg hi]
      exact h.used
    · simp only [hblocks, quota_created]
      exact h.bound

theorem isFile_deleted (h : fs.Removes dir d entries count name entry)
    (hb : (fs.deleted dir d entries count name entry).IsFile b) :
    b ≠ entry.inode ∧ fs.IsFile b := by
  obtain ⟨n, hn, htype⟩ := hb
  by_cases hx : b = entry.inode
  · rw [hx, inodes_deleted_gone] at hn
    cases hn
  refine ⟨hx, ?_⟩
  by_cases hdir : b = dir
  · subst hdir
    rw [inodes_deleted_dir hx] at hn
    cases hn
    cases htype
  · exact ⟨n, (inodes_deleted_of_ne hdir hx).symm.trans hn, htype⟩

/-- **A name is deleted**, with whatever it has. -/
theorem Charged.deleted (h : fs.Charged i C) (hfs : fs.Ok) (hbelongs : fs.Belongs)
    (hrem : fs.Removes dir d entries count name entry) :
    ∃ C', (fs.deleted dir d entries count name entry).Charged i C' := by
  have hdir : fs.sbOf dir = some d.sb := sbOf_eq hrem.inode
  have hsb : fs.sbOf entry.inode = some d.sb := (hbelongs.entry dir entry hrem.mem).trans hdir
  have hquota : ((fs.deleted dir d entries count name entry).mountOf i).quota =
      (fs.mountOf i).quota := quota_setUsed
  refine ⟨C.erase entry.inode, fun b hb => ?_, fun b hfile hb => ?_, fun x e he hb => ?_, ?_, ?_⟩
  · rw [sbOf_deleted hrem, if_neg (Finset.ne_of_mem_erase hb)]
    exact h.sb b (Finset.mem_of_mem_erase hb)
  · obtain ⟨hne, hold⟩ := isFile_deleted hrem hfile
    rw [sbOf_deleted hrem, if_neg hne] at hb
    exact Finset.mem_erase.mpr ⟨hne, h.files b hold hb⟩
  · have hne := hfs.deleted_unlinked hrem he
    rw [sbOf_deleted hrem, if_neg hne] at hb
    exact Finset.mem_erase.mpr ⟨hne, h.entries x e ((entriesOf_deleted_sublist hrem).subset he) hb⟩
  · have hsame : ∑ b ∈ C.erase entry.inode, (fs.deleted dir d entries count name entry).priceOf b =
        ∑ b ∈ C.erase entry.inode, fs.priceOf b := by
      refine Finset.sum_congr rfl fun b hb => ?_
      rw [priceOf, priceOf, blocksOf_deleted hrem (Finset.ne_of_mem_erase hb)]
    have hused := h.used
    rw [hsame, used_deleted]
    split
    · rename_i hi
      have hC : entry.inode ∈ C := h.entries dir entry hrem.mem (hi ▸ hsb)
      have hsum := Finset.sum_erase_add C fs.priceOf hC
      have hprice : 144 ≤ fs.priceOf entry.inode := Nat.le_add_right _ _
      rw [sub32_eq (by omega) (hfs.used i)]
      omega
    · exact (Finset.sum_le_sum_of_subset (Finset.erase_subset _ _)).trans hused
  · have hle : ∑ b ∈ C.erase entry.inode,
        ((fs.deleted dir d entries count name entry).blocksOf b).length ≤
          ∑ b ∈ C, (fs.blocksOf b).length := by
      refine le_trans (Finset.sum_le_sum fun b hb => ?_)
        (Finset.sum_le_sum_of_subset (Finset.erase_subset entry.inode C))
      rw [blocksOf_deleted hrem (Finset.ne_of_mem_erase hb)]
    rw [hquota]
    rcases h.bound with hzero | hlt
    · exact Or.inl (Nat.eq_zero_of_le_zero (hzero ▸ hle))
    · exact Or.inr (by omega)

/-- **A file gets other blocks**: new ones only below the quota. -/
theorem Charged.rewritten (h : fs.Charged i C) (hfile : fs.FileAt a n blocks)
    (hused : i = n.sb → (fs.mountOf i).used + 24 * blocks'.length ≤ used + 24 * blocks.length)
    (hmore : i = n.sb → blocks'.length ≤ blocks.length ∨ used < (fs.mountOf i).quota + 24) :
    (fs.rewritten a n blocks' used).Charged i C := by
  have ha : fs.sbOf a = some n.sb := sbOf_eq hfile.inode
  have hisFile : ∀ b, (fs.rewritten a n blocks' used).IsFile b → fs.IsFile b := by
    rintro b ⟨m, hm, htype⟩
    by_cases hb : b = a
    · subst hb
      exact isFile_iff.mpr ⟨n, blocks, _, hfile.inode, hfile.data⟩
    · exact ⟨m, (inodes_rewritten_of_ne hb).symm.trans hm, htype⟩
  have hquota : ((fs.rewritten a n blocks' used).mountOf i).quota = (fs.mountOf i).quota :=
    quota_setUsed
  have hold : (fs.blocksOf a).length = blocks.length := by
    rw [blocksOf_file hfile.inode hfile.data]
  have hnew : ((fs.rewritten a n blocks' used).blocksOf a).length = blocks'.length := by
    rw [blocksOf_rewritten_self]
  have hrest : ∀ b ∈ C, b ≠ a → ((fs.rewritten a n blocks' used).blocksOf b).length =
      (fs.blocksOf b).length := fun b _ hb => by rw [blocksOf_rewritten_of_ne hb]
  have hsbs : (∀ b ∈ C, (fs.rewritten a n blocks' used).sbOf b = some i) ∧
      (∀ b, (fs.rewritten a n blocks' used).IsFile b →
        (fs.rewritten a n blocks' used).sbOf b = some i → b ∈ C) ∧
      ∀ x, ∀ e ∈ (fs.rewritten a n blocks' used).entriesOf x,
        (fs.rewritten a n blocks' used).sbOf e.inode = some i → e.inode ∈ C := by
    refine ⟨fun b hb => ?_, fun b hb hsb => ?_, fun x e he hsb => ?_⟩
    · rw [sbOf_rewritten hfile]
      exact h.sb b hb
    · rw [sbOf_rewritten hfile] at hsb
      exact h.files b (hisFile b hb) hsb
    · rw [sbOf_rewritten hfile] at hsb
      rw [entriesOf_rewritten hfile] at he
      exact h.entries x e he hsb
  obtain ⟨hsb, hfiles, hentries⟩ := hsbs
  have hprev := h.used
  rw [sum_priceOf] at hprev
  by_cases hi : i = n.sb
  · have haC : a ∈ C := h.files a (isFile_iff.mpr ⟨n, blocks, _, hfile.inode, hfile.data⟩) (hi ▸ ha)
    have hchange := sum_change (fun b => (fs.blocksOf b).length)
      (fun b => ((fs.rewritten a n blocks' used).blocksOf b).length) haC hrest
    have hle := hused hi
    have hcard : 1 ≤ C.card := Finset.card_pos.mpr ⟨a, haC⟩
    simp only [hold, hnew] at hchange
    have htotal : 144 * C.card +
        24 * ∑ b ∈ C, ((fs.rewritten a n blocks' used).blocksOf b).length ≤ used := by omega
    refine ⟨hsb, hfiles, hentries, ?_, ?_⟩
    · rw [sum_priceOf, used_rewritten, if_pos hi]
      exact htotal
    · rw [hquota]
      rcases hmore hi with hfewer | hbelow
      · rcases h.bound with hzero | hlt
        · exact Or.inl (by omega)
        · exact Or.inr (by omega)
      · exact Or.inr (by omega)
  · have hne : ∀ b ∈ C, b ≠ a := by
      rintro b hb rfl
      exact hi (Option.some.inj ((h.sb b hb).symm.trans ha))
    have hsame : ∑ b ∈ C, ((fs.rewritten a n blocks' used).blocksOf b).length =
        ∑ b ∈ C, (fs.blocksOf b).length := Finset.sum_congr rfl fun b hb => hrest b hb (hne b hb)
    refine ⟨hsb, hfiles, hentries, ?_, ?_⟩
    · rw [sum_priceOf, hsame, used_rewritten, if_neg hi]
      exact hprev
    · rw [hsame, hquota]
      exact h.bound

/-- **A mount is made**: a root is charged nothing. -/
theorem Charged.mounted {path : CString} {quota j : Nat} (hbelongs : fs.Belongs) (hfs : fs.Ok)
    (hfresh : fs.inodes a = none) (h : ∀ i < fs.mountCount, ∃ C, fs.Charged i C) :
    ∃ C, (fs.mounted a path quota j).Charged i C := by
  have hisFile : ∀ b, (fs.mounted a path quota j).IsFile b → b ≠ a ∧ fs.IsFile b := by
    rintro b ⟨m, hm, htype⟩
    by_cases hb : b = a
    · subst hb
      have hself : (fs.mounted b path quota j).inodes b = _ := inodes_createInode_self
      rw [hself] at hm
      cases hm
      cases htype
    · exact ⟨hb, m, (inodes_mounted_of_ne hb).symm.trans hm, htype⟩
  have hentry : ∀ x, ∀ e ∈ (fs.mounted a path quota j).entriesOf x, e ∈ fs.entriesOf x ∧ e.inode ≠ a := by
    intro x e he
    rw [entriesOf_mounted hfresh] at he
    exact ⟨he, fun heq => hfs.live x e he (heq ▸ hfresh)⟩
  by_cases hold : i < fs.mountCount
  · obtain ⟨C, hC⟩ := h i hold
    have hne : ∀ b ∈ C, b ≠ a := by
      rintro b hb rfl
      cases (sbOf_eq_none.mpr hfresh).symm.trans (hC.sb b hb)
    have hblocks : ∀ b ∈ C, (fs.mounted a path quota j).blocksOf b = fs.blocksOf b :=
      fun b hb => blocksOf_congr (inodes_mounted_of_ne (hne b hb))
    have hmount : ((fs.mounted a path quota j).mountOf i).used = (fs.mountOf i).used ∧
        ((fs.mounted a path quota j).mountOf i).quota = (fs.mountOf i).quota := by
      rw [FileSystem.mounted, mountOf_setRoot, mountOf_createInode_used.1, mountOf_createInode_used.2,
        mountOf, mountTable_enterMount_of_ne hold.ne]
      exact ⟨rfl, rfl⟩
    refine ⟨C, fun b hb => ?_, fun b hb hsb => ?_, fun x e he hsb => ?_, ?_, ?_⟩
    · rw [sbOf_mounted, if_neg (hne b hb)]
      exact hC.sb b hb
    · rw [sbOf_mounted, if_neg (hisFile b hb).1] at hsb
      exact hC.files b (hisFile b hb).2 hsb
    · rw [sbOf_mounted, if_neg (hentry x e he).2] at hsb
      exact hC.entries x e (hentry x e he).1 hsb
    · rw [hmount.1]
      refine le_trans (Finset.sum_le_sum fun b hb => ?_) hC.used
      rw [priceOf, priceOf, hblocks b hb]
    · rw [hmount.2, Finset.sum_congr rfl fun b hb => congrArg List.length (hblocks b hb)]
      exact hC.bound
  · -- the new mount: nothing belonged to it before
    have hnone : ∀ b, fs.sbOf b ≠ some i := fun b hb => hold (hbelongs.mount b i hb)
    refine ⟨∅, by simp, fun b hb hsb => ?_, fun x e he hsb => ?_, by simp, by simp⟩
    · rw [sbOf_mounted, if_neg (hisFile b hb).1] at hsb
      exact absurd hsb (hnone b)
    · rw [sbOf_mounted, if_neg (hentry x e he).2] at hsb
      exact absurd hsb (hnone _)

end FileSystem

/-! ## 2. Charges over runs -/

/-- Every mount is charged for what it holds. -/
structure FileSystem.Priced (fs : FileSystem) : Prop where
  belongs : fs.Belongs
  charged : ∀ i < fs.mountCount, ∃ C, fs.Charged i C

section Priced

variable {fs fs' : FileSystem} {a : Nat} {c : Call}

theorem Mutation.priced (h : Mutation fs fs') (hfs : fs.Ok) (hp : fs.Priced) : fs'.Priced := by
  refine ⟨h.belongs hfs hp.belongs, fun i hi => ?_⟩
  rw [h.mountCount] at hi
  obtain ⟨C, hC⟩ := hp.charged i hi
  cases h with
  | create henters ha hfresh => exact hC.created hfs henters hfresh
  | @write a n blocks blocks' used hwrites =>
    have hcharge := hwrites.charge_eq hfs
    refine ⟨C, hC.rewritten hwrites.file (fun hi => ?_) fun hi => ?_⟩
    · rw [hi]
      exact hcharge.ge
    · have hquota := hfs.quota n.sb
      have hmore := hwrites.more
      rw [hi]
      rcases hwrites.quota (by unfold sizeofShadowfsBlock; omega) with heq | hlt
      · exact Or.inl heq.le
      · unfold sizeofShadowfsBlock at hlt
        exact Or.inr (by omega)
  | @truncate a n blocks hfile =>
    refine ⟨C, hC.rewritten hfile (fun hi => ?_) fun _ => Or.inl (Nat.zero_le _)⟩
    subst hi
    have haC : a ∈ C := hC.files a
      (FileSystem.isFile_iff.mpr ⟨n, blocks, _, hfile.inode, hfile.data⟩)
      (FileSystem.sbOf_eq hfile.inode)
    have hle : fs.priceOf a ≤ (fs.mountOf n.sb).used :=
      (Finset.single_le_sum (f := fs.priceOf) (fun b _ => Nat.zero_le _) haC).trans hC.used
    rw [FileSystem.priceOf, FileSystem.blocksOf_file hfile.inode hfile.data] at hle
    unfold sizeofShadowfsBlock
    rw [sub32_eq (by omega) (hfs.used _)]
    simp only [List.length_nil]
    omega
  | files => exact ⟨C, hC.sb, hC.files, hC.entries, hC.used, hC.bound⟩

/-- **Every step keeps the charges.** -/
theorem Effect.priced (h : Effect fs a c fs') (hfs : fs.Ok) (hfresh : fs.inodes a = none)
    (hp : fs.Priced) : fs'.Priced := by
  cases h with
  | mutation hmut hkeeps =>
    have hboth : fs'.Ok ∧ fs'.Priced :=
      reach_invariant (I := fun fs => fs.Ok ∧ fs.Priced) hmut ⟨hfs, hp⟩
        fun _ _ hI hstep => ⟨hstep.ok hI.1, hstep.priced hI.1 hI.2⟩
    exact hboth.2
  | delete hdel =>
    obtain ⟨_, _, _, _, _, _, -, -, hrem, rfl⟩ := hdel
    refine ⟨hp.belongs.deleted hfs hrem, fun i hi => ?_⟩
    obtain ⟨C, hC⟩ := hp.charged i hi
    exact hC.deleted hfs hp.belongs hrem
  | mount hquota hnew hi =>
    have hle := Nat.le_of_lt_succ (findMount_eq_some.mp hi).lt
    exact ⟨hp.belongs.mounted hfs hfresh hle,
      fun i _ => FileSystem.Charged.mounted hp.belongs hfs hfresh hp.charged⟩

theorem Reached.priced {P : FileSystem → Call → Prop} (h : Reached P fs) : fs.Priced := by
  have hboth : fs.Ok ∧ fs.Priced := by
    refine reach_invariant (I := fun fs => fs.Ok ∧ fs.Priced) h
      ⟨vfsInit_ok, vfsInit_belongs, fun i hi => nomatch hi⟩ fun fs fs' hfs hstep => ⟨hstep.ok hfs.1, ?_⟩
    obtain ⟨a, c, r, ha, hfresh, hsized, -, h⟩ := hstep
    exact ((vfsCall_spec hfs.1 ha hfresh hsized).of_ok h).priced hfs.1 hfresh hfs.2
  exact hboth.2

end Priced

/-! ## 3. The bound -/

/-- The pages held for the files of the mount `i` are within its quota `q` and one block more, and no file
is longer than `SHADOWFS_MAX_FILESIZE`. -/
def WithinQuota (fs : FileSystem) (i q : Nat) : Prop :=
  (∀ S : Finset Nat, (∀ b ∈ S, fs.sbOf b = some i) →
    shadowfsBlockSize * ∑ b ∈ S, (fs.blocksOf b).length ≤ q + shadowfsBlockSize) ∧
  ∀ b n blocks, fs.FileAt b n blocks → n.sb = i → (bytesOf blocks).length ≤ shadowfsMaxFilesize

theorem length_bytesOf_le {blocks : List ShadowfsBlock} (h : BlocksOk blocks) :
    (bytesOf blocks).length ≤ shadowfsBlockSize * blocks.length ∧
      shadowfsBlockSize * blocks.length < (bytesOf blocks).length + shadowfsBlockSize := by
  have hbounds := h.packed.length_bounds
  rw [List.length_map] at hbounds
  rcases hbounds with hle | hnil
  · exact hle
  · obtain rfl := List.map_eq_nil_iff.mp hnil
    decide

/-- With a quota of one file and one block, there is never more than one block. -/
theorem withinQuota_of_le {fs : FileSystem} {i q : Nat} (hp : fs.Priced) (hi : i < fs.mountCount)
    (hq : (fs.mountOf i).quota = q) (hle : q ≤ 168) : WithinQuota fs i q := by
  obtain ⟨C, hC⟩ := hp.charged i hi
  have hone : ∑ b ∈ C, (fs.blocksOf b).length ≤ 1 := by
    rcases hC.bound with hzero | hlt
    · omega
    · omega
  -- what has blocks is a file, and every file is in `C`
  have hzero : ∀ b, fs.sbOf b = some i → b ∉ C → (fs.blocksOf b).length = 0 := by
    intro b hsb hb
    cases hn : fs.inodes b with
    | none => rw [FileSystem.blocksOf_none hn, List.length_nil]
    | some n =>
      cases hdata : n.privateData with
      | file blocks count =>
        exact absurd (hC.files b (FileSystem.isFile_iff.mpr ⟨n, blocks, count, hn, hdata⟩) hsb) hb
      | dir entries count => rw [FileSystem.blocksOf_dir hn hdata, List.length_nil]
  constructor
  · intro S hS
    have hsum : ∑ b ∈ S, (fs.blocksOf b).length ≤ ∑ b ∈ C, (fs.blocksOf b).length :=
      Finset.sum_le_sum_of_ne_zero fun b hb hne => by
        by_contra hnot
        exact hne (hzero b (hS b hb) hnot)
    unfold shadowfsBlockSize
    omega
  · intro b n blocks hfile hsb
    have hb : b ∈ C := hC.files b (FileSystem.isFile_iff.mpr ⟨n, blocks, _, hfile.inode, hfile.data⟩)
      (hsb ▸ FileSystem.sbOf_eq hfile.inode)
    have hblocks : (fs.blocksOf b).length ≤ 1 :=
      (Finset.single_le_sum (f := fun b => (fs.blocksOf b).length) (fun b _ => Nat.zero_le _) hb).trans
        hone
    rw [FileSystem.blocksOf_file hfile.inode hfile.data] at hblocks
    have hlen := (length_bytesOf_le hfile.ok).1
    unfold shadowfsBlockSize at hlen
    unfold shadowfsMaxFilesize
    omega

/-! ### A larger quota -/

/-- A mount of quota `q` at `/temp`, with the file `/temp/f` open. -/
def quotaFs (q : Nat) : FileSystem := FileSystem.vfsInit.mounted 0x1000 tempPath q 0

def quotaFileFs (q : Nat) : FileSystem :=
  ((quotaFs q).created 0x2000 0x1000 ⟨1, 0, 0, .dir [] 0⟩ [] 0 [0x66] .file).setFile 3
    (some ⟨0x2000, 0, oCreat ||| oRdwr⟩)

/-- The same with blocks in the file. -/
def quotaFilledFs (q : Nat) (blocks : List ShadowfsBlock) (used position : Nat) : FileSystem :=
  (((quotaFileFs q).setInode 0x2000 (Inode.withBlocks ⟨2, 0, 0, .file [] 0⟩ blocks)).setUsed 0
    used).setFile 3 (some ⟨0x2000, position, oCreat ||| oRdwr⟩)

theorem quotaFileFs_reached {q : Nat} (hpos : 0 < q) (hq : q ≤ 2 ^ 31 - 2048) :
    Reached (fun _ _ => True) (quotaFileFs q) := by
  have hmount : vfsCall .vfsInit 0x1000 (.mount 1048575 tempPath q) = .ok (.of 0, quotaFs q) := by
    have hquota : ¬ q > 1048575 * 4096 % 2 ^ 32 / 2 := by omega
    simp only [vfsCall, shadowfsMount, if_neg hquota]
    rfl
  have henters : (quotaFs q).Enters 0x1000 ⟨1, 0, 0, .dir [] 0⟩ [] 0 [0x66] :=
    ⟨rfl, rfl, hpos, by simp⟩
  have hopen : vfsCall (quotaFs q) 0x2000 (.open (tempPath ++ [0x2F, 0x66]) (oCreat ||| oRdwr)) =
      .ok (.of 3, quotaFileFs q) := by
    have hres : vfsResolvePath (quotaFs q) (tempPath ++ [0x2F, 0x66]) = .ok none := by rfl
    have hsplit : splitPath (tempPath ++ [0x2F, 0x66]) = .ok (tempPath, [0x66]) := by decide +kernel
    have hpar : vfsResolvePath (quotaFs q) tempPath = .ok (some 0x1000) := by rfl
    have hflag : ¬ ¬ Sets (oCreat ||| oRdwr) oCreat := by decide
    have hfind : vfsFindOrCreate (quotaFs q) 0x2000 (tempPath ++ [0x2F, 0x66]) (oCreat ||| oRdwr) =
        .ok (some 0x2000, (quotaFs q).created 0x2000 0x1000 ⟨1, 0, 0, .dir [] 0⟩ [] 0 [0x66] .file) := by
      simp only [vfsFindOrCreate, hres, bind, Except.bind, if_neg hflag, hsplit, hpar]
      exact shadowfsCreate_of_enters henters
    simp only [vfsCall, vfsOpen, vfsOpenFile, hfind, bind, Except.bind]
    rfl
  have hsized : (Call.mount 1048575 tempPath q).Sized := by
    unfold Call.Sized
    omega
  have hfirst : CallStep (fun _ _ => True) .vfsInit (quotaFs q) :=
    ⟨0x1000, _, _, by decide, rfl, hsized, trivial, hmount⟩
  have hsecond : CallStep (fun _ _ => True) (quotaFs q) (quotaFileFs q) :=
    ⟨0x2000, .open (tempPath ++ [0x2F, 0x66]) (oCreat ||| oRdwr), _, by decide, rfl, trivial, trivial,
      hopen⟩
  exact (ReflTransGen.single hfirst).tail hsecond

/-- **One write is enough** to hold more than a quota of 169 or more allows. -/
theorem quota_overrun {q : Nat} (hlow : 169 ≤ q) (hq : q ≤ 2 ^ 31 - 2048) :
    ∃ fs, Reached (fun _ _ => True) fs ∧ 0 < fs.mountCount ∧ (fs.mountOf 0).quota = q ∧
      ¬ WithinQuota fs 0 q := by
  obtain ⟨buf, hbuf⟩ : ∃ buf : List (BitVec 8), buf.length = 4096 * (q / 4096 + 2) :=
    ⟨List.replicate _ 0, List.length_replicate⟩
  have hfile : (quotaFileFs q).FileAt 0x2000 ⟨2, 0, 0, .file [] 0⟩ [] := ⟨rfl, rfl, blocksOk_nil, rfl⟩
  have hopen : vfsGetFile (quotaFileFs q) 3 = some ⟨0x2000, 0, oCreat ||| oRdwr⟩ := by rfl
  have hfile' : (quotaFileFs q).FileAt (⟨0x2000, 0, oCreat ||| oRdwr⟩ : File).inode
      ⟨2, 0, 0, .file [] 0⟩ [] := hfile
  obtain ⟨k, position, blocks, used, hk, hwrite, -, hok, hbytes, hend, -, hused, hcap⟩ :=
    shadowfsWrite_spec hfile' (by omega : buf.length < 2 ^ 32)
  -- the file has more blocks than the quota would allow if they counted their size
  have hmany : q + 4096 < 4096 * blocks.length := by
    have hlen := (length_bytesOf_le hok).1
    rw [hbytes, bytesOf_nil, List.nil_append, List.length_take, Nat.min_eq_left hk] at hlen
    have hquota : ((quotaFileFs q).mountOf 0).quota = q := rfl
    have hcharged : ((quotaFileFs q).mountOf 0).used = 144 := rfl
    simp only [hquota, hcharged, sizeofShadowfsBlock, List.length_nil, Nat.sub_zero] at hend hused hcap
    unfold shadowfsBlockSize at hlen
    rcases hend with hall | hfull
    · omega
    · rcases hcap (by omega) with hzero | hlt
      · rw [hzero, grow32_eq (by omega)] at hused
        omega
      · rw [grow32_eq (by omega)] at hused
        omega
  have hcall : vfsCall (quotaFileFs q) 0x3000 (.write 3 buf) =
      .ok (.of (toInt32 k), quotaFilledFs q blocks used position) := by
    have hflags : ¬ (oCreat ||| oRdwr = oRdonly) := by decide
    simp only [vfsCall, vfsWrite, hopen, if_neg hflags, hwrite, bind, Except.bind]
    rfl
  have hsized : (Call.write 3 buf).Sized := by
    unfold Call.Sized
    omega
  refine ⟨quotaFilledFs q blocks used position, (quotaFileFs_reached (by omega) hq).tail
    ⟨0x3000, _, _, by decide, rfl, hsized, trivial, hcall⟩, Nat.one_pos, rfl, fun hwithin => ?_⟩
  have hsum := hwithin.1 {0x2000} fun b hb => by
    rw [Finset.mem_singleton.mp hb]
    rfl
  have hblocks : (quotaFilledFs q blocks used position).blocksOf 0x2000 = blocks := rfl
  rw [Finset.sum_singleton, hblocks] at hsum
  unfold shadowfsBlockSize at hsum
  omega

end AcornOS
