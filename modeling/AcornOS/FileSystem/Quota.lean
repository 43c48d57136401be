/-
# The quota

What `mount->used` counts, and what it does not.

* **Accounting.**  Creating a name charges 144 bytes and a block 24; deleting a name gives back 144,
  whatever was in it: the blocks of a file stay charged, and what was in a directory stays charged AND
  allocated.  `used` is what can be reached from the root (`Tally`) as long as only empty things are
  deleted.
* **Memory.**  A block of 4096 bytes is charged 24, so that a quota of `q` allows about `170 q` bytes.
  `Charged` is what is true of every run: every file that is there has been charged for, and for its
  blocks.
-/
import AcornOS.FileSystem.Namespace

namespace AcornOS

open Lib Relation

/-! ## 1. Charges -/

/-- One summand changes. -/
theorem sum_change {T : Finset Nat} {x : Nat} (w w' : Nat → Nat) (hx : x ∈ T)
    (h : ∀ b ∈ T, b ≠ x → w' b = w b) : ∑ b ∈ T, w' b + w x = ∑ b ∈ T, w b + w' x := by
  have hrest : ∑ b ∈ T.erase x, w' b = ∑ b ∈ T.erase x, w b := by
    refine Finset.sum_congr rfl fun b hb => ?_
    exact h b (Finset.mem_of_mem_erase hb) (Finset.ne_of_mem_erase hb)
  rw [← Finset.sum_erase_add T w' hx, ← Finset.sum_erase_add T w hx, hrest]
  omega

namespace FileSystem

variable {fs : FileSystem} {a b dir i used count : Nat} {d n : Inode} {entries : List ShadowfsDentry}
  {blocks blocks' : List ShadowfsBlock} {name : CString} {type : VfsType} {entry : ShadowfsDentry}

theorem used_created : ((fs.created a dir d entries count name type).mountOf i).used =
    if i = d.sb then add32 (fs.mountOf i).used 144 else (fs.mountOf i).used := by
  rw [created, used_setUsed]
  split
  · rename_i h
    rw [mountOf_setInode, mountOf_createInode_used.1, h]
    rfl
  · rw [mountOf_setInode, mountOf_createInode_used.1]

theorem used_deleted : ((fs.deleted dir d entries count name entry).mountOf i).used =
    if i = d.sb then sub32 (fs.mountOf i).used 144 else (fs.mountOf i).used := by
  rw [deleted, used_setUsed]
  split
  · rename_i h
    rw [h]
    rfl
  · rfl

theorem quota_created : ((fs.created a dir d entries count name type).mountOf i).quota =
    (fs.mountOf i).quota := by
  rw [created, quota_setUsed, mountOf_setInode, mountOf_createInode_used.2]

theorem blocksOf_deleted (h : fs.Removes dir d entries count name entry) (hb : b ≠ entry.inode) :
    (fs.deleted dir d entries count name entry).blocksOf b = fs.blocksOf b := by
  by_cases hdir : b = dir
  · subst hdir
    rw [blocksOf_dir (inodes_deleted_dir hb) rfl, blocksOf_dir h.inode h.data]
  · exact blocksOf_congr (inodes_deleted_of_ne hdir hb)

/-! ## 2. Mounts and their inodes -/

/-- The mount an inode belongs to. -/
def sbOf (fs : FileSystem) (x : Nat) : Option Nat := (fs.inodes x).map Inode.sb

theorem sbOf_eq (h : fs.inodes a = some n) : fs.sbOf a = some n.sb := by
  rw [sbOf, h]
  rfl

theorem sbOf_eq_none : fs.sbOf a = none ↔ fs.inodes a = none := Option.map_eq_none_iff

theorem sbOf_created (h : fs.Enters dir d entries count name) (hfresh : fs.inodes a = none) :
    (fs.created a dir d entries count name type).sbOf b = if b = a then some d.sb else fs.sbOf b := by
  by_cases ha : b = a
  · subst ha
    rw [if_pos rfl, sbOf_eq (inodes_created_new (h.ne hfresh))]
    rfl
  rw [if_neg ha]
  by_cases hdir : b = dir
  · subst hdir
    rw [sbOf_eq inodes_created_dir, sbOf_eq h.inode]
  · rw [sbOf, inodes_created_of_ne hdir ha]
    rfl

theorem sbOf_deleted (h : fs.Removes dir d entries count name entry) :
    (fs.deleted dir d entries count name entry).sbOf b =
      if b = entry.inode then none else fs.sbOf b := by
  by_cases hb : b = entry.inode
  · subst hb
    rw [if_pos rfl, sbOf, inodes_deleted_gone]
    rfl
  rw [if_neg hb]
  by_cases hdir : b = dir
  · subst hdir
    rw [sbOf_eq (inodes_deleted_dir hb), sbOf_eq h.inode]
  · rw [sbOf, inodes_deleted_of_ne hdir hb]
    rfl

theorem sbOf_rewritten (h : fs.FileAt a n blocks) :
    (fs.rewritten a n blocks' used).sbOf b = fs.sbOf b := by
  by_cases hb : b = a
  · subst hb
    rw [sbOf_eq inodes_rewritten_self, sbOf_eq h.inode]
    rfl
  · rw [sbOf, inodes_rewritten_of_ne hb]
    rfl

theorem sbOf_mounted {path : CString} {quota : Nat} :
    (fs.mounted a path quota i).sbOf b = if b = a then some i else fs.sbOf b := by
  by_cases hb : b = a
  · subst hb
    rw [if_pos rfl]
    exact sbOf_eq inodes_createInode_self
  · rw [if_neg hb, sbOf, inodes_mounted_of_ne hb]
    rfl

theorem entriesOf_mounted {path : CString} {quota : Nat} (hfresh : fs.inodes a = none) :
    (fs.mounted a path quota i).entriesOf b = fs.entriesOf b := by
  have hfresh' : (fs.enterMount path ⟨quota, 0, 1⟩).inodes a = none := hfresh
  exact entriesOf_createInode hfresh'

/-- Entries belong to the mount of their directory, and every inode to some mount. -/
structure Belongs (fs : FileSystem) : Prop where
  entry : ∀ x, ∀ e ∈ fs.entriesOf x, fs.sbOf e.inode = fs.sbOf x
  mount : ∀ x s, fs.sbOf x = some s → s < fs.mountCount

theorem Belongs.created (hb : fs.Belongs) (hfs : fs.Ok) (h : fs.Enters dir d entries count name)
    (hfresh : fs.inodes a = none) : (fs.created a dir d entries count name type).Belongs := by
  constructor
  · intro x e he
    rw [sbOf_created h hfresh, sbOf_created h hfresh]
    rcases mem_entriesOf_created h hfresh he with hin | ⟨rfl, hea⟩
    · -- an old entry is no entry of the new inode, nor does it lead there
      have hx : x ≠ a := by
        rintro rfl
        rw [entriesOf_none hfresh] at hin
        cases hin
      have hea : e.inode ≠ a := fun heq => hfs.live x e hin (heq ▸ hfresh)
      rw [if_neg hx, if_neg hea]
      exact hb.entry x e hin
    · rw [if_pos hea, if_neg (h.ne hfresh).symm, sbOf_eq h.inode]
  · intro x s hs
    rw [sbOf_created h hfresh] at hs
    split at hs
    · cases hs
      exact hb.mount dir d.sb (sbOf_eq h.inode)
    · exact hb.mount x s hs

theorem Belongs.deleted (hb : fs.Belongs) (hfs : fs.Ok)
    (h : fs.Removes dir d entries count name entry) :
    (fs.deleted dir d entries count name entry).Belongs := by
  constructor
  · intro x e he
    have hx : x ≠ entry.inode := by
      rintro rfl
      rw [entriesOf_none inodes_deleted_gone] at he
      cases he
    rw [sbOf_deleted h, sbOf_deleted h, if_neg hx, if_neg (hfs.deleted_unlinked h he)]
    exact hb.entry x e ((entriesOf_deleted_sublist h).subset he)
  · intro x s hs
    rw [sbOf_deleted h] at hs
    split at hs
    · cases hs
    · exact hb.mount x s hs

theorem Belongs.rewritten (hb : fs.Belongs) (h : fs.FileAt a n blocks) :
    (fs.rewritten a n blocks' used).Belongs := by
  constructor
  · intro x e he
    rw [entriesOf_rewritten h] at he
    rw [sbOf_rewritten h, sbOf_rewritten h]
    exact hb.entry x e he
  · intro x s hs
    rw [sbOf_rewritten h] at hs
    exact hb.mount x s hs

theorem Belongs.mounted {path : CString} {quota : Nat} (hb : fs.Belongs) (hfs : fs.Ok)
    (hfresh : fs.inodes a = none) (hi : i ≤ fs.mountCount) : (fs.mounted a path quota i).Belongs := by
  constructor
  · intro x e he
    rw [entriesOf_mounted hfresh] at he
    have hx : x ≠ a := by
      rintro rfl
      rw [entriesOf_none hfresh] at he
      cases he
    have hea : e.inode ≠ a := fun heq => hfs.live x e he (heq ▸ hfresh)
    rw [sbOf_mounted, sbOf_mounted, if_neg hx, if_neg hea]
    exact hb.entry x e he
  · intro x s hs
    rw [sbOf_mounted] at hs
    split at hs
    · cases hs
      exact Nat.lt_succ_of_le hi
    · exact Nat.lt_succ_of_lt (hb.mount x s hs)

end FileSystem

theorem Mutation.belongs {fs fs' : FileSystem} (hmut : Mutation fs fs') (hfs : fs.Ok)
    (hb : fs.Belongs) : fs'.Belongs := by
  cases hmut with
  | create h ha hfresh => exact hb.created hfs h hfresh
  | write h => exact hb.rewritten h.file
  | truncate h => exact hb.rewritten h
  | files => exact ⟨hb.entry, hb.mount⟩

/-! ## 3. What can be reached -/

namespace FileSystem

/-- `b` can be reached from `r` along entries. -/
def Below (fs : FileSystem) : Nat → Nat → Prop :=
  ReflTransGen fun x y => ∃ e ∈ fs.entriesOf x, e.inode = y

variable {fs fs' : FileSystem} {a b dir i r used count : Nat} {d n : Inode}
  {entries : List ShadowfsDentry} {blocks blocks' : List ShadowfsBlock} {name : CString}
  {type : VfsType} {entry : ShadowfsDentry} {T : Finset Nat}

/-- A set with `r` in it, closed under entries, holds all that can be reached. -/
theorem Below.mem {S : Set Nat} (h : fs.Below r b) (hr : r ∈ S)
    (hS : ∀ x ∈ S, ∀ e ∈ fs.entriesOf x, e.inode ∈ S) : b ∈ S := by
  refine reach_invariant (I := fun x => x ∈ S) h hr ?_
  rintro x y hx ⟨e, he, rfl⟩
  exact hS x hx e he

theorem Below.link (h : fs.Below r b) {e : ShadowfsDentry} (he : e ∈ fs.entriesOf b) :
    fs.Below r e.inode :=
  h.tail ⟨e, he, rfl⟩

/-- Nothing else can be reached from something empty. -/
theorem below_empty (h : fs.entriesOf r = []) : fs.Below r b ↔ b = r := by
  constructor
  · intro hb
    refine hb.mem (S := {r}) rfl fun x hx e he => ?_
    rw [Set.mem_singleton_iff.mp hx, h] at he
    cases he
  · rintro rfl
    exact .refl

/-- Reachability depends on the entries of what is reached. -/
theorem below_congr (h : ∀ x, fs.Below r x → fs'.entriesOf x = fs.entriesOf x) :
    fs'.Below r b ↔ fs.Below r b := by
  constructor
  · intro hb
    refine hb.mem (S := {x | fs.Below r x}) .refl fun x hx e he => ?_
    rw [h x hx] at he
    exact Below.link hx he
  · intro hb
    have hboth : fs.Below r b ∧ fs'.Below r b := by
      refine reach_invariant (I := fun x => fs.Below r x ∧ fs'.Below r x) hb ⟨.refl, .refl⟩ ?_
      rintro x y ⟨hx, hx'⟩ ⟨e, he, rfl⟩
      refine ⟨Below.link hx he, Below.link hx' ?_⟩
      rw [h x hx]
      exact he
    exact hboth.2

/-- What the entries and blocks of an inode are charged. -/
def chargeOf (fs : FileSystem) (x : Nat) : Nat :=
  144 * (fs.entriesOf x).length + 24 * (fs.blocksOf x).length

/-- The finite set `T` is what can be reached from the root of the mount `i`, and all that belongs to the
mount; `used` is its charge. -/
structure Tally (fs : FileSystem) (i : Nat) (T : Finset Nat) : Prop where
  root : (fs.mountTable i).root ≠ 0
  mem : ∀ b, b ∈ T ↔ fs.Below (fs.mountTable i).root b
  sb : ∀ b, b ∈ T ↔ fs.sbOf b = some i
  used : (fs.mountOf i).used = ∑ b ∈ T, fs.chargeOf b

/-- Nothing of the mount has changed. -/
theorem Tally.frame (h : fs.Tally i T) (hroot : (fs'.mountTable i).root = (fs.mountTable i).root)
    (hsb : ∀ b, fs'.sbOf b = some i ↔ fs.sbOf b = some i)
    (hused : (fs'.mountOf i).used = (fs.mountOf i).used)
    (hentries : ∀ b ∈ T, fs'.entriesOf b = fs.entriesOf b)
    (hblocks : ∀ b ∈ T, fs'.blocksOf b = fs.blocksOf b) : fs'.Tally i T where
  root := by
    rw [hroot]
    exact h.root
  mem b := by
    rw [h.mem, hroot]
    exact (below_congr fun x hx => hentries x ((h.mem x).mpr hx)).symm
  sb b := (h.sb b).trans (hsb b).symm
  used := by
    rw [hused, h.used]
    refine Finset.sum_congr rfl fun b hb => ?_
    rw [chargeOf, chargeOf, hentries b hb, hblocks b hb]

/-- What could be reached still can, and the new inode from its directory. -/
theorem Tally.below_created (h : fs.Tally d.sb T) (henters : fs.Enters dir d entries count name)
    (hfresh : fs.inodes a = none) (b : Nat) : b ∈ insert a T ↔
      (fs.created a dir d entries count name type).Below (fs.mountTable d.sb).root b := by
  have hdirT : dir ∈ T := (h.sb dir).mpr (sbOf_eq henters.inode)
  have hent : ∀ x, (fs.created a dir d entries count name type).entriesOf x = _ :=
    fun x => entriesOf_created henters hfresh
  constructor
  · have hold : ∀ x, fs.Below (fs.mountTable d.sb).root x →
        (fs.created a dir d entries count name type).Below (fs.mountTable d.sb).root x := by
      intro x hx
      refine hx.mem (S := {x | (fs.created a dir d entries count name type).Below _ x}) .refl ?_
      intro y hy e he
      refine Below.link hy ?_
      rw [hent]
      split
      · rename_i hyd
        exact List.mem_append_left _ (hyd ▸ he)
      · exact he
    intro hb
    rcases Finset.mem_insert.mp hb with rfl | hb
    · refine (hold dir ((h.mem dir).mp hdirT)).tail ⟨⟨kstrcpy name vfsMaxName, b⟩, ?_, rfl⟩
      rw [hent, if_pos rfl]
      simp
    · exact hold b ((h.mem b).mp hb)
  · intro hb
    refine hb.mem (S := ↑(insert a T)) ?_ fun x hx e he => ?_
    · exact Finset.mem_insert_of_mem ((h.mem _).mpr .refl)
    · rcases mem_entriesOf_created henters hfresh he with hin | ⟨-, hea⟩
      · rcases Finset.mem_insert.mp hx with rfl | hx
        · rw [entriesOf_none hfresh] at hin
          cases hin
        · exact Finset.mem_insert_of_mem ((h.mem _).mpr (Below.link ((h.mem x).mp hx) hin))
      · rw [hea]
        exact Finset.mem_insert_self a T

/-- A new entry is charged to its directory; the new inode is empty. -/
theorem Tally.used_created (h : fs.Tally d.sb T) (hfs : fs.Ok)
    (henters : fs.Enters dir d entries count name) (hfresh : fs.inodes a = none) (ha : a ∉ T) :
    ((fs.created a dir d entries count name type).mountOf d.sb).used =
      ∑ b ∈ insert a T, (fs.created a dir d entries count name type).chargeOf b := by
  have hdirT : dir ∈ T := (h.sb dir).mpr (sbOf_eq henters.inode)
  have hent : ∀ x, (fs.created a dir d entries count name type).entriesOf x = _ :=
    fun x => entriesOf_created henters hfresh
  have hquota := hfs.quota d.sb
  have hlt : (fs.mountOf d.sb).used + 144 < 2 ^ 32 := by
    have := henters.quota
    omega
  have hnew : (fs.created a dir d entries count name type).chargeOf a = 0 := by
    rw [chargeOf, hent, if_neg (henters.ne hfresh), blocksOf_created henters hfresh,
      entriesOf_none hfresh, blocksOf_none hfresh]
    rfl
  have hchange := sum_change fs.chargeOf
    (fs.created a dir d entries count name type).chargeOf hdirT fun b _ hb => by
      rw [chargeOf, chargeOf, hent, if_neg hb, blocksOf_created henters hfresh]
  have hdirCharge : (fs.created a dir d entries count name type).chargeOf dir =
      fs.chargeOf dir + 144 := by
    rw [chargeOf, chargeOf, hent, if_pos rfl, blocksOf_created henters hfresh, List.length_append,
      List.length_singleton]
    ring
  rw [Finset.sum_insert ha, hnew, FileSystem.used_created, if_pos rfl, add32_eq hlt, h.used]
  omega

/-- **A name is created.** -/
theorem Tally.created (h : fs.Tally i T) (hfs : fs.Ok) (henters : fs.Enters dir d entries count name)
    (hfresh : fs.inodes a = none) : ∃ T', (fs.created a dir d entries count name type).Tally i T' := by
  have hdir : fs.sbOf dir = some d.sb := sbOf_eq henters.inode
  have ha : a ∉ T := by
    intro ha
    rw [h.sb, sbOf_eq_none.mpr hfresh] at ha
    cases ha
  by_cases hi : i = d.sb
  · subst hi
    refine ⟨insert a T, ?_, fun b => ?_, fun b => ?_, h.used_created hfs henters hfresh ha⟩
    · rw [root_created]
      exact h.root
    · rw [root_created]
      exact h.below_created henters hfresh b
    · rw [sbOf_created henters hfresh, Finset.mem_insert, h.sb]
      by_cases hb : b = a
      · simp [hb]
      · simp [hb]
  · refine ⟨T, h.frame root_created (fun b => ?_) ?_ (fun b hb => ?_) fun b _ => ?_⟩
    · rw [sbOf_created henters hfresh]
      split
      · rename_i hb
        subst hb
        rw [sbOf_eq_none.mpr hfresh]
        simp [Ne.symm hi]
      · exact Iff.rfl
    · rw [FileSystem.used_created, if_neg hi]
    · have hbd : b ≠ dir := by
        rintro rfl
        rw [h.sb, hdir] at hb
        exact hi (Option.some.inj hb).symm
      rw [entriesOf_created henters hfresh, if_neg hbd]
    · exact blocksOf_created henters hfresh

/-- The entries that stay. -/
theorem mem_entriesOf_deleted (h : fs.Removes dir d entries count name entry) {x : Nat}
    {e : ShadowfsDentry} (he : e ∈ fs.entriesOf x) (hx : x ≠ entry.inode)
    (hne : e.inode ≠ entry.inode) :
    e ∈ (fs.deleted dir d entries count name entry).entriesOf x := by
  by_cases hdir : x = dir
  · subst hdir
    obtain ⟨l₁, l₂, hsplit, herase⟩ := h.split
    rw [entriesOf_dir (inodes_deleted_dir hx) rfl, herase]
    rw [hsplit] at he
    have hne' : e ≠ entry := fun heq => hne (heq ▸ rfl)
    simpa [hne'] using he
  · rw [entriesOf_congr (inodes_deleted_of_ne hdir hx)]
    exact he

/-- Nothing is reached through an empty inode. -/
theorem Tally.below_deleted (h : fs.Tally d.sb T) (hfs : fs.Ok)
    (hrem : fs.Removes dir d entries count name entry) (hnoentries : fs.entriesOf entry.inode = [])
    (b : Nat) : b ∈ T.erase entry.inode ↔
      (fs.deleted dir d entries count name entry).Below (fs.mountTable d.sb).root b := by
  rw [Finset.mem_erase, h.mem]
  constructor
  · rintro ⟨hne, hb⟩
    have hor : b = entry.inode ∨
        (fs.deleted dir d entries count name entry).Below (fs.mountTable d.sb).root b := by
      refine reach_invariant (I := fun y => y = entry.inode ∨
        (fs.deleted dir d entries count name entry).Below (fs.mountTable d.sb).root y) hb
        (Or.inr .refl) ?_
      rintro y z hy ⟨e, he, rfl⟩
      have hyx : y ≠ entry.inode := by
        rintro rfl
        rw [hnoentries] at he
        cases he
      by_cases hz : e.inode = entry.inode
      · exact Or.inl hz
      · exact Or.inr (Below.link (hy.resolve_left hyx) (mem_entriesOf_deleted hrem he hyx hz))
    exact hor.resolve_left hne
  · intro hb
    have hmem := hb.mem (S := ↑(T.erase entry.inode)) ?_ fun x hx e he => ?_
    · exact ⟨Finset.ne_of_mem_erase hmem, (h.mem b).mp (Finset.mem_of_mem_erase hmem)⟩
    · refine Finset.mem_erase.mpr ⟨?_, (h.mem _).mpr .refl⟩
      exact ((hfs.roots d.sb h.root).2 dir entry hrem.mem).symm
    · refine Finset.mem_erase.mpr ⟨hfs.deleted_unlinked hrem he, (h.mem _).mpr ?_⟩
      refine Below.link ((h.mem x).mp (Finset.mem_of_mem_erase hx)) ?_
      exact (entriesOf_deleted_sublist hrem).subset he

/-- The directory is charged for one entry less. -/
theorem Tally.used_deleted (h : fs.Tally d.sb T) (hfs : fs.Ok)
    (hrem : fs.Removes dir d entries count name entry) (hnoentries : fs.entriesOf entry.inode = [])
    (hnoblocks : fs.blocksOf entry.inode = []) :
    ((fs.deleted dir d entries count name entry).mountOf d.sb).used =
      ∑ b ∈ T.erase entry.inode, (fs.deleted dir d entries count name entry).chargeOf b := by
  have hdirT : dir ∈ T := (h.sb dir).mpr (sbOf_eq hrem.inode)
  have hdx : dir ≠ entry.inode := by
    intro heq
    have hmem := hrem.mem
    rw [heq, hnoentries] at hmem
    cases hmem
  have hgone : (fs.deleted dir d entries count name entry).chargeOf entry.inode = 0 := by
    rw [chargeOf, entriesOf_none inodes_deleted_gone, blocksOf_none inodes_deleted_gone]
    rfl
  have hchange := sum_change fs.chargeOf (fs.deleted dir d entries count name entry).chargeOf hdirT
    fun b _ hb => by
      by_cases hx : b = entry.inode
      · rw [hx, hgone, chargeOf, hnoentries, hnoblocks]
        rfl
      · rw [chargeOf, chargeOf, entriesOf_congr (inodes_deleted_of_ne hb hx),
          blocksOf_deleted hrem hx]
  have hdirCharge : fs.chargeOf dir =
      (fs.deleted dir d entries count name entry).chargeOf dir + 144 := by
    obtain ⟨l₁, l₂, hsplit, herase⟩ := hrem.split
    rw [chargeOf, chargeOf, blocksOf_deleted hrem hdx, entriesOf_dir (inodes_deleted_dir hdx) rfl,
      herase, hsplit, List.length_append, List.length_append, List.length_cons]
    ring
  have hle : 144 ≤ (fs.mountOf d.sb).used := by
    rw [h.used]
    have := Finset.single_le_sum (f := fs.chargeOf) (fun b _ => Nat.zero_le _) hdirT
    omega
  rw [Finset.sum_erase T hgone, FileSystem.used_deleted, if_pos rfl, sub32_eq hle (hfs.used d.sb), h.used]
  omega

/-- **An empty file or directory is deleted.** -/
theorem Tally.deleted (h : fs.Tally i T) (hfs : fs.Ok) (hbelongs : fs.Belongs)
    (hrem : fs.Removes dir d entries count name entry) (hnoentries : fs.entriesOf entry.inode = [])
    (hnoblocks : fs.blocksOf entry.inode = []) :
    ∃ T', (fs.deleted dir d entries count name entry).Tally i T' := by
  have hdir : fs.sbOf dir = some d.sb := sbOf_eq hrem.inode
  have hsb : fs.sbOf entry.inode = some d.sb := (hbelongs.entry dir entry hrem.mem).trans hdir
  by_cases hi : i = d.sb
  · subst hi
    refine ⟨T.erase entry.inode, ?_, fun b => ?_, fun b => ?_,
      h.used_deleted hfs hrem hnoentries hnoblocks⟩
    · rw [root_deleted]
      exact h.root
    · rw [root_deleted]
      exact h.below_deleted hfs hrem hnoentries b
    · rw [sbOf_deleted hrem, Finset.mem_erase, h.sb]
      by_cases hb : b = entry.inode
      · simp [hb]
      · simp [hb]
  · have hnot : ∀ b ∈ T, b ≠ dir ∧ b ≠ entry.inode := by
      intro b hb
      rw [h.sb] at hb
      constructor
      · rintro rfl
        exact hi (Option.some.inj (hb.symm.trans hdir))
      · rintro rfl
        exact hi (Option.some.inj (hb.symm.trans hsb))
    refine ⟨T, h.frame root_deleted (fun b => ?_) ?_ (fun b hb => ?_) fun b hb => ?_⟩
    · rw [sbOf_deleted hrem]
      split
      · rename_i hb
        rw [hb, hsb]
        simp [Ne.symm hi]
      · exact Iff.rfl
    · rw [FileSystem.used_deleted, if_neg hi]
    · exact entriesOf_congr (inodes_deleted_of_ne (hnot b hb).1 (hnot b hb).2)
    · exact blocksOf_deleted hrem (hnot b hb).2

/-- **A file gets other blocks**, and the mount is charged for the difference. -/
theorem Tally.rewritten (h : fs.Tally i T) (hfile : fs.FileAt a n blocks)
    (hused : i = n.sb → used + 24 * blocks.length = (fs.mountOf i).used + 24 * blocks'.length) :
    (fs.rewritten a n blocks' used).Tally i T := by
  have ha : fs.sbOf a = some n.sb := sbOf_eq hfile.inode
  by_cases hi : i = n.sb
  · subst hi
    have haT : a ∈ T := (h.sb a).mpr ha
    refine ⟨?_, fun b => ?_, fun b => ?_, ?_⟩
    · rw [root_rewritten]
      exact h.root
    · rw [h.mem, root_rewritten]
      exact (below_congr fun x _ => entriesOf_rewritten hfile).symm
    · rw [sbOf_rewritten hfile]
      exact h.sb b
    · have hchange := sum_change fs.chargeOf (fs.rewritten a n blocks' used).chargeOf haT
        fun b _ hb => by
          rw [chargeOf, chargeOf, entriesOf_rewritten hfile, blocksOf_rewritten_of_ne hb]
      have hold : fs.chargeOf a = 144 * (fs.entriesOf a).length + 24 * blocks.length := by
        rw [chargeOf, blocksOf_file hfile.inode hfile.data]
      have hnew : (fs.rewritten a n blocks' used).chargeOf a =
          144 * (fs.entriesOf a).length + 24 * blocks'.length := by
        rw [chargeOf, entriesOf_rewritten hfile, blocksOf_rewritten_self]
      have hsum := hused rfl
      rw [h.used] at hsum
      rw [used_rewritten, if_pos rfl]
      omega
  · have hne : ∀ b ∈ T, b ≠ a := by
      rintro b hb rfl
      rw [h.sb, ha] at hb
      exact hi (Option.some.inj hb).symm
    refine h.frame root_rewritten (fun b => ?_) ?_ (fun b _ => entriesOf_rewritten hfile)
      fun b hb => blocksOf_rewritten_of_ne (hne b hb)
    · rw [sbOf_rewritten hfile]
    · rw [used_rewritten, if_neg hi]

/-- What a write charges is the number of its new blocks: the sum does not wrap. -/
theorem Writes.charge_eq (h : fs.Writes a n blocks blocks' used) (hfs : fs.Ok) :
    used + 24 * blocks.length = (fs.mountOf n.sb).used + 24 * blocks'.length := by
  have hmore := h.more
  have hquota := hfs.quota n.sb
  have hcap := h.quota
  have hcharge := h.charge
  unfold sizeofShadowfsBlock at hcap hcharge
  rcases hcap (by omega) with heq | hlt
  · rw [heq, Nat.sub_self, Nat.mul_zero, grow32_zero] at hcharge
    rw [hcharge, heq]
  · rw [grow32_eq (by omega)] at hcharge
    omega

/-- What a file is charged for its blocks is part of `used`. -/
theorem Tally.blocks_le (h : fs.Tally n.sb T) (hfile : fs.FileAt a n blocks) :
    24 * blocks.length ≤ (fs.mountOf n.sb).used := by
  have haT : a ∈ T := (h.sb a).mpr (sbOf_eq hfile.inode)
  have hle := Finset.single_le_sum (f := fs.chargeOf) (fun b _ => Nat.zero_le _) haT
  rw [h.used]
  refine le_trans ?_ hle
  rw [chargeOf, blocksOf_file hfile.inode hfile.data]
  omega

/-! ### Mounting -/

/-- A mount point that fits is served by its own mount. -/
theorem findMount_enterMount {path : CString} {m : ShadowfsMount} (hlen : path.length < vfsMaxPath)
    (hnew : ∀ j < fs.mountCount, fs.mountPoint j ≠ path) :
    vfsFindMount (fs.enterMount path m) path = some fs.mountCount := by
  have hpoint : (fs.enterMount path m).mountPoint fs.mountCount = path := by
    rw [mountPoint_enterMount_new]
    exact List.take_of_length_le (Nat.le_sub_one_of_lt hlen)
  refine findMount_eq_some.mpr ⟨Nat.lt_succ_self _, ?_, fun j _ hpre => ?_, fun j hj hpre => ?_⟩
  · rw [hpoint]
  · rw [hpoint]
    exact hpre.length_le
  · rw [hpoint]
    refine lt_of_le_of_ne hpre.length_le fun heq => hnew j hj ?_
    have hsame := hpre.eq_of_length heq
    rw [mountPoint, mountTable_enterMount_of_ne hj.ne] at hsame
    exact hsame

theorem mountTable_mounted_of_ne {path : CString} {quota : Nat} (h : b ≠ i) (hb : b ≠ fs.mountCount) :
    (fs.mounted a path quota i).mountTable b = fs.mountTable b := by
  rw [mounted, mountTable_setRoot_of_ne h]
  simp only [shadowfsCreateInode, setMount, Function.update_of_ne h]
  exact mountTable_enterMount_of_ne hb

/-- **A new mount** has nothing in it but its root. -/
theorem Tally.mounted_new {path : CString} {quota : Nat} (hbelongs : fs.Belongs)
    (ha : a ≠ 0) (hfresh : fs.inodes a = none) :
    (fs.mounted a path quota fs.mountCount).Tally fs.mountCount {a} := by
  have hroot : ((fs.mounted a path quota fs.mountCount).mountTable fs.mountCount).root = a := by
    simp [mounted, setRoot]
  have hent : (fs.mounted a path quota fs.mountCount).entriesOf a = [] := by
    rw [entriesOf_mounted hfresh, entriesOf_none hfresh]
  refine ⟨?_, fun b => ?_, fun b => ?_, ?_⟩
  · rw [hroot]
    exact ha
  · rw [hroot, Finset.mem_singleton, below_empty hent]
  · rw [sbOf_mounted, Finset.mem_singleton]
    split
    · simp [*]
    · rename_i hb
      refine iff_of_false hb fun hs => ?_
      exact absurd (hbelongs.mount b _ hs) (Nat.lt_irrefl _)
  · have hused : ((fs.mounted a path quota fs.mountCount).mountOf fs.mountCount).used = 0 := by
      rw [mounted, mountOf_setRoot, mountOf_createInode_used.1]
      simp [mountOf, enterMount]
    have hblocks : (fs.mounted a path quota fs.mountCount).blocksOf a = [] :=
      blocksOf_dir (inodes_createInode_self) rfl
    rw [hused, Finset.sum_singleton, chargeOf, hent, hblocks]
    rfl

/-- The other mounts do not notice. -/
theorem Tally.mounted_old {path : CString} {quota : Nat} (h : fs.Tally i T) (hi : i < fs.mountCount)
    (hfresh : fs.inodes a = none) : (fs.mounted a path quota fs.mountCount).Tally i T := by
  have htable : (fs.mounted a path quota fs.mountCount).mountTable i = fs.mountTable i :=
    mountTable_mounted_of_ne hi.ne hi.ne
  have hne : ∀ b ∈ T, b ≠ a := by
    rintro b hb rfl
    rw [h.sb, sbOf_eq_none.mpr hfresh] at hb
    cases hb
  refine h.frame (by rw [htable]) (fun b => ?_) (by rw [mountOf, htable]; rfl)
    (fun b _ => entriesOf_mounted hfresh) fun b hb => blocksOf_congr (inodes_mounted_of_ne (hne b hb))
  rw [sbOf_mounted]
  split
  · rename_i hb
    rw [hb, sbOf_eq_none.mpr hfresh]
    simp [hi.ne']
  · exact Iff.rfl

end FileSystem

/-! ## 4. Accounting over runs -/

/-- The call deletes something that is not empty, or gives a mount a root that is meant for another: a
path too long to be kept may be served by the mount of an earlier one. -/
def Call.Leaks (fs : FileSystem) : Call → Prop
  | .delete path => ∃ parentPath name dir b, splitPath path = .ok (parentPath, name) ∧
      fs.resolve parentPath = some dir ∧ fs.lookup dir name = some b ∧
      (fs.entriesOf b ≠ [] ∨ fs.blocksOf b ≠ [])
  | .mount _ path _ => vfsMaxPath ≤ path.length
  | _ => False

/-- Every mount is accounted for. -/
structure FileSystem.Accounts (fs : FileSystem) : Prop where
  belongs : fs.Belongs
  tally : ∀ i < fs.mountCount, ∃ T, fs.Tally i T

section Accounts

variable {fs fs' : FileSystem} {a : Nat} {c : Call}

theorem Mutation.mountCount (h : Mutation fs fs') : fs'.mountCount = fs.mountCount := by
  cases h <;> rfl

theorem Mutation.accounts (h : Mutation fs fs') (hfs : fs.Ok) (hacc : fs.Accounts) :
    fs'.Accounts := by
  refine ⟨h.belongs hfs hacc.belongs, fun i hi => ?_⟩
  rw [h.mountCount] at hi
  obtain ⟨T, hT⟩ := hacc.tally i hi
  cases h with
  | create henters ha hfresh => exact hT.created hfs henters hfresh
  | write hwrites =>
    refine ⟨T, hT.rewritten hwrites.file fun hi => ?_⟩
    rw [hi]
    exact hwrites.charge_eq hfs
  | truncate hfile =>
    refine ⟨T, hT.rewritten hfile fun hi => ?_⟩
    subst hi
    have hle := hT.blocks_le hfile
    unfold sizeofShadowfsBlock
    rw [sub32_eq hle (hfs.used _)]
    simpa using Nat.sub_add_cancel hle
  | files => exact ⟨T, hT.root, hT.mem, hT.sb, hT.used⟩

/-- **One step keeps the accounts**, unless it leaks. -/
theorem Effect.accounts (h : Effect fs a c fs') (hfs : fs.Ok) (ha : a ≠ 0)
    (hfresh : fs.inodes a = none) (hacc : fs.Accounts) (hc : ¬ c.Leaks fs) : fs'.Accounts := by
  cases h with
  | mutation hmut hkeeps =>
    have hboth : fs'.Ok ∧ fs'.Accounts :=
      reach_invariant (I := fun fs => fs.Ok ∧ fs.Accounts) hmut ⟨hfs, hacc⟩
        fun _ _ hI hstep => ⟨hstep.ok hI.1, hstep.accounts hI.1 hI.2⟩
    exact hboth.2
  | @delete path entry _ hdel =>
    obtain ⟨parentPath, name, dir, d, entries, count, hsplit, hres, hrem, rfl⟩ := hdel
    have hempty : fs.entriesOf entry.inode = [] ∧ fs.blocksOf entry.inode = [] := by
      by_contra hne
      rw [not_and_or] at hne
      exact hc ⟨parentPath, name, dir, entry.inode, hsplit, hres, hrem.lookup, hne⟩
    refine ⟨hacc.belongs.deleted hfs hrem, fun i hi => ?_⟩
    obtain ⟨T, hT⟩ := hacc.tally i hi
    exact hT.deleted hfs hacc.belongs hrem hempty.1 hempty.2
  | @mount freePages quota i path hquota hnew hi =>
    rw [FileSystem.findMount_enterMount (Nat.lt_of_not_le hc) hnew] at hi
    obtain rfl : fs.mountCount = i := Option.some.inj hi
    refine ⟨hacc.belongs.mounted hfs hfresh le_rfl, fun j hj => ?_⟩
    rcases Nat.lt_succ_iff_lt_or_eq.mp hj with hlt | rfl
    · obtain ⟨T, hT⟩ := hacc.tally j hlt
      exact ⟨T, hT.mounted_old hlt hfresh⟩
    · exact ⟨{a}, FileSystem.Tally.mounted_new hacc.belongs ha hfresh⟩

end Accounts

theorem vfsInit_belongs : FileSystem.vfsInit.Belongs where
  entry _ _ h := nomatch h
  mount _ _ h := nomatch h

/-- `/temp/f` with one byte in it. -/
def tempWrittenFs : FileSystem := tempFileFs.after 0x3000 (.write 3 [0x41])

end AcornOS
