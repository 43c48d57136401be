/-
# Reading a directory that changes

`vfs_readdir` remembers how far it is by a NUMBER: the position of the descriptor is the index of the
next entry.  A new entry goes to the end of the chain and does no harm.  A deletion moves everything
behind it one place forward, and if it took out an entry that the scan had already returned, the next
one is now at an index that the scan has passed.

`ScanRun C` is any interleaving of `vfs_readdir` on one descriptor with creations and deletions in the
directory, where `C` says which deletions are allowed at which moment.

* **`scan_stable`**: an entry that stays is never returned twice; and it is returned, unless something that
  the scan has already returned is deleted BEFORE it comes to the entry.
* **`scan_skips_entry`**: if that happens, one is left out.  List an entry and delete it, then go on: the way
  to empty a directory.
-/
import AcornOS.FileSystem.Directory

namespace AcornOS

open Lib

/-! ## 1. Scans -/

/-- `vfs_readdir`, for the file that `vfs_get_file` finds for the descriptor. -/
def Store.vfsReaddir (k : Store) (file : File) : Except Fault (Int × Option Dentry × File) := do
  let n ← k.inodeAt file.inode
  if n.type ≠ .dir then .ok (-1, none, file)
  else do
    let (dentry, file) ← k.shadowfsReaddir file
    .ok (if dentry.isSome then 1 else 0, dentry, file)

/-- A scan of the directory from its start, while entries are created and deleted: what it has returned,
which names were given to `shadowfs_delete`, and where it stands. -/
inductive ScanRun (C : List Dentry → CString → Prop) (dir : Nat) (k : Store) (flags : BitVec 32) :
    List Dentry → List CString → Store → File → Prop
  | start : ScanRun C dir k flags [] [] k ⟨dir, 0, flags⟩
  | readdir {returned : List Dentry} {deleted : List CString} {k' : Store} {file file' : File}
      {dentry : Dentry} (h : ScanRun C dir k flags returned deleted k' file)
      (hok : k'.vfsReaddir file = .ok (1, some dentry, file')) :
      ScanRun C dir k flags (returned ++ [dentry]) deleted k' file'
  | create {returned : List Dentry} {deleted : List CString} {k' k'' : Store} {file : File}
      {name : CString} {type : VfsType} {inode : Option Nat}
      (h : ScanRun C dir k flags returned deleted k' file) (hname : name.length ≤ 63)
      (hok : k'.shadowfsCreate dir name type = .ok (inode, k'')) :
      ScanRun C dir k flags returned deleted k'' file
  | mkdir {returned : List Dentry} {deleted : List CString} {k' k'' : Store} {file : File}
      {name : CString} {r : Int} (h : ScanRun C dir k flags returned deleted k' file)
      (hname : name.length ≤ 63) (hok : k'.shadowfsMkdir dir name = .ok (r, k'')) :
      ScanRun C dir k flags returned deleted k'' file
  | delete {returned : List Dentry} {deleted : List CString} {k' k'' : Store} {file : File}
      {name : CString} {r : Int} (h : ScanRun C dir k flags returned deleted k' file)
      (hC : C returned name) (hok : k'.shadowfsDelete dir name = .ok (r, k'')) :
      ScanRun C dir k flags returned (name :: deleted) k'' file

/-- The name is not one that the scan has returned. -/
def NotReturned (returned : List Dentry) (name : CString) : Prop := ∀ e ∈ returned, e.name ≠ name

/-- The name is not one that the scan has returned, or the scan has come past the entry anyway. -/
def SparesBefore (e : DirEntry) (returned : List Dentry) (name : CString) : Prop :=
  e.shown ∈ returned ∨ NotReturned returned name

/-- An entry is returned exactly once: once under its name, with its own inode and type. -/
def ReturnedOnce (returned : List Dentry) (e : DirEntry) : Prop :=
  returned.count e.shown = 1 ∧ ∀ d ∈ returned, d.name = e.name → d = e.shown

/-! ## 2. What a scan keeps -/

section Scan

variable {k k' : Store} {rest : List (Nat × Nat)} {dir : Nat} {d : InodeNode} {es es' : List DirEntry}
  {flags : BitVec 32} {returned : List Dentry} {deleted : List CString} {file : File}
  {name : CString} {strict : Prop} {pre post : List DirEntry} {e : DirEntry}

theorem DirAt.vfsReaddir (h : DirAt k rest dir d es) (hdir : d.type = .dir) (position : Nat)
    (flags : BitVec 32) : k.vfsReaddir ⟨dir, position, flags⟩ =
      if hlt : position < es.length then .ok (1, some (es[position]).shown, ⟨dir, position + 1, flags⟩)
      else .ok (0, none, ⟨dir, position, flags⟩) := by
  rw [Store.vfsReaddir, Store.inodeAt_eq h.node]
  by_cases hlt : position < es.length
  · rw [dif_pos hlt]
    refine bind_eq_ok.mpr ⟨d, rfl, ?_⟩
    rw [if_neg (not_not.mpr hdir), h.readdir, List.getElem?_eq_getElem hlt, if_pos hlt]
    rfl
  · rw [dif_neg hlt]
    refine bind_eq_ok.mpr ⟨d, rfl, ?_⟩
    rw [if_neg (not_not.mpr hdir), h.readdir, List.getElem?_eq_none (Nat.not_lt.mp hlt), if_neg hlt]
    rfl

/-- What a scan has to do with an entry that has `pre` in front of it: it is past the entry and has returned
it, or it has not returned it.  In the second case it has not passed it either, if only what the scan has not
returned is deleted (`strict`). -/
inductive Follows (strict : Prop) (returned : List Dentry) (pre : List DirEntry) (e : DirEntry) : Prop
  | past (hpast : pre.length < returned.length) (honce : ReturnedOnce returned e)
  | ahead (hnone : NotReturned returned e.name)
      (hahead : strict → returned.length ≤ pre.length ∧
        ∀ y ∈ pre.take returned.length, y.shown ∈ returned)

/-- **The invariant of a scan**, for an entry that is not deleted: the position is the number of entries
returned. -/
structure Scanning (strict : Prop) (k' : Store) (rest : List (Nat × Nat)) (dir : Nat) (d : InodeNode)
    (flags : BitVec 32) (returned : List Dentry) (file : File) (e : DirEntry)
    (pre post : List DirEntry) : Prop where
  entries : DirAt k' rest dir d (pre ++ e :: post)
  position : file = ⟨dir, returned.length, flags⟩
  follows : Follows strict returned pre e

/-- An entry with another index has another name. -/
theorem DirAt.name_ne {i : Nat} (h : DirAt k rest dir d (pre ++ e :: post))
    (hi : i < (pre ++ e :: post).length) (hne : i ≠ pre.length) : (pre ++ e :: post)[i].name ≠ e.name := by
  intro hname
  have hmid : pre.length < (pre ++ e :: post).length := by simp
  have he : (pre ++ e :: post)[i] = (pre ++ e :: post)[pre.length] := by
    rw [List.getElem_append_right le_rfl]
    simp only [Nat.sub_self, List.getElem_cons_zero]
    exact List.inj_on_of_nodup_map h.names (List.getElem_mem hi)
      (List.mem_append_right _ List.mem_cons_self) hname
  exact hne (((List.Nodup.of_map _ h.names).getElem_inj_iff).mp he)

/-- The next entry is returned. -/
theorem Follows.next (hf : Follows strict returned pre e) (h : DirAt k rest dir d (pre ++ e :: post))
    (hlt : returned.length < (pre ++ e :: post).length) :
    Follows strict (returned ++ [(pre ++ e :: post)[returned.length].shown]) pre e := by
  by_cases hhere : returned.length = pre.length
  · -- the scan has come to the entry
    have hentry : (pre ++ e :: post)[returned.length] = e := by
      rw [List.getElem_append_right hhere.ge]
      simp only [hhere, Nat.sub_self, List.getElem_cons_zero]
    rw [hentry]
    cases hf with
    | past hpast _ => exact absurd hhere hpast.ne'
    | ahead hnone _ =>
      refine .past (by rw [List.length_append, hhere]; exact Nat.lt_succ_self _) ⟨?_, fun x hx hname => ?_⟩
      · rw [List.count_append, List.count_singleton_self,
          List.count_eq_zero.mpr fun hmem => hnone _ hmem rfl]
      · rcases List.mem_append.mp hx with hx | hx
        · exact absurd hname (hnone x hx)
        · exact List.mem_singleton.mp hx
  · have hname := h.name_ne hlt hhere
    have hother : ∀ x ∈ [(pre ++ e :: post)[returned.length].shown], x.name ≠ e.name := fun x hx => by
      rw [List.mem_singleton.mp hx]
      exact hname
    cases hf with
    | past hpast honce =>
      refine .past (by rw [List.length_append]; exact hpast.trans (Nat.lt_succ_self _)) ⟨?_, fun x hx hn => ?_⟩
      · rw [List.count_append, honce.1, List.count_eq_zero.mpr fun hmem => hother _ hmem rfl]
      · rcases List.mem_append.mp hx with hx | hx
        · exact honce.2 x hx hn
        · exact absurd hn (hother x hx)
    | ahead hnone hahead =>
      refine .ahead (fun x hx => (List.mem_append.mp hx).elim (hnone x) (hother x)) fun hs => ?_
      obtain ⟨hle, hfirst⟩ := hahead hs
      have hpre : returned.length < pre.length := lt_of_le_of_ne hle hhere
      rw [List.length_append, List.length_singleton]
      refine ⟨hpre, fun y hy => ?_⟩
      rw [List.take_add_one, List.getElem?_eq_getElem hpre, Option.toList_some, List.mem_append] at hy
      refine List.mem_append.mpr (hy.imp (hfirst y) fun hy => ?_)
      rw [List.mem_singleton.mp hy, List.getElem_append_left hpre]
      exact List.mem_singleton_self _

/-- An entry in front of this one is deleted. -/
theorem Follows.erase {mid : List DirEntry} {x : DirEntry}
    (hf : Follows strict returned (pre ++ x :: mid) e)
    (hC : strict → SparesBefore e returned x.name) : Follows strict returned (pre ++ mid) e := by
  have hshort : (pre ++ mid).length < (pre ++ x :: mid).length := by
    simp only [List.length_append, List.length_cons]
    exact Nat.lt_succ_self _
  cases hf with
  | past hpast honce => exact .past (hshort.trans hpast) honce
  | ahead hnone hahead =>
    refine .ahead hnone fun hs => ?_
    obtain ⟨-, hfirst⟩ := hahead hs
    have hnot : NotReturned returned x.name := (hC hs).resolve_left fun hmem => hnone _ hmem rfl
    -- the deleted entry is not one of those at which the scan has been
    have hpre : returned.length ≤ pre.length := by
      by_contra hlt
      refine hnot x.shown (hfirst x ?_) rfl
      rw [List.take_append, List.mem_append]
      obtain ⟨n, hn⟩ := Nat.exists_eq_add_of_lt (Nat.not_le.mp hlt)
      rw [hn, show pre.length + n + 1 - pre.length = n + 1 by omega]
      exact Or.inr List.mem_cons_self
    rw [List.take_append_of_le_length hpre] at hfirst ⊢
    refine ⟨?_, hfirst⟩
    rw [List.length_append]
    exact hpre.trans (Nat.le_add_right _ _)

/-- `vfs_readdir` at the position of the scan. -/
theorem Scanning.vfsReaddir (h : Scanning strict k' rest dir d flags returned file e pre post)
    (hdir : d.type = .dir) : k'.vfsReaddir file =
      if hlt : returned.length < (pre ++ e :: post).length then
        .ok (1, some ((pre ++ e :: post)[returned.length]).shown, ⟨dir, returned.length + 1, flags⟩)
      else .ok (0, none, file) := by
  rw [h.position]
  exact h.entries.vfsReaddir hdir _ flags

theorem Scanning.next {dentry : Dentry} {file' : File}
    (h : Scanning strict k' rest dir d flags returned file e pre post) (hdir : d.type = .dir)
    (hok : k'.vfsReaddir file = .ok (1, some dentry, file')) :
    Scanning strict k' rest dir d flags (returned ++ [dentry]) file' e pre post := by
  rw [h.vfsReaddir hdir] at hok
  split at hok
  · rename_i hlt
    obtain ⟨-, hres⟩ := Prod.mk.inj (Except.ok.inj hok)
    obtain ⟨hdentry, rfl⟩ := Prod.mk.inj hres
    obtain rfl := Option.some.inj hdentry
    refine ⟨h.entries, ?_, h.follows.next h.entries hlt⟩
    rw [List.length_append, List.length_singleton]
  · obtain ⟨hr, -⟩ := Prod.mk.inj (Except.ok.inj hok)
    cases hr

/-- A call of `shadowfs_create`, whether it succeeds or not. -/
theorem Scanning.create {k'' : Store} {type : VfsType} {inode : Option Nat}
    (h : Scanning strict k' rest dir d flags returned file e pre post) (hname : name.length ≤ 63)
    (hok : k'.shadowfsCreate dir name type = .ok (inode, k'')) :
    ∃ post', Scanning strict k'' rest dir d flags returned file e pre post' := by
  by_cases hfail : (k'.mounts d.sb).quota ≤ (k'.mounts d.sb).used ∨ ∃ x ∈ pre ++ e :: post, x.name = name
  · rw [h.entries.create_fails hfail] at hok
    obtain ⟨-, rfl⟩ := Prod.mk.inj (Except.ok.inj hok)
    exact ⟨post, h⟩
  · rw [not_or, not_exists, Nat.not_le] at hfail
    obtain ⟨x, -, -, -, -, -, -, -, -, hdir⟩ := (h.entries.create (Nat.lt_succ_of_le hname)
      (fun x hx heq => hfail.2 x ⟨hx, heq⟩) hfail.1).of_ok hok
    rw [List.append_assoc, List.cons_append] at hdir
    exact ⟨post ++ [x], hdir, h.position, h.follows⟩

/-- A call of `shadowfs_delete`, for another name. -/
theorem Scanning.delete {k'' : Store} {r : Int}
    (h : Scanning strict k' rest dir d flags returned file e pre post) (hname : e.name ≠ name)
    (hC : strict → SparesBefore e returned name) (hok : k'.shadowfsDelete dir name = .ok (r, k'')) :
    ∃ pre' post', Scanning strict k'' rest dir d flags returned file e pre' post' := by
  by_cases hmem : ∃ x ∈ pre ++ e :: post, x.name = name
  · obtain ⟨front, x, back, k₃, hsplit, rfl, hok', hdir, -⟩ := h.entries.delete hmem
    obtain ⟨-, rfl⟩ := Prod.mk.inj (Except.ok.inj (hok'.symm.trans hok))
    rcases List.append_eq_append_iff.mp hsplit with ⟨mid, rfl, hmid⟩ | ⟨mid, rfl, hmid⟩
    · rcases List.cons_eq_append_iff.mp hmid with ⟨-, hx⟩ | ⟨mid, rfl, rfl⟩
      · exact absurd (congrArg DirEntry.name (List.cons.inj hx).1.symm) hname
      · -- it is behind the entry
        rw [List.append_assoc, List.cons_append] at hdir
        exact ⟨pre, mid ++ back, hdir, h.position, h.follows⟩
    · rcases List.cons_eq_append_iff.mp hmid with ⟨-, hx⟩ | ⟨mid, rfl, rfl⟩
      · exact absurd (congrArg DirEntry.name (List.cons.inj hx).1) hname
      · -- it is in front of the entry
        rw [← List.append_assoc] at hdir
        exact ⟨front ++ mid, post, hdir, h.position, h.follows.erase hC⟩
  · rw [h.entries.delete_fails fun x hx heq => hmem ⟨x, hx, heq⟩] at hok
    obtain ⟨-, rfl⟩ := Prod.mk.inj (Except.ok.inj hok)
    exact ⟨pre, post, h⟩

variable {C : List Dentry → CString → Prop}

/-- **The invariant holds throughout.** -/
theorem ScanRun.scanning (h : DirAt k rest dir d es) (hdir : d.type = .dir) (he : e ∈ es)
    (hrun : ScanRun C dir k flags returned deleted k' file) (hout : e.name ∉ deleted) :
    ∃ pre post, Scanning (∀ r name, C r name → SparesBefore e r name) k' rest dir d flags returned file e
      pre post := by
  induction hrun with
  | start =>
    obtain ⟨pre, post, rfl⟩ := List.append_of_mem he
    refine ⟨pre, post, h, rfl, .ahead (fun x hx => absurd hx List.not_mem_nil) fun _ => ⟨Nat.zero_le _, ?_⟩⟩
    exact fun y hy => absurd hy List.not_mem_nil
  | readdir _ hok ih =>
    obtain ⟨pre, post, hs⟩ := ih hout
    exact ⟨pre, post, hs.next hdir hok⟩
  | create _ hname hok ih =>
    obtain ⟨pre, post, hs⟩ := ih hout
    exact ⟨pre, hs.create hname hok⟩
  | mkdir _ hname hok ih =>
    obtain ⟨pre, post, hs⟩ := ih hout
    obtain ⟨⟨inode, k₁⟩, hcreate, hres⟩ := bind_eq_ok.mp hok
    obtain ⟨-, rfl⟩ := Prod.mk.inj (Except.ok.inj hres)
    exact ⟨pre, hs.create hname hcreate⟩
  | delete _ hC hok ih =>
    rw [List.mem_cons, not_or] at hout
    obtain ⟨pre, post, hs⟩ := ih hout.2
    exact hs.delete hout.1 (fun hstrict => hstrict _ _ hC) hok

/-- **Iteration, as far as a position that counts entries can be stable.**  An entry that is there all the
time is returned at most once, in every run.  It is returned exactly once by a run up to the call that
returns 0 in which, until then, only names are deleted that the scan has not returned. -/
theorem scan_stable {file' : File} (h : DirAt k rest dir d es) (hdir : d.type = .dir)
    (hrun : ScanRun C dir k flags returned deleted k' file) (he : e ∈ es) (hout : e.name ∉ deleted) :
    returned.count e.shown ≤ 1 ∧ (∀ x ∈ returned, x.name = e.name → x = e.shown) ∧
      ((∀ r name, C r name → SparesBefore e r name) → k'.vfsReaddir file = .ok (0, none, file') →
        ReturnedOnce returned e) := by
  obtain ⟨pre, post, hs⟩ := hrun.scanning h hdir he hout
  cases hs.follows with
  | past _ honce => exact ⟨honce.1.le, honce.2, fun _ _ => honce⟩
  | ahead hnone hahead =>
    refine ⟨?_, fun x hx hname => absurd hname (hnone x hx), fun hstrict hend => ?_⟩
    · rw [List.count_eq_zero.mpr fun hmem => hnone _ hmem rfl]
      exact Nat.zero_le 1
    · rw [hs.vfsReaddir hdir, dif_pos] at hend
      · cases hend
      · rw [List.length_append]
        exact (hahead hstrict).1.trans_lt (Nat.lt_add_of_pos_right (Nat.succ_pos _))

end Scan

/-- A directory with the entries `a` and `b`. -/
theorem twoEntries : ∃ k rest dir d e₁ e₂, DirAt k rest dir d [e₁, e₂] ∧ d.type = .dir ∧
    e₁.name = [0x61] ∧ e₂.name = [0x62] := by
  obtain ⟨dir, k, a, k₁, b, k₂, hdir, ha, hb⟩ := blankStore_files
  obtain ⟨d, h, htype⟩ := DirAt.of_createInode (memInit_rep _) hdir
  obtain ⟨es₁, h₁, hd₁⟩ := h.created h.described (by decide) ha
  obtain ⟨es, h₂, hd₂⟩ := h₁.created hd₁ (by decide) hb
  have hpairs : es.map DirEntry.pair = [([0x61], a), ([0x62], b)] := hd₂.surviving.symm
  obtain ⟨e₁, es, rfl, he₁, hpairs⟩ := List.map_eq_cons_iff.mp hpairs
  obtain ⟨e₂, es, rfl, he₂, hpairs⟩ := List.map_eq_cons_iff.mp hpairs
  obtain rfl := List.map_eq_nil_iff.mp hpairs
  exact ⟨k₂, _, dir, d, e₁, e₂, h₂, htype, congrArg Prod.fst he₁, congrArg Prod.fst he₂⟩

/-- The scan has returned `a`, and one of the two entries is deleted: it is at its end. -/
theorem scan_two {C : List Dentry → CString → Prop} {k : Store} {rest : List (Nat × Nat)} {dir : Nat}
    {d : InodeNode} {e₁ e₂ : DirEntry} {name : CString} (h : DirAt k rest dir d [e₁, e₂])
    (hdir : d.type = .dir) (hmem : ∃ e ∈ [e₁, e₂], e.name = name) (hC : C [e₁.shown] name) :
    ∃ k', ScanRun C dir k 0 [e₁.shown] [name] k' ⟨dir, 1, 0⟩ ∧
      k'.vfsReaddir ⟨dir, 1, 0⟩ = .ok (0, none, ⟨dir, 1, 0⟩) := by
  have hfirst : k.vfsReaddir ⟨dir, 0, 0⟩ = .ok (1, some e₁.shown, ⟨dir, 1, 0⟩) :=
    h.vfsReaddir hdir 0 0
  obtain ⟨pre, e, post, k', hes, -, hok, h', -⟩ := h.delete hmem
  have hlen : (pre ++ post).length = 1 := by
    have := congrArg List.length hes
    simp only [List.length_append, List.length_cons, List.length_nil] at this ⊢
    omega
  refine ⟨k', .delete (.readdir .start hfirst) hC hok, ?_⟩
  rw [h'.vfsReaddir hdir, dif_neg (by omega)]

/-- Of two entries the second is deleted before the scan comes to it: the first is returned once. -/
theorem scan_stable_two_entries : ∃ (k : Store) (dir : Nat) (e₁ e₂ : DirEntry) (k' : Store),
    e₂.name = [0x62] ∧ ScanRun NotReturned dir k 0 [e₁.shown] [[0x62]] k' ⟨dir, 1, 0⟩ ∧
      ReturnedOnce [e₁.shown] e₁ := by
  obtain ⟨k, rest, dir, d, e₁, e₂, h, hdir, h₁, h₂⟩ := twoEntries
  have hnot : NotReturned [e₁.shown] [0x62] := by
    intro x hx
    rw [List.mem_singleton.mp hx]
    change e₁.name ≠ _
    rw [h₁]
    decide
  obtain ⟨k', hrun, hend⟩ := scan_two h hdir ⟨e₂, by simp, h₂⟩ hnot
  have hkept : e₁.name ∉ [[0x62]] := by
    rw [h₁]
    decide
  obtain ⟨-, -, honce⟩ := scan_stable h hdir hrun (show e₁ ∈ [e₁, e₂] by simp) hkept
  exact ⟨k, dir, e₁, e₂, k', h₂, hrun, honce (fun _ _ hC => Or.inr hC) hend⟩

/-- **An entry is left out.**  The first entry is listed and deleted, and the scan ends without a word of
the second one, which was there all the time. -/
theorem scan_skips_entry : ∃ (k : Store) (rest : List (Nat × Nat)) (dir : Nat) (d : InodeNode)
    (es : List DirEntry) (returned : List Dentry) (deleted : List CString) (k' : Store) (file : File)
    (e : DirEntry), DirAt k rest dir d es ∧ d.type = .dir ∧
      ScanRun (fun _ _ => True) dir k 0 returned deleted k' file ∧
      k'.vfsReaddir file = .ok (0, none, file) ∧ e ∈ es ∧ e.name ∉ deleted ∧
      returned.count e.shown = 0 := by
  obtain ⟨k, rest, dir, d, e₁, e₂, h, hdir, h₁, h₂⟩ := twoEntries
  obtain ⟨k', hrun, hend⟩ := @scan_two (fun _ _ => True) _ _ _ _ _ _ [0x61] h hdir
    ⟨e₁, by simp, h₁⟩ trivial
  refine ⟨k, rest, dir, d, [e₁, e₂], _, _, k', _, e₂, h, hdir, hrun, hend, by simp, ?_, ?_⟩
  · rw [h₂]
    decide
  · refine List.count_eq_zero.mpr fun hmem => ?_
    have hname := congrArg Dentry.name (List.mem_singleton.mp hmem)
    exact absurd (h₂.symm.trans (hname.trans h₁)) (by decide)

end AcornOS
