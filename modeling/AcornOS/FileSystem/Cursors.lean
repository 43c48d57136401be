/-
# Files as byte arrays with cursors

The interface `vfs.h` documents, and how far `shadowfs_write` keeps to it.

* `ByteFile` is that interface: bytes, and a cursor for each descriptor.  A write goes TO THE CURSOR and
  replaces what is there, unless the descriptor appends.
* `shadowfs_write` appends whatever the position.  So a run refines the interface as long as no write
  through a descriptor without `O_APPEND` is made before the end of the file (`Call.Appends`).
* Results are `int`s and positions 32-bit numbers: files are below `2^31` bytes.
-/
import AcornOS.FileSystem.Descriptors

namespace AcornOS

open Lib Relation

/-! ## 1. The interface -/

structure Cursor where
  position : Nat
  flags : BitVec 32
deriving Repr, DecidableEq

/-- A file as its users see it. -/
@[ext] structure ByteFile where
  bytes : List (BitVec 8)
  cursors : Int → Option Cursor

/-- `buf` in the place of the bytes from `p` on, past the end if need be. -/
def overwrite (bytes : List (BitVec 8)) (p : Nat) (buf : List (BitVec 8)) : List (BitVec 8) :=
  bytes.take p ++ buf ++ bytes.drop (p + buf.length)

/-- At the end, to write is to append. -/
theorem overwrite_end (bytes buf : List (BitVec 8)) : overwrite bytes bytes.length buf = bytes ++ buf := by
  rw [overwrite, List.take_length, List.drop_eq_nil_of_le (Nat.le_add_right _ _), List.append_nil]

@[simp] theorem overwrite_nil (bytes : List (BitVec 8)) (p : Nat) : overwrite bytes p [] = bytes := by
  rw [overwrite, List.append_nil, List.length_nil, Nat.add_zero, List.take_append_drop]

/-- What was written is there, and nothing else has changed. -/
theorem overwrite_spec {bytes buf : List (BitVec 8)} {p : Nat} (hp : p ≤ bytes.length) :
    ((overwrite bytes p buf).drop p).take buf.length = buf ∧ (overwrite bytes p buf).take p =
      bytes.take p ∧ (overwrite bytes p buf).drop (p + buf.length) = bytes.drop (p + buf.length) := by
  have hlen : (bytes.take p).length = p := by
    rw [List.length_take]
    exact Nat.min_eq_left hp
  refine ⟨?_, ?_, ?_⟩
  · rw [overwrite, List.append_assoc, List.drop_left' hlen, List.take_left]
  · rw [overwrite, List.append_assoc, List.take_left' hlen]
  · have hlen' : (bytes.take p ++ buf).length = p + buf.length := by
      rw [List.length_append, hlen]
    rw [overwrite, List.drop_left' hlen']

namespace ByteFile

variable (s : ByteFile)

/-- Moving a cursor. -/
def move (fd : Int) (position : Nat) (flags : BitVec 32) : ByteFile :=
  { s with cursors := Function.update s.cursors fd (some ⟨position, flags⟩) }

/-- The bytes from a position on. -/
def readAt (position size : Nat) : List (BitVec 8) := (s.bytes.drop position).take size

/-- What a write leaves: the buffer at the cursor, or at the end. -/
def writeAt (c : Cursor) (buf : List (BitVec 8)) : List (BitVec 8) :=
  if Sets c.flags oAppend then s.bytes ++ buf else overwrite s.bytes c.position buf

/-- The bytes after an open. -/
def openedBytes (flags : BitVec 32) : List (BitVec 8) := if Sets flags oTrunc then [] else s.bytes

/-- One call, and what it returns. -/
inductive Step (s : ByteFile) : Call → Reply → ByteFile → Prop
  | «open» {path : CString} {flags : BitVec 32} {fd : Int} (hfd : s.cursors fd = none) :
      Step s (.open path flags) (.of fd) (move ⟨s.openedBytes flags, s.cursors⟩ fd
        (if Sets flags oAppend then (s.openedBytes flags).length else 0) flags)
  | openFull {path : CString} {flags : BitVec 32} :
      Step s (.open path flags) (.of (-1)) ⟨s.openedBytes flags, s.cursors⟩
  | read {fd : Int} {size : Nat} {c : Cursor} (hc : s.cursors fd = some c) (hmode : c.flags ≠ oWronly) :
      Step s (.read fd size) ⟨(s.readAt c.position size).length, s.readAt c.position size, none⟩
        (s.move fd (c.position + (s.readAt c.position size).length) c.flags)
  | readDenied {fd : Int} {size : Nat} {c : Cursor} (hc : s.cursors fd = some c)
      (hmode : c.flags = oWronly) : Step s (.read fd size) (.of (-1)) s
  | write {fd : Int} {c : Cursor} {buf : List (BitVec 8)} (hc : s.cursors fd = some c)
      (hmode : c.flags ≠ oRdonly) (hpos : c.position ≤ s.bytes.length) :
      Step s (.write fd buf) (.of buf.length)
        (move ⟨s.writeAt c buf, s.cursors⟩ fd (c.position + buf.length) c.flags)
  | writeDenied {fd : Int} {c : Cursor} {buf : List (BitVec 8)} (hc : s.cursors fd = some c)
      (hmode : c.flags = oRdonly) : Step s (.write fd buf) (.of (-1)) s
  | seekCur {fd : Int} {position : Nat} {c : Cursor} {offset : BitVec 32}
      (hc : s.cursors fd = some c) (hpos : (position : Int) = c.position + offset.toInt) :
      Step s (.seek fd offset 1) (.of position) (s.move fd position c.flags)
  | seekEnd {fd : Int} {position : Nat} {c : Cursor} {offset : BitVec 32}
      (hc : s.cursors fd = some c) (hpos : (position : Int) = s.bytes.length + offset.toInt) :
      Step s (.seek fd offset 2) (.of position) (s.move fd position c.flags)

/-- Only a write makes the file longer. -/
theorem Step.length_le {s s' : ByteFile} {c : Call} {r : Reply} (h : Step s c r s')
    (hc : ∀ fd buf, c ≠ .write fd buf) : s'.bytes.length ≤ s.bytes.length := by
  have hopened : ∀ flags, (s.openedBytes flags).length ≤ s.bytes.length := by
    intro flags
    unfold openedBytes
    split
    · exact Nat.zero_le _
    · exact le_rfl
  cases h with
  | «open» => exact hopened _
  | openFull => exact hopened _
  | write => exact absurd rfl (hc _ _)
  | writeDenied => exact absurd rfl (hc _ _)
  | _ => exact le_rfl

/-- A run with its calls and replies. -/
inductive Run (s₀ : ByteFile) : List (Call × Reply) → ByteFile → Prop
  | start : Run s₀ [] s₀
  | call {s s' : ByteFile} {trace : List (Call × Reply)} {c : Call} {r : Reply}
      (hrun : Run s₀ trace s) (hstep : Step s c r s') : Run s₀ (trace ++ [(c, r)]) s'

end ByteFile

/-! ## 2. Runs of the source -/

namespace FileSystem

variable (fs : FileSystem) (a : Nat)

/-- The length of the file at `a`. -/
def sizeAt : Nat := (bytesOf (fs.blocksOf a)).length

/-- The file at `a` as its users see it. -/
def view : ByteFile where
  bytes := bytesOf (fs.blocksOf a)
  cursors fd := ((vfsGetFile fs fd).filter fun f => f.inode = a).map fun f => ⟨f.position, f.flags⟩

/-- The quota of the file at `a` is not reached. -/
def HasRoom : Prop := ∀ n, fs.inodes a = some n → (fs.mountOf n.sb).used < (fs.mountOf n.sb).quota

end FileSystem

instance (fs : FileSystem) (fd : Int) (f : File) : Decidable (fs.Open fd f) :=
  inferInstanceAs (Decidable (_ = _))

/-- The call opens the file at `a`, or goes through a descriptor of it, at a position in the file. -/
def Call.On (fs : FileSystem) (a : Nat) : Call → Prop
  | .open path _ => fs.resolve path = some a
  | .read fd _ | .write fd _ => ∃ f, fs.Open fd f ∧ f.inode = a ∧ f.position ≤ fs.sizeAt a
  | .seek fd offset whence => ∃ f, fs.Open fd f ∧ f.inode = a ∧
      ((whence = 1 ∧ 0 ≤ f.position + offset.toInt ∧ f.position + offset.toInt ≤ fs.sizeAt a) ∨
        (whence = 2 ∧ 0 ≤ fs.sizeAt a + offset.toInt ∧ fs.sizeAt a + offset.toInt ≤ fs.sizeAt a))
  | _ => False

/-- What a write has to keep to: it appends, or is made at the end, and the file stays below `2^31`
bytes. -/
def Call.Appends (a : Nat) (fs : FileSystem) : Call → Prop
  | .write fd buf => fs.sizeAt a + buf.length < 2 ^ 31 ∧ ∀ f, fs.Open fd f → f.flags ≠ oRdonly →
      ¬ Sets f.flags oAppend → buf ≠ [] → f.position = fs.sizeAt a
  | _ => True

/-- A run of calls on the file at `a`, which satisfy `P`, with calls in between that leave it and its
descriptors alone. -/
inductive CursorRun (P : FileSystem → Call → Prop) (a : Nat) (fs₀ : FileSystem) :
    List (Call × Reply) → FileSystem → Prop
  | start : CursorRun P a fs₀ [] fs₀
  | call {fs fs' : FileSystem} {trace : List (Call × Reply)} {b : Nat} {c : Call} {r : Reply}
      (hrun : CursorRun P a fs₀ trace fs) (hb : b ≠ 0) (hfresh : fs.inodes b = none) (hsized : c.Sized)
      (hon : c.On fs a) (hP : P fs c) (h : vfsCall fs b c = .ok (r, fs')) (hroom : fs'.HasRoom a) :
      CursorRun P a fs₀ (trace ++ [(c, r)]) fs'
  | other {fs fs' : FileSystem} {trace : List (Call × Reply)} (hrun : CursorRun P a fs₀ trace fs)
      (hstep : CallStep (fun _ _ => True) fs fs') (hinode : fs'.inodes a = fs.inodes a)
      (hcursors : (fs'.view a).cursors = (fs.view a).cursors) : CursorRun P a fs₀ trace fs'

/-! ## 3. One call -/

section Refines

variable {fs fs' : FileSystem} {a : Nat} {n : Inode} {blocks : List ShadowfsBlock} {f : File}

theorem FileSystem.Open.range {fd : Int} (h : fs.Open fd f) : 0 ≤ fd ∧ fd < vfsMaxFds := by
  unfold FileSystem.Open vfsGetFile at h
  split at h
  · cases h
  · omega

theorem FileSystem.Ok.fileAt (hfs : fs.Ok) (hfile : fs.IsFile a) : ∃ n, fs.FileAt a n (fs.blocksOf a) := by
  obtain ⟨n, blocks, count, hn, hdata⟩ := FileSystem.isFile_iff.mp hfile
  rw [FileSystem.blocksOf_file hn hdata]
  exact ⟨n, hfs.files a n blocks count hn hdata⟩

theorem Mutation.isFile_run (h : ReflTransGen Mutation fs fs') (hfile : fs.IsFile a) : fs'.IsFile a := by
  refine reach_invariant (I := fun fs => fs.IsFile a) h hfile fun fs fs' ⟨n, hn, htype⟩ hmut => ?_
  obtain ⟨n', hn', htype', -⟩ := hmut.inode hn
  exact ⟨n', hn', htype'.trans htype⟩

theorem FileSystem.Open.view {fd : Int} (h : fs.Open fd f) (hinode : f.inode = a) :
    (fs.view a).cursors fd = some ⟨f.position, f.flags⟩ := by
  simp [FileSystem.view, show vfsGetFile fs fd = some f from h, hinode]

/-- The descriptors after one of them has been set. -/
theorem vfsGetFile_setFile {g : Option File} {fd i : Int} (hfd : 0 ≤ fd) (hmax : fd < vfsMaxFds) :
    vfsGetFile (fs.setFile fd.toNat g) i = if i = fd then g else vfsGetFile fs i := by
  unfold vfsGetFile
  by_cases hi : i = fd
  · subst hi
    rw [if_pos rfl, if_neg (by omega), FileSystem.fileTable_setFile_self]
  · rw [if_neg hi]
    split
    · rfl
    · rw [FileSystem.fileTable_setFile_of_ne (by omega)]

/-- A descriptor is moved, over the same bytes. -/
theorem FileSystem.view_setFile {fd : Int} (hfd : 0 ≤ fd) (hmax : fd < vfsMaxFds)
    (hinode : f.inode = a) :
    (fs.setFile fd.toNat (some f)).view a = (fs.view a).move fd f.position f.flags := by
  refine congrArg (ByteFile.mk _) (funext fun i => ?_)
  rw [vfsGetFile_setFile hfd hmax]
  by_cases hi : i = fd
  · subst hi
    rw [if_pos rfl, Function.update_self]
    simp [hinode]
  · rw [if_neg hi, Function.update_of_ne hi]
    rfl

/-- The file gets other blocks. -/
theorem FileSystem.view_rewritten {blocks' : List ShadowfsBlock} {used : Nat} :
    (fs.rewritten a n blocks' used).view a = ⟨bytesOf blocks', (fs.view a).cursors⟩ := by
  refine congrArg (ByteFile.mk · _) ?_
  rw [FileSystem.blocksOf_rewritten_self]

/-- A file is emptied, or left as it is. -/
theorem Emptied.view {flags : BitVec 32} (h : Emptied fs a flags fs') (hfile : fs.IsFile a) :
    fs'.view a = ⟨(fs.view a).openedBytes flags, (fs.view a).cursors⟩ := by
  cases h with
  | not hflag => rw [ByteFile.openedBytes, if_neg hflag]
  | dir hflag hdir => exact absurd hfile hdir.not_isFile
  | file hflag hn => rw [FileSystem.view_rewritten, ByteFile.openedBytes, if_pos hflag, bytesOf_nil]

theorem Emptied.sizeAt_le {flags : BitVec 32} (h : Emptied fs a flags fs') : fs'.sizeAt a ≤ fs.sizeAt a := by
  cases h with
  | not hflag => exact le_rfl
  | dir hflag hdir => exact le_rfl
  | file hflag hn =>
    rw [FileSystem.sizeAt, FileSystem.blocksOf_rewritten_self]
    exact Nat.zero_le _

/-- The size field of a file that is not too large. -/
theorem FileSystem.Ok.size_eq (hfs : fs.Ok) (hfile : fs.IsFile a) (hn : fs.inodes a = some n)
    (hlen : fs.sizeAt a < 2 ^ 31) : n.size = fs.sizeAt a := by
  obtain ⟨n', hat⟩ := hfs.fileAt hfile
  obtain rfl : n = n' := Option.some.inj (hn.symm.trans hat.inode)
  exact hat.size.trans (Nat.mod_eq_of_lt (Nat.lt_of_lt_of_le hlen (by decide)))

/-- **Opening** the file at `a`. -/
theorem open_refines {b : Nat} {path : CString} {flags : BitVec 32} {r : Int} (hfs : fs.Ok)
    (hfile : fs.IsFile a) (hlen : fs.sizeAt a < 2 ^ 31) (hb : b ≠ 0) (hfresh : fs.inodes b = none)
    (hres : fs.resolve path = some a) (h : vfsOpen fs b path flags = .ok (r, fs')) :
    (fs.view a).Step (.open path flags) (.of r) (fs'.view a) := by
  obtain ⟨file, fs₁, hopens, hr⟩ := (vfsOpen_spec hfs hb hfresh).of_ok h
  cases hopens with
  | fail hnone => cases hres.symm.trans hnone
  | new hnone => cases hres.symm.trans hnone
  | @found b' n _ hres' hempty hn =>
    obtain rfl : a = b' := Option.some.inj (hres.symm.trans hres')
    have hview := hempty.view hfile
    rcases hr with ⟨heq, -⟩ | ⟨g, fd, hg, hfd, heq⟩
    · cases heq
      rw [hview]
      exact .openFull
    · cases heq
      cases hg
      have hok : fs₁.Ok := Mutation.ok_run hempty.mutation hfs
      have hfile₁ := Mutation.isFile_run hempty.mutation hfile
      have hsize : n.size = ((fs.view a).openedBytes flags).length := by
        rw [hok.size_eq hfile₁ hn (hempty.sizeAt_le.trans_lt hlen)]
        exact congrArg (fun s : ByteFile => s.bytes.length) hview
      obtain ⟨-, hmax, hnone⟩ := FileSystem.freeFd_eq_some hfd
      have hfree : (fs₁.view a).cursors fd = none := by
        simp [FileSystem.view, vfsGetFile, hnone]
      rw [← Int.toNat_natCast fd, FileSystem.view_setFile (Int.natCast_nonneg fd) (by omega) rfl,
        Int.toNat_natCast, hview, startAt, hsize]
      rw [hview] at hfree
      exact .open hfree

/-- **Reading** through a descriptor of the file at `a`. -/
theorem read_refines {fd : Int} {size : Nat} {bytes : List (BitVec 8)} {r : Int} (hfs : fs.Ok)
    (hfile : fs.IsFile a) (hlen : fs.sizeAt a < 2 ^ 31) (hsize : size < 2 ^ 32) (hopen : fs.Open fd f)
    (hinode : f.inode = a) (hpos : f.position ≤ fs.sizeAt a)
    (h : vfsRead fs fd size = .ok (r, bytes, fs')) :
    (fs.view a).Step (.read fd size) ⟨r, bytes, none⟩ (fs'.view a) := by
  subst hinode
  obtain ⟨n, hn⟩ := hfs.fileAt hfile
  have hcursor := hopen.view rfl
  obtain ⟨hfd, hmax⟩ := hopen.range
  rw [vfsRead, show vfsGetFile fs fd = some f from hopen] at h
  simp only at h
  split at h
  · rename_i hmode
    cases h
    exact .readDenied hcursor hmode
  · rename_i hmode
    rw [shadowfsRead_spec hn (Nat.lt_of_lt_of_le hlen (by decide)) hpos hsize] at h
    cases h
    rw [FileSystem.view_setFile hfd hmax rfl, toInt32_natCast]
    · exact .read hcursor hmode
    · rw [List.length_take, List.length_drop]
      change fs.sizeAt f.inode < _ at hlen
      unfold FileSystem.sizeAt at hlen
      omega

/-- `vfs_write` to a file appends: all of the buffer, if the quota is not reached then, and it had not
been reached before. -/
theorem vfsWrite_file {fd : Int} {buf : List (BitVec 8)} (hfs : fs.Ok) (hn : fs.FileAt f.inode n blocks)
    (hopen : fs.Open fd f) (hmode : f.flags ≠ oRdonly) (hpos : f.position < 2 ^ 32)
    (hbuf : buf.length < 2 ^ 32) : ∃ k blocks' used', k ≤ buf.length ∧ vfsWrite fs fd buf =
        .ok (toInt32 k, (fs.rewritten f.inode n blocks' used').setFile fd.toNat
          (some { f with position := add32 f.position k })) ∧
      bytesOf blocks' = bytesOf blocks ++ buf.take k ∧
      ((fs.rewritten f.inode n blocks' used').HasRoom f.inode →
        fs.HasRoom f.inode ∧ k = buf.length) := by
  obtain ⟨k, position, blocks', used', hk, heq, hposition, -, hbytes, hend, -, hused, hcap⟩ :=
    shadowfsWrite_spec hn hbuf
  refine ⟨k, blocks', used', hk, ?_, hbytes, fun hroom => ?_⟩
  · rw [vfsWrite, show vfsGetFile fs fd = some f from hopen]
    simp only [if_neg hmode, heq, hposition hpos]
    rfl
  · have hquota : ((fs.rewritten f.inode n blocks' used').mountOf n.sb).quota =
        (fs.mountOf n.sb).quota := FileSystem.quota_setUsed
    have hlt : used' < (fs.mountOf n.sb).quota := by
      have hroom' := hroom _ FileSystem.inodes_rewritten_self
      change ((fs.rewritten f.inode n blocks' used').mountOf n.sb).used < _ at hroom'
      rw [FileSystem.used_rewritten, if_pos rfl] at hroom'
      exact hquota ▸ hroom'
    have hsmall := hfs.quota n.sb
    have hle : (fs.mountOf n.sb).used ≤ used' := by
      have hstep : sizeofShadowfsBlock = 24 := rfl
      rw [hused, grow32_eq]
      · exact Nat.le_add_right _ _
      · have hold := hfs.used n.sb
        rcases hcap (by omega) with hsame | hmore
        · rw [hsame, Nat.sub_self]
          omega
        · omega
    refine ⟨fun n' hn' => ?_, hend.resolve_right (Nat.not_le_of_lt hlt)⟩
    obtain rfl : n = n' := Option.some.inj (hn.inode.symm.trans hn')
    exact hle.trans_lt hlt

/-- At the end, or where the descriptor appends, to write is to append. -/
theorem ByteFile.writeAt_eq {s : ByteFile} {c : Cursor} {buf : List (BitVec 8)}
    (h : ¬ Sets c.flags oAppend → buf ≠ [] → c.position = s.bytes.length) :
    s.writeAt c buf = s.bytes ++ buf := by
  unfold ByteFile.writeAt
  split
  · rfl
  · rename_i happend
    cases buf with
    | nil => rw [overwrite_nil, List.append_nil]
    | cons x xs => rw [h happend (List.cons_ne_nil x xs), overwrite_end]

/-- **Writing** through a descriptor of the file at `a`. -/
theorem write_refines {fd : Int} {buf : List (BitVec 8)} {r : Int} (hfs : fs.Ok)
    (hfile : fs.IsFile a) (hbuf : buf.length < 2 ^ 32) (hopen : fs.Open fd f) (hinode : f.inode = a)
    (hpos : f.position ≤ fs.sizeAt a) (hfits : fs.sizeAt a + buf.length < 2 ^ 31)
    (happ : f.flags ≠ oRdonly → ¬ Sets f.flags oAppend → buf ≠ [] → f.position = fs.sizeAt a)
    (h : vfsWrite fs fd buf = .ok (r, fs')) (hroom : fs'.HasRoom a) :
    (fs.view a).Step (.write fd buf) (.of r) (fs'.view a) ∧ fs'.sizeAt a < 2 ^ 31 := by
  subst hinode
  obtain ⟨n, hn⟩ := hfs.fileAt hfile
  have hcursor := hopen.view rfl
  obtain ⟨hfd, hmax⟩ := hopen.range
  by_cases hmode : f.flags = oRdonly
  · rw [vfsWrite, show vfsGetFile fs fd = some f from hopen] at h
    simp only [if_pos hmode] at h
    cases h
    exact ⟨.writeDenied hcursor hmode, by omega⟩
  · obtain ⟨k, blocks', used', -, heq, hbytes, hall⟩ :=
      vfsWrite_file hfs hn hopen hmode (by omega) hbuf
    rw [heq] at h
    cases h
    obtain rfl : k = buf.length := (hall hroom).2
    rw [List.take_length] at hbytes
    have hwritten : (fs.view f.inode).writeAt ⟨f.position, f.flags⟩ buf = bytesOf blocks' :=
      (ByteFile.writeAt_eq (happ hmode)).trans hbytes.symm
    have hsize : ((fs.rewritten f.inode n blocks' used').setFile fd.toNat
        (some { f with position := add32 f.position buf.length })).sizeAt f.inode =
        fs.sizeAt f.inode + buf.length := by
      change (bytesOf ((fs.rewritten f.inode n blocks' used').blocksOf f.inode)).length = _
      rw [FileSystem.blocksOf_rewritten_self, hbytes, List.length_append]
      rfl
    refine ⟨?_, hsize.trans_lt hfits⟩
    rw [FileSystem.view_setFile hfd hmax rfl, FileSystem.view_rewritten, toInt32_natCast (by omega),
      add32_eq (by omega), ← hwritten]
    exact .write hcursor hmode hpos

/-- **Seeking** with a descriptor of the file at `a`. -/
theorem seek_refines {fd : Int} {offset : BitVec 32} {whence : Nat} {r : Int} (hfs : fs.Ok)
    (hfile : fs.IsFile a) (hlen : fs.sizeAt a < 2 ^ 31) (hopen : fs.Open fd f) (hinode : f.inode = a)
    (hpos : (whence = 1 ∧ 0 ≤ f.position + offset.toInt ∧ f.position + offset.toInt ≤ fs.sizeAt a) ∨
      (whence = 2 ∧ 0 ≤ fs.sizeAt a + offset.toInt ∧ fs.sizeAt a + offset.toInt ≤ fs.sizeAt a))
    (h : vfsSeek fs fd offset whence = .ok (r, fs')) :
    (fs.view a).Step (.seek fd offset whence) (.of r) (fs'.view a) := by
  subst hinode
  have hcursor := hopen.view rfl
  obtain ⟨hfd, hmax⟩ := hopen.range
  rw [vfsSeek, show vfsGetFile fs fd = some f from hopen] at h
  rcases hpos with ⟨rfl, hlow, hhigh⟩ | ⟨rfl, hlow, hhigh⟩
  · obtain ⟨p, hp⟩ := Int.eq_ofNat_of_zero_le hlow
    simp only [add32_toInt hp.symm (by omega)] at h
    cases h
    rw [FileSystem.view_setFile hfd hmax rfl, toInt32_natCast (by omega)]
    exact .seekCur hcursor hp.symm
  · obtain ⟨n, hn⟩ := hfs.fileAt hfile
    obtain ⟨p, hp⟩ := Int.eq_ofNat_of_zero_le hlow
    simp only [FileSystem.deref_eq hn.inode, bind, Except.bind, hfs.size_eq hfile hn.inode hlen,
      add32_toInt hp.symm (show p < 2 ^ 32 by omega)] at h
    cases h
    rw [FileSystem.view_setFile hfd hmax rfl, toInt32_natCast (by omega)]
    exact .seekEnd hcursor hp.symm

end Refines

/-! ## 4. Runs -/

/-- What holds all along a run. -/
structure FileSystem.Readable (fs : FileSystem) (a : Nat) : Prop where
  ok : fs.Ok
  file : fs.IsFile a
  size : fs.sizeAt a < 2 ^ 31

/-- **One call** refines the interface, and leaves a file that is not too large. -/
theorem call_refines {fs fs' : FileSystem} {a b : Nat} {c : Call} {r : Reply} (hfs : fs.Readable a)
    (hb : b ≠ 0) (hfresh : fs.inodes b = none) (hsized : c.Sized) (hon : c.On fs a)
    (happ : c.Appends a fs) (h : vfsCall fs b c = .ok (r, fs')) (hroom : fs'.HasRoom a) :
    (fs.view a).Step c r (fs'.view a) ∧ fs'.Readable a := by
  have heffect := (vfsCall_spec hfs.ok hb hfresh hsized).of_ok h
  have hok : fs'.Ok := heffect.ok hfs.ok hb hfresh
  have hfile : fs'.IsFile a := by
    cases heffect with
    | mutation hmut => exact Mutation.isFile_run hmut hfs.file
    | delete => exact hon.elim
    | mount => exact hon.elim
  have hread : ∀ {s : ByteFile}, (fs.view a).Step c r s → s = fs'.view a →
      (∀ fd buf, c ≠ .write fd buf) → fs'.sizeAt a < 2 ^ 31 := by
    rintro _ hstep rfl hc
    exact (hstep.length_le hc).trans_lt hfs.size
  cases c with
  | «open» path flags =>
    obtain ⟨⟨r, fs₁⟩, heq, hr⟩ := map_eq_ok h
    cases hr
    have hstep := open_refines hfs.ok hfs.file hfs.size hb hfresh hon heq
    exact ⟨hstep, hok, hfile, hread hstep rfl nofun⟩
  | read fd size =>
    obtain ⟨f, hopen, hinode, hpos⟩ := hon
    obtain ⟨⟨r, bytes, fs₁⟩, heq, hr⟩ := map_eq_ok h
    cases hr
    have hstep := read_refines hfs.ok hfs.file hfs.size hsized hopen hinode hpos heq
    exact ⟨hstep, hok, hfile, hread hstep rfl nofun⟩
  | write fd buf =>
    obtain ⟨f, hopen, hinode, hpos⟩ := hon
    obtain ⟨⟨r, fs₁⟩, heq, hr⟩ := map_eq_ok h
    cases hr
    obtain ⟨hstep, hsize⟩ := write_refines hfs.ok hfs.file hsized hopen hinode hpos happ.1
      (happ.2 f hopen) heq hroom
    exact ⟨hstep, hok, hfile, hsize⟩
  | seek fd offset whence =>
    obtain ⟨f, hopen, hinode, hpos⟩ := hon
    obtain ⟨⟨r, fs₁⟩, heq, hr⟩ := map_eq_ok h
    cases hr
    have hstep := seek_refines hfs.ok hfs.file hfs.size hopen hinode hpos heq
    exact ⟨hstep, hok, hfile, hread hstep rfl nofun⟩
  | _ => exact hon.elim

/-- **A run** refines the interface. -/
theorem CursorRun.refines {fs₀ fs : FileSystem} {a : Nat} {trace : List (Call × Reply)}
    (hrun : CursorRun (Call.Appends a) a fs₀ trace fs) (hfs₀ : fs₀.Readable a) :
    (fs₀.view a).Run trace (fs.view a) ∧ fs.Readable a := by
  induction hrun with
  | start => exact ⟨.start, hfs₀⟩
  | call hrun hb hfresh hsized hon hP h hroom ih =>
    obtain ⟨hrefines, hfs⟩ := ih
    obtain ⟨hstep, hfs'⟩ := call_refines hfs hb hfresh hsized hon hP h hroom
    exact ⟨.call hrefines hstep, hfs'⟩
  | @other fs fs' trace hrun hstep hinode hcursors ih =>
    obtain ⟨hrefines, hfs⟩ := ih
    have hblocks : fs'.blocksOf a = fs.blocksOf a := FileSystem.blocksOf_congr hinode
    have hview : fs'.view a = fs.view a := ByteFile.ext (congrArg bytesOf hblocks) hcursors
    have hsize : fs'.sizeAt a = fs.sizeAt a := by
      rw [FileSystem.sizeAt, hblocks]
      rfl
    obtain ⟨n, hn, htype⟩ := hfs.file
    refine ⟨hview ▸ hrefines, hstep.ok hfs.ok, ⟨n, hinode.trans hn, htype⟩, hsize ▸ hfs.size⟩

theorem ByteFile.cursors_move {s : ByteFile} {fd : Int} {position : Nat} {flags : BitVec 32} :
    (s.move fd position flags).cursors fd = some ⟨position, flags⟩ := Function.update_self ..

/-- **What is written is read back**, through a descriptor that may do both and does not append. -/
theorem ByteFile.read_back {s s₁ s₂ s₃ : ByteFile} {fd : Int} {c : Cursor} {buf : List (BitVec 8)}
    {offset : BitVec 32} {r₁ r₂ r₃ : Reply} (h₁ : s.Step (.write fd buf) r₁ s₁)
    (h₂ : s₁.Step (.seek fd offset 1) r₂ s₂) (h₃ : s₂.Step (.read fd buf.length) r₃ s₃)
    (hc : s₃.cursors fd = some c) (hread : c.flags ≠ oWronly) (hwrite : c.flags ≠ oRdonly)
    (happ : ¬ Sets c.flags oAppend) (hoffset : offset.toInt = -buf.length) :
    r₃ = ⟨buf.length, buf, none⟩ := by
  cases h₂ with
  | @seekCur _ position c₁ _ hc₁ hpos₁ =>
  cases h₃ with
  | @readDenied _ _ c₂ hc₂ hmode =>
    rw [cursors_move] at hc hc₂
    cases hc
    cases hc₂
    exact absurd hmode hread
  | @read _ _ c₂ hc₂ hmode =>
    rw [cursors_move] at hc hc₂
    cases hc
    cases hc₂
    cases h₁ with
    | writeDenied hc₀ hmode₀ =>
      cases hc₀.symm.trans hc₁
      exact absurd hmode₀ hwrite
    | @write _ c₀ _ hc₀ hmode₀ hpos =>
      rw [cursors_move] at hc₁
      cases hc₁
      obtain rfl : position = c₀.position := by
        simp only at hpos₁
        omega
      have hback : readAt (move (move ⟨s.writeAt c₀ buf, s.cursors⟩ fd (c₀.position + buf.length)
          c₀.flags) fd c₀.position c₀.flags) c₀.position buf.length = buf := by
        rw [readAt, move, move, writeAt, if_neg happ]
        exact (overwrite_spec hpos).1
      rw [hback]

/-- A descriptor keeps its flags. -/
theorem ByteFile.Step.flags {s s' : ByteFile} {c : Call} {r : Reply} {fd : Int} {cur : Cursor}
    (h : s.Step c r s') (hcur : s.cursors fd = some cur) :
    ∃ cur', s'.cursors fd = some cur' ∧ cur'.flags = cur.flags := by
  have hmove : ∀ (t : ByteFile) (i : Int) (position : Nat) (flags : BitVec 32),
      t.cursors = s.cursors → (i = fd → flags = cur.flags) →
      ∃ cur', (t.move i position flags).cursors fd = some cur' ∧ cur'.flags = cur.flags := by
    intro t i position flags ht hflags
    by_cases hi : i = fd
    · subst hi
      exact ⟨_, cursors_move, hflags rfl⟩
    · have hold : (t.move i position flags).cursors fd = t.cursors fd :=
        Function.update_of_ne (Ne.symm hi) ..
      exact ⟨cur, by rw [hold, ht, hcur], rfl⟩
  have hsame : ∀ {i : Int} {c' : Cursor}, s.cursors i = some c' → i = fd → c'.flags = cur.flags := by
    rintro i c' hc' rfl
    cases hcur.symm.trans hc'
    rfl
  cases h with
  | «open» hfd =>
    refine hmove _ _ _ _ rfl ?_
    rintro rfl
    cases hcur.symm.trans hfd
  | openFull => exact ⟨cur, hcur, rfl⟩
  | read hc => exact hmove _ _ _ _ rfl (hsame hc)
  | readDenied => exact ⟨cur, hcur, rfl⟩
  | write hc => exact hmove _ _ _ _ rfl (hsame hc)
  | writeDenied => exact ⟨cur, hcur, rfl⟩
  | seekCur hc => exact hmove _ _ _ _ rfl (hsame hc)
  | seekEnd hc => exact hmove _ _ _ _ rfl (hsame hc)

theorem ByteFile.Run.flags {s₀ s : ByteFile} {trace : List (Call × Reply)} {fd : Int} {cur : Cursor}
    (h : s₀.Run trace s) (hcur : s₀.cursors fd = some cur) :
    ∃ cur', s.cursors fd = some cur' ∧ cur'.flags = cur.flags := by
  induction h with
  | start => exact ⟨cur, hcur, rfl⟩
  | call hrun hstep ih =>
    obtain ⟨cur₁, hcur₁, hflags⟩ := ih
    obtain ⟨cur₂, hcur₂, hflags'⟩ := hstep.flags hcur₁
    exact ⟨cur₂, hcur₂, hflags'.trans hflags⟩

/-- The run is taken apart at its last call. -/
theorem ByteFile.run_concat {s₀ s : ByteFile} {trace : List (Call × Reply)} {c : Call} {r : Reply}
    (h : s₀.Run (trace ++ [(c, r)]) s) : ∃ s', s₀.Run trace s' ∧ s'.Step c r s := by
  generalize ht : trace ++ [(c, r)] = t at h
  cases h with
  | start => simp at ht
  | call hrun hstep =>
    obtain ⟨rfl, heq⟩ := List.append_inj' ht rfl
    cases heq
    exact ⟨_, hrun, hstep⟩

/-- **Files are byte arrays with cursors**, in a run whose writes append or are made at the end of the
file, and that keeps it below `2^31` bytes: the replies are those of the interface, and what is written
through a descriptor is what is read back through it. -/
theorem cursors_refine (fs₀ fs : FileSystem) (a : Nat) (trace : List (Call × Reply))
    (hreach : Reached (fun _ _ => True) fs₀) (hfile : fs₀.IsFile a) (hsize : fs₀.sizeAt a < 2 ^ 31)
    (hrun : CursorRun (Call.Appends a) a fs₀ trace fs) :
    (fs₀.view a).Run trace (fs.view a) ∧
      ∀ (trace' : List (Call × Reply)) (fd : Int) (f : File) (buf : List (BitVec 8))
        (offset : BitVec 32) (r₁ r₂ r₃ : Reply),
        trace = trace' ++ [(.write fd buf, r₁)] ++ [(.seek fd offset 1, r₂)] ++
          [(.read fd buf.length, r₃)] → offset.toInt = -buf.length → fs.Open fd f → f.inode = a →
        f.flags ≠ oWronly → f.flags ≠ oRdonly → ¬ Sets f.flags oAppend →
        r₃ = ⟨buf.length, buf, none⟩ := by
  have hrefines := (hrun.refines ⟨hreach.ok, hfile, hsize⟩).1
  refine ⟨hrefines, ?_⟩
  rintro trace' fd f buf offset r₁ r₂ r₃ rfl hoffset hopen hinode hread hwrite happ
  obtain ⟨s₂, hrun₂, h₃⟩ := ByteFile.run_concat hrefines
  obtain ⟨s₁, hrun₁, h₂⟩ := ByteFile.run_concat hrun₂
  obtain ⟨s, -, h₁⟩ := ByteFile.run_concat hrun₁
  exact ByteFile.read_back h₁ h₂ h₃ (hopen.view hinode) hread hwrite happ hoffset

/-- Extending a run by the call that is made next. -/
theorem CursorRun.then {P : FileSystem → Call → Prop} {fs₀ fs : FileSystem} {a b : Nat}
    {trace : List (Call × Reply)} {c : Call} {r : Reply} (hrun : CursorRun P a fs₀ trace fs)
    (hb : b ≠ 0) (hfresh : fs.inodes b = none) (hsized : c.Sized) (hon : c.On fs a) (hP : P fs c)
    (h : (vfsCall fs b c).map Prod.fst = .ok r) (hroom : ((fs.after b c).inodes a).all (fun n =>
      ((fs.after b c).mountOf n.sb).used < ((fs.after b c).mountOf n.sb).quota) = true) :
    CursorRun P a fs₀ (trace ++ [(c, r)]) (fs.after b c) := by
  obtain ⟨⟨r, fs'⟩, heq, rfl⟩ := map_eq_ok h
  refine hrun.call hb hfresh hsized hon hP (heq.trans ?_) fun n hn => ?_
  · simp only [FileSystem.after, heq]
  · rw [hn] at hroom
    simpa using hroom

theorem tempFileFs_isFile : tempFileFs.IsFile 0x2000 := by
  have hany : (tempFileFs.inodes 0x2000).any (fun n => n.type = .file) = true := by decide +kernel
  cases hn : tempFileFs.inodes 0x2000 with
  | none =>
    rw [hn] at hany
    cases hany
  | some n =>
    rw [hn] at hany
    exact ⟨n, hn, by simpa using hany⟩

/-- Two bytes are written to the new file. -/
theorem cursors_refine_two_bytes : (tempFileFs.view 0x2000).Run
    [(.write 3 [0x41, 0x42], .of 2)] ((tempFileFs.after 0x3000 (.write 3 [0x41, 0x42])).view 0x2000) := by
  have hopen : tempFileFs.Open 3 ⟨0x2000, 0, oCreat⟩ := by decide +kernel
  have hsize : tempFileFs.sizeAt 0x2000 = 0 := by decide +kernel
  have happ : (Call.write 3 [0x41, 0x42]).Appends 0x2000 tempFileFs := by
    refine ⟨by simp [hsize], fun f hf _ _ _ => ?_⟩
    cases hopen.symm.trans hf
    exact hsize.symm
  have hrun : CursorRun (Call.Appends 0x2000) 0x2000 tempFileFs ([] ++ [(.write 3 [0x41, 0x42], .of 2)])
      (tempFileFs.after 0x3000 (.write 3 [0x41, 0x42])) :=
    CursorRun.start.then (by decide) (by decide +kernel) (by simp [Call.Sized])
      ⟨_, hopen, rfl, Nat.zero_le _⟩ happ (by decide +kernel) (by decide +kernel)
  exact (cursors_refine tempFileFs _ 0x2000 _ (tempFileFs_reached _ trivial trivial)
    tempFileFs_isFile (by simp [hsize]) hrun).1

/-- "AB" is written, the descriptor moved back to the start and "C" written: what is read there
afterwards is the "A". -/
theorem overwrite_lost : ∃ fs trace, CursorRun (fun _ _ => True) 0x2000 tempFileFs trace fs ∧
    trace = [(.write 3 [0x41, 0x42], .of 2), (.seek 3 (-2) 1, .of 0), (.write 3 [0x43], .of 1),
      (.seek 3 (-1) 1, .of 0), (.read 3 1, ⟨1, [0x41], none⟩)] ∧
    ¬ ∃ s, (tempFileFs.view 0x2000).Run trace s := by
  have h₁ := (@CursorRun.start (fun _ _ => True) 0x2000 tempFileFs).then
    (c := .write 3 [0x41, 0x42]) (r := .of 2) (b := 0x3000) (by decide) (by decide +kernel)
    (by simp [Call.Sized]) ⟨⟨0x2000, 0, oCreat⟩, by decide +kernel, rfl, Nat.zero_le _⟩ trivial
    (by decide +kernel) (by decide +kernel)
  have h₂ := h₁.then (c := .seek 3 (-2) 1) (r := .of 0) (b := 0x3000) (by decide) (by decide +kernel)
    trivial ⟨⟨0x2000, 2, oCreat⟩, by decide +kernel, rfl, by decide +kernel⟩ trivial
    (by decide +kernel) (by decide +kernel)
  have h₃ := h₂.then (c := .write 3 [0x43]) (r := .of 1) (b := 0x3000) (by decide) (by decide +kernel)
    (by simp [Call.Sized]) ⟨⟨0x2000, 0, oCreat⟩, by decide +kernel, rfl, Nat.zero_le _⟩ trivial
    (by decide +kernel) (by decide +kernel)
  have h₄ := h₃.then (c := .seek 3 (-1) 1) (r := .of 0) (b := 0x3000) (by decide) (by decide +kernel)
    trivial ⟨⟨0x2000, 1, oCreat⟩, by decide +kernel, rfl, by decide +kernel⟩ trivial
    (by decide +kernel) (by decide +kernel)
  have h₅ := h₄.then (c := .read 3 1) (r := ⟨1, [0x41], none⟩) (b := 0x3000) (by decide)
    (by decide +kernel) (by simp [Call.Sized]) ⟨⟨0x2000, 0, oCreat⟩, by decide +kernel, rfl,
      Nat.zero_le _⟩ trivial (by decide +kernel) (by decide +kernel)
  refine ⟨_, _, h₅, rfl, ?_⟩
  rintro ⟨s, hrun⟩
  have hopen : tempFileFs.Open 3 ⟨0x2000, 0, oCreat⟩ := by decide +kernel
  obtain ⟨c, hc, hflags⟩ := hrun.flags (hopen.view rfl)
  obtain ⟨s₂, hrun₂, hread⟩ := ByteFile.run_concat hrun
  obtain ⟨s₁, hrun₁, hseek⟩ := ByteFile.run_concat hrun₂
  obtain ⟨s₀, -, hwrite⟩ := ByteFile.run_concat hrun₁
  have hback := ByteFile.read_back hwrite hseek hread hc (by rw [hflags]; decide)
    (by rw [hflags]; decide) (by rw [hflags]; decide) (by decide)
  exact absurd hback (by decide)

end AcornOS
