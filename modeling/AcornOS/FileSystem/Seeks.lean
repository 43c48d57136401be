/-
# Seeking

`vfs_seek` should move a descriptor to a base plus an offset: to the offset itself for `SEEK_SET`, from
the position on for `SEEK_CUR`, from the end on for `SEEK_END`.  Where that is no position of an `int`,
it should return a negative number and stay where it is (`SeekLaw`).

The code misses this in two ways.

* **`SEEK_SET` adds to the position**, as `SEEK_CUR` does.  So it is right on a descriptor that is still
  at the start, and on no other.
* **Nothing is checked.**  A sum that is out of range is taken modulo `2^32` and becomes the position; that
  what is returned then looks negative is an accident of the conversion to `int`.

**`seek_law_iff`**: after any history of reads, writes and seeks, the law holds of a seek exactly if
`SeekMeets` does.  A test that seeks to 0 on a new descriptor sees none of this.
-/
import AcornOS.FileSystem.Truncation
import AcornOS.FileSystem.Vfs

namespace AcornOS

open Lib

/-! ## 1. The calls -/

namespace Store

/-- `vfs_read`, for the file that `vfs_get_file` finds for the descriptor. -/
def vfsRead (k : Store) (file : File) (buf : Nat → BitVec 8) (size : Nat) :
    Except Fault (Int × (Nat → BitVec 8) × File) :=
  if file.flags = oWronly then .ok (-1, buf, file) else k.shadowfsRead file buf size

/-- `vfs_write` -/
def vfsWrite (k : Store) (file : File) (buf : List (BitVec 8)) : Except Fault (Int × File × Store) :=
  if file.flags = oRdonly then .ok (-1, file, k)
  else do
    let (written, file, k) ← k.shadowfsWrite file buf
    .ok (toInt32 written, file, k)

/-- `vfs_seek` -/
def vfsSeek (k : Store) (file : File) (offset : BitVec 32) (whence : Int) : Except Fault (Int × File) :=
  let moved (position : Nat) : Int × File := (toInt32 position, { file with position := position })
  if whence = 0 then .ok (moved (add32 file.position offset.toNat))
  else if whence = 1 then .ok (moved (add32 file.position offset.toNat))
  else if whence = 2 then do
    let n ← k.inodeAt file.inode
    .ok (moved (add32 n.size offset.toNat))
  else .ok (-1, file)

end Store

/-- A history of one descriptor. -/
inductive SeekRun (k₀ : Store) (file₀ : File) : Store → File → Prop
  | start : SeekRun k₀ file₀ k₀ file₀
  | read {k : Store} {file file' : File} {buf buf' : Nat → BitVec 8} {size : Nat} {r : Int}
      (h : SeekRun k₀ file₀ k file) (hsize : size < 2 ^ 32)
      (hok : k.vfsRead file buf size = .ok (r, buf', file')) : SeekRun k₀ file₀ k file'
  | write {k k' : Store} {file file' : File} {buf : List (BitVec 8)} {r : Int}
      (h : SeekRun k₀ file₀ k file) (hbuf : buf.length < 2 ^ 32)
      (hok : k.vfsWrite file buf = .ok (r, file', k')) : SeekRun k₀ file₀ k' file'
  | seek {k : Store} {file file' : File} {offset : BitVec 32} {whence r : Int}
      (h : SeekRun k₀ file₀ k file) (hok : k.vfsSeek file offset whence = .ok (r, file')) :
      SeekRun k₀ file₀ k file'

/-! ## 2. The law -/

/-- Where a seek should go. -/
def seekTarget (position size : Nat) (offset : BitVec 32) (whence : Int) : Option Int :=
  if whence = 0 then some offset.toInt
  else if whence = 1 then some (position + offset.toInt)
  else if whence = 2 then some (size + offset.toInt)
  else none

/-- What a seek should do: go there and say so, or stay and return a negative number. -/
def SeekResult (position : Nat) (target : Option Int) (r : Int) (position' : Nat) : Prop :=
  match target with
  | some t => if 0 ≤ t ∧ t < 2 ^ 31 then r = t ∧ (position' : Int) = t else r < 0 ∧ position' = position
  | none => r < 0 ∧ position' = position

/-- **The seek law**, with the bytes that the next read returns. -/
def SeekLaw (k : Store) (file : File) (content : List (BitVec 8)) (offset : BitVec 32) (whence : Int) :
    Prop :=
  ∃ r file', k.vfsSeek file offset whence = .ok (r, file') ∧
    SeekResult file.position (seekTarget file.position content.length offset whence) r file'.position ∧
    (0 ≤ r → file.flags ≠ oWronly → ∀ (buf : Nat → BitVec 8), ∀ size < 2 ^ 32,
      k.vfsRead file' buf size = .ok ((Store.sliceAt content r.toNat size).length,
        Store.putAt buf 0 (Store.sliceAt content r.toNat size),
        { file' with position := r.toNat + (Store.sliceAt content r.toNat size).length }))

/-- **When the law holds**: a `SEEK_SET` from the start with an offset that is not negative; otherwise a
target in range, or one that is where the descriptor already stands, up to `2^32`. -/
def SeekMeets (position size : Nat) (offset : BitVec 32) (whence : Int) : Prop :=
  if whence = 0 then position = 0 ∧ 0 ≤ offset.toInt
  else ∀ t ∈ seekTarget position size offset whence,
    (0 ≤ t ∧ t < 2 ^ 31) ∨ t = position ∨ t + 2 ^ 32 = position

/-! ## 3. One seek -/

section Seek

variable {k : Store} {rest : List (Nat × Nat)} {objs : List Nat} {n : InodeNode}
  {bs : List (Nat × PageBlock)} {file : File} {offset : BitVec 32}

/-- A sum of 32 bits, as an `int`. -/
theorem add32_offset {base : Nat} (hbase : base < 2 ^ 32) (offset : BitVec 32) :
    ∃ q, add32 base offset.toNat = q ∧ q < 2 ^ 32 ∧
      ((q : Int) = base + offset.toInt ∨ (q : Int) = base + offset.toInt + 2 ^ 32 ∨
        (q : Int) = base + offset.toInt - 2 ^ 32) ∧
      toInt32 q = if q < 2 ^ 31 then (q : Int) else q - 2 ^ 32 := by
  have hlt := offset.isLt
  refine ⟨_, rfl, Nat.mod_lt _ (by decide), ?_, ?_⟩
  · rw [BitVec.toInt_eq_toNat_cond]
    unfold add32
    split <;> omega
  · generalize hq : add32 base offset.toNat = q
    have hq' : q < 2 ^ 32 := hq ▸ Nat.mod_lt _ (by decide)
    rw [toInt32, BitVec.toInt_eq_toNat_cond, BitVec.toNat_ofNat, Nat.mod_eq_of_lt hq']
    split <;> split <;> omega

/-- Moving from a base that is where it should be. -/
theorem seekResult_iff {base position : Nat} (hbase : base < 2 ^ 32) (hpos : position < 2 ^ 32) :
    SeekResult position (some (base + offset.toInt)) (toInt32 (add32 base offset.toNat))
      (add32 base offset.toNat) ↔
    (0 ≤ (base : Int) + offset.toInt ∧ (base : Int) + offset.toInt < 2 ^ 31) ∨
      (base : Int) + offset.toInt = position ∨ (base : Int) + offset.toInt + 2 ^ 32 = position := by
  obtain ⟨q, hq, hlt, hsum, hint⟩ := add32_offset hbase offset
  have hlow := offset.le_toInt
  have hhigh := offset.toInt_lt
  rw [hq, hint, SeekResult]
  generalize ht : (base : Int) + offset.toInt = t at *
  split
  · split <;> omega
  · split <;> omega

/-- `SEEK_SET`, which moves from the position. -/
theorem seekResult_set_iff {position : Nat} (hpos : position < 2 ^ 32) :
    SeekResult position (some offset.toInt) (toInt32 (add32 position offset.toNat))
      (add32 position offset.toNat) ↔ position = 0 ∧ 0 ≤ offset.toInt := by
  obtain ⟨q, hq, hlt, hsum, hint⟩ := add32_offset hpos offset
  have hlow := offset.le_toInt
  have hhigh := offset.toInt_lt
  rw [hq, hint, SeekResult]
  generalize offset.toInt = t at *
  split
  · split <;> omega
  · split <;> omega

/-- What `vfs_seek` returns, and where it leaves the descriptor. -/
theorem Store.FileAt.vfsSeek (h : k.FileAt rest objs file.inode n bs) (offset : BitVec 32) (whence : Int) :
    k.vfsSeek file offset whence = .ok (if whence = 0 ∨ whence = 1 then
        (toInt32 (add32 file.position offset.toNat),
          { file with position := add32 file.position offset.toNat })
      else if whence = 2 then
        (toInt32 (add32 n.size offset.toNat), { file with position := add32 n.size offset.toNat })
      else (-1, file)) := by
  unfold Store.vfsSeek
  by_cases h0 : whence = 0
  · rw [if_pos h0, if_pos (Or.inl h0)]
  by_cases h1 : whence = 1
  · rw [if_neg h0, if_pos h1, if_pos (Or.inr h1)]
  rw [if_neg h0, if_neg h1, if_neg (not_or.mpr ⟨h0, h1⟩)]
  by_cases h2 : whence = 2
  · rw [if_pos h2, if_pos h2, Store.inodeAt_eq h.node]
    rfl
  · rw [if_neg h2, if_neg h2]

/-- A seek changes the position only. -/
theorem Store.FileAt.vfsSeek_keeps (h : k.FileAt rest objs file.inode n bs) (hpos : file.position < 2 ^ 32)
    {whence r : Int} {file' : File} (hok : k.vfsSeek file offset whence = .ok (r, file')) :
    file'.inode = file.inode ∧ file'.flags = file.flags ∧ file'.position < 2 ^ 32 := by
  have hmod : ∀ b, add32 b offset.toNat < 2 ^ 32 := fun b => Nat.mod_lt _ (by decide)
  rw [h.vfsSeek] at hok
  split at hok
  · obtain ⟨-, rfl⟩ := Prod.mk.inj (Except.ok.inj hok)
    exact ⟨rfl, rfl, hmod _⟩
  · split at hok
    · obtain ⟨-, rfl⟩ := Prod.mk.inj (Except.ok.inj hok)
      exact ⟨rfl, rfl, hmod _⟩
    · obtain ⟨-, rfl⟩ := Prod.mk.inj (Except.ok.inj hok)
      exact ⟨rfl, rfl, hpos⟩

/-- A result that is not negative is the position. -/
theorem SeekResult.eq_of_nonneg {position position' : Nat} {target : Option Int} {r : Int}
    (h : SeekResult position target r position') (hr : 0 ≤ r) : r = position' := by
  unfold SeekResult at h
  split at h
  · split at h
    · exact h.1.trans h.2.symm
    · exact absurd h.1 (Int.not_lt.mpr hr)
  · exact absurd h.1 (Int.not_lt.mpr hr)

/-- The result is right exactly where `SeekMeets` says. -/
theorem Store.FileAt.seekResult_iff (h : k.FileAt rest objs file.inode n bs) (hpos : file.position < 2 ^ 32)
    {whence r : Int} {file' : File} (hok : k.vfsSeek file offset whence = .ok (r, file')) :
    SeekResult file.position
      (seekTarget file.position (Store.contentIn k.machine.mem bs).length offset whence) r file'.position ↔
    SeekMeets file.position (Store.contentIn k.machine.mem bs).length offset whence := by
  have hsize := h.length_lt k.machine.mem
  rw [h.vfsSeek, h.size] at hok
  generalize (Store.contentIn k.machine.mem bs).length = size at *
  by_cases h0 : whence = 0
  · rw [if_pos (Or.inl h0)] at hok
    obtain ⟨rfl, rfl⟩ := Prod.mk.inj (Except.ok.inj hok)
    rw [seekTarget, if_pos h0, SeekMeets, if_pos h0]
    exact seekResult_set_iff hpos
  rw [SeekMeets, if_neg h0, seekTarget, if_neg h0]
  by_cases h1 : whence = 1
  · rw [if_pos (Or.inr h1)] at hok
    obtain ⟨rfl, rfl⟩ := Prod.mk.inj (Except.ok.inj hok)
    rw [if_pos h1]
    exact (AcornOS.seekResult_iff hpos hpos).trans (by simp)
  rw [if_neg h1]
  rw [if_neg (not_or.mpr ⟨h0, h1⟩)] at hok
  by_cases h2 : whence = 2
  · rw [if_pos h2] at hok
    obtain ⟨rfl, rfl⟩ := Prod.mk.inj (Except.ok.inj hok)
    rw [if_pos h2]
    exact (AcornOS.seekResult_iff (hsize.trans (by decide)) hpos).trans (by simp)
  · rw [if_neg h2] at hok
    obtain ⟨rfl, rfl⟩ := Prod.mk.inj (Except.ok.inj hok)
    rw [if_neg h2]
    simp [SeekResult]

/-- **One seek** keeps to the law exactly if `SeekMeets` holds; the bytes of the next read are then those
from the new position on. -/
theorem Store.FileAt.seekLaw_iff (h : k.FileAt rest objs file.inode n bs) (hpos : file.position < 2 ^ 32)
    (offset : BitVec 32) (whence : Int) :
    SeekLaw k file (Store.contentIn k.machine.mem bs) offset whence ↔
      SeekMeets file.position (Store.contentIn k.machine.mem bs).length offset whence := by
  constructor
  · rintro ⟨r, file', hok, hresult, -⟩
    exact (h.seekResult_iff hpos hok).mp hresult
  · intro hmeets
    have hok := h.vfsSeek offset whence
    generalize (if whence = 0 ∨ whence = 1 then _ else _ : Int × File) = res at hok
    obtain ⟨r, file'⟩ := res
    have hresult := (h.seekResult_iff hpos hok).mpr hmeets
    refine ⟨r, file', hok, hresult, fun hr hflags buf size hsize => ?_⟩
    obtain ⟨hinode, hsame, hpos'⟩ := h.vfsSeek_keeps hpos hok
    obtain ⟨inode', position', flags'⟩ := file'
    simp only at hinode hsame hpos' hresult
    subst hinode hsame
    obtain rfl : r = position' := hresult.eq_of_nonneg hr
    rw [Store.vfsRead, if_neg hflags, Int.toNat_natCast]
    exact h.read buf file.flags hpos' hsize

/-! ## 4. Histories -/

/-- The descriptor leads to a file that is in order, and its position is one of 32 bits. -/
def Seekable (k : Store) (rest : List (Nat × Nat)) (objs : List Nat) (file : File) : Prop :=
  (∃ n bs, k.FileAt rest objs file.inode n bs) ∧ file.position < 2 ^ 32

/-- **The invariant of a history.** -/
theorem SeekRun.seekable {k₀ : Store} {file₀ : File} (h₀ : Seekable k₀ rest objs file₀)
    (hrun : SeekRun k₀ file₀ k file) : Seekable k rest objs file := by
  induction hrun with
  | start => exact h₀
  | @read k file file' buf buf' size r _ hsize hok ih =>
    obtain ⟨⟨n, bs, h⟩, hpos⟩ := ih
    unfold Store.vfsRead at hok
    split at hok
    · cases hok
      exact ⟨⟨n, bs, h⟩, hpos⟩
    · have hlen := h.length_lt k.machine.mem
      have hbound := Store.length_sliceAt (Store.contentIn k.machine.mem bs) file.position size
      cases hok.symm.trans (h.read buf file.flags hpos hsize)
      refine ⟨⟨n, bs, h⟩, ?_⟩
      change _ + _ < 2 ^ 32
      omega
  | @write k k' file file' buf r _ hbuf hok ih =>
    obtain ⟨⟨n, bs, h⟩, hpos⟩ := ih
    unfold Store.vfsWrite at hok
    split at hok
    · cases hok
      exact ⟨⟨n, bs, h⟩, hpos⟩
    · obtain ⟨w, hwrite, hres⟩ := bind_eq_ok.mp hok
      cases hres
      obtain ⟨bs', -, hfile, h', -⟩ := (h.write hpos hbuf).of_ok hwrite
      rw [hfile]
      exact ⟨⟨_, bs', h'⟩, Nat.mod_lt _ (by decide)⟩
  | seek _ hok ih =>
    obtain ⟨⟨n, bs, h⟩, hpos⟩ := ih
    obtain ⟨hinode, -, hpos'⟩ := h.vfsSeek_keeps hpos hok
    exact ⟨⟨n, bs, hinode ▸ h⟩, hpos'⟩

/-- **The seek law, and when it holds.**  Wherever a history of reads, writes and seeks has brought a
descriptor of a file, the next seek keeps to the law exactly if `SeekMeets` holds of it. -/
theorem seek_law_iff {k₀ : Store} {file₀ : File} {n₀ : InodeNode} {bs₀ : List (Nat × PageBlock)}
    (h₀ : k₀.FileAt rest objs file₀.inode n₀ bs₀) (hpos : file₀.position < 2 ^ 32)
    (hrun : SeekRun k₀ file₀ k file) : ∃ n bs, k.FileAt rest objs file.inode n bs ∧
      ∀ (offset : BitVec 32) (whence : Int),
        SeekLaw k file (Store.contentIn k.machine.mem bs) offset whence ↔
          SeekMeets file.position (Store.contentIn k.machine.mem bs).length offset whence := by
  obtain ⟨⟨n, bs, h⟩, hpos⟩ := hrun.seekable ⟨⟨n₀, bs₀, h₀⟩, hpos⟩
  exact ⟨n, bs, h, h.seekLaw_iff hpos⟩

end Seek

/-- One letter has been read. -/
theorem letterRead : ∃ k rest a n bs, Store.FileAt k rest [] a n bs ∧
    Store.contentIn k.machine.mem bs = [0x41, 0x42, 0x43] ∧
    SeekRun k ⟨a, 0, oRdonly⟩ k ⟨a, 1, oRdonly⟩ := by
  obtain ⟨k, rest, a, n, bs, h, hcontent, -⟩ := lettersFile
  have hread := h.read (fun _ => 0) oRdonly (show 0 < 2 ^ 32 by decide) (show 1 < 2 ^ 32 by decide)
  rw [hcontent] at hread
  exact ⟨k, rest, a, n, bs, h, hcontent, .read .start (show 1 < 2 ^ 32 by decide) hread⟩

/-- Back from the letter with `SEEK_CUR`: this is the way to the start that works. -/
theorem seek_law_back : ∃ k a, SeekRun k ⟨a, 0, oRdonly⟩ k ⟨a, 1, oRdonly⟩ ∧
    ∃ content, SeekLaw k ⟨a, 1, oRdonly⟩ content (-1) 1 := by
  obtain ⟨k, rest, a, n, bs, h, hcontent, hrun⟩ := letterRead
  obtain ⟨n', bs', -, hiff⟩ := seek_law_iff h (show 0 < 2 ^ 32 by decide) hrun
  refine ⟨k, a, hrun, _, (hiff (-1) 1).mpr ?_⟩
  rw [SeekMeets, if_neg (by decide), seekTarget]
  simp

/-- **The test of the repository, after one read**: `seek(fd, 0, SEEK_SET)` returns 1 and stays at 1. -/
theorem seek_set_not_start : ∃ k rest a n bs, Store.FileAt k rest [] a n bs ∧
    SeekRun k ⟨a, 0, oRdonly⟩ k ⟨a, 1, oRdonly⟩ ∧
    k.vfsSeek ⟨a, 1, oRdonly⟩ 0 0 = .ok (1, ⟨a, 1, oRdonly⟩) ∧
    ¬ SeekLaw k ⟨a, 1, oRdonly⟩ (Store.contentIn k.machine.mem bs) 0 0 := by
  obtain ⟨k, rest, a, n, bs, h, -, hrun⟩ := letterRead
  refine ⟨k, rest, a, n, bs, h, hrun, rfl, fun hlaw => ?_⟩
  obtain ⟨r, file', hok, hresult, -⟩ := hlaw
  cases hok
  have hzero : toInt32 (add32 1 (BitVec.toNat 0)) = BitVec.toInt 0 := hresult.1
  exact absurd hzero (by decide)

end AcornOS
