/-
# Files as byte strings

What `shadowfs_write`, `shadowfs_read` and `shadowfs_truncate` do to the bytes of a file.

* `BlocksOk` is the representation: the pages hold what is used of them, and they are packed
  (`Lib/Chunks.lean`).
* `writeLoop_spec`: a write APPENDS a prefix of its buffer, all of it unless the quota stops it.
* `readBlocks_eq`: a read copies a stretch of the bytes.
* **`blocks_and_appends`** runs writes and truncations of one file, through any number of descriptors
  and with anything else happening in between.
-/
import AcornOS.FileSystem.ShadowFs

namespace AcornOS

open Lib Relation

/-! ## 1. The representation -/

/-- The bytes of a chain of blocks. -/
def bytesOf (blocks : List ShadowfsBlock) : List (BitVec 8) :=
  (blocks.map ShadowfsBlock.data).flatten

/-- The pages hold exactly the bytes used of them, and they are packed. -/
structure BlocksOk (blocks : List ShadowfsBlock) : Prop where
  data : ∀ b ∈ blocks, b.data.length = b.used
  packed : Packed shadowfsBlockSize (blocks.map ShadowfsBlock.data)

theorem blocksOk_nil : BlocksOk [] := ⟨by simp, packed_nil⟩

@[simp] theorem bytesOf_nil : bytesOf [] = [] := rfl

@[simp] theorem bytesOf_cons (b : ShadowfsBlock) (bs : List ShadowfsBlock) :
    bytesOf (b :: bs) = b.data ++ bytesOf bs := rfl

@[simp] theorem bytesOf_append (bs cs : List ShadowfsBlock) :
    bytesOf (bs ++ cs) = bytesOf bs ++ bytesOf cs := by
  simp [bytesOf]

section Blocks

variable {blocks : List ShadowfsBlock} {last : ShadowfsBlock} {x : List (BitVec 8)}

theorem add32_eq {a b : Nat} (h : a + b < 2 ^ 32) : add32 a b = a + b := Nat.mod_eq_of_lt h

theorem sub32_eq {a b : Nat} (h : b ≤ a) (ha : a < 2 ^ 32) : sub32 a b = a - b := by
  unfold sub32
  omega

theorem toInt32_natCast {k : Nat} (h : k < 2 ^ 31) : toInt32 k = k := by
  have hk : (BitVec.ofNat 32 k).toNat = k := by
    rw [BitVec.toNat_ofNat]
    exact Nat.mod_eq_of_lt (by omega)
  rw [toInt32, BitVec.toInt_eq_toNat_of_lt (by omega), hk]

/-- A position is moved by a signed offset. -/
theorem add32_toInt {p q : Nat} {offset : BitVec 32} (h : (q : Int) = p + offset.toInt) (hq : q < 2 ^ 32) :
    add32 p offset.toNat = q := by
  rw [BitVec.toInt_eq_toNat_cond] at h
  have hlt := offset.isLt
  unfold add32
  split at h <;> omega

/-- The sum of the `used` fields. -/
theorem sum_used (h : ∀ b ∈ blocks, b.data.length = b.used) :
    (blocks.map ShadowfsBlock.used).sum = (bytesOf blocks).length := by
  induction blocks with
  | nil => rfl
  | cons b bs ih =>
    rw [List.map_cons, List.sum_cons, bytesOf_cons, List.length_append, h b (by simp),
      ih fun c hc => h c (List.mem_cons_of_mem b hc)]

/-- What the packing says in terms of `used`. -/
theorem BlocksOk.used (h : BlocksOk (blocks ++ [last])) :
    (∀ b ∈ blocks, b.used = shadowfsBlockSize) ∧ 1 ≤ last.used ∧ last.used ≤ shadowfsBlockSize := by
  have hpacked := h.packed
  rw [List.map_append, List.map_cons, List.map_nil] at hpacked
  obtain ⟨hfull, hpos, hle⟩ := packed_concat.mp hpacked
  rw [h.data last (by simp)] at hpos hle
  refine ⟨fun b hb => ?_, hpos, hle⟩
  rw [← h.data b (List.mem_append_left _ hb)]
  exact hfull _ (List.mem_map_of_mem hb)

/-- A new block behind full ones. -/
theorem BlocksOk.snoc (h : BlocksOk blocks) (hlast : ∀ b ∈ blocks.getLast?, b.used = shadowfsBlockSize)
    (hpos : 0 < x.length) (hle : x.length ≤ shadowfsBlockSize) :
    BlocksOk (blocks ++ [⟨x, x.length⟩]) := by
  refine ⟨fun b hb => ?_, ?_⟩
  · rcases List.mem_append.mp hb with hb | hb
    · exact h.data b hb
    · rw [List.mem_singleton.mp hb]
  · rw [List.map_append]
    refine h.packed.snoc (fun c hc => ?_) hpos hle
    rw [List.getLast?_map] at hc
    obtain ⟨b, hb, rfl⟩ := Option.map_eq_some_iff.mp hc
    rw [h.data b (List.mem_of_getLast? hb)]
    exact hlast b hb

/-- More bytes in the last block. -/
theorem BlocksOk.extend (h : BlocksOk (blocks ++ [last]))
    (hle : last.used + x.length ≤ shadowfsBlockSize) :
    BlocksOk (blocks ++ [⟨last.data ++ x, last.used + x.length⟩]) := by
  have hdata := h.data last (by simp)
  refine ⟨fun b hb => ?_, ?_⟩
  · rcases List.mem_append.mp hb with hb | hb
    · exact h.data b (List.mem_append_left _ hb)
    · rw [List.mem_singleton.mp hb, List.length_append, hdata]
  · have hpacked := h.packed
    rw [List.map_append, List.map_cons, List.map_nil] at hpacked ⊢
    refine hpacked.extend ?_
    rw [List.length_append, hdata]
    exact hle

end Blocks

/-! ## 2. Writing -/

/-- A counter of 32 bits that is moved up by `n` in steps: if there is no step, it is not touched. -/
def grow32 (a n : Nat) : Nat := if n = 0 then a else add32 a n

@[simp] theorem grow32_zero (a : Nat) : grow32 a 0 = a := rfl

theorem grow32_add (a m n : Nat) : grow32 (grow32 a m) n = grow32 a (m + n) := by
  unfold grow32 add32
  split <;> split <;> split <;> omega

theorem grow32_eq {a n : Nat} (h : a + n < 2 ^ 32) : grow32 a n = a + n := by
  unfold grow32 add32
  split <;> omega

theorem add32_eq_grow32 {a n : Nat} (h : 0 < n) : add32 a n = grow32 a n :=
  (if_neg h.ne').symm

theorem grow32_mod (a n : Nat) : grow32 (a % 2 ^ 32) n = (a + n) % 2 ^ 32 := by
  unfold grow32 add32
  split <;> omega

/-- `Appended w w' x`: the loop went from `w` to `w'` and has appended the bytes `x`. -/
structure Appended (w w' : Writing) (x : List (BitVec 8)) : Prop where
  ok : BlocksOk w'.blocks
  bytes : bytesOf w'.blocks = bytesOf w.blocks ++ x
  written : w'.written = grow32 w.written x.length
  blocks : w.blocks.length ≤ w'.blocks.length
  count : w'.blockCount = grow32 w.blockCount (w'.blocks.length - w.blocks.length)
  used : w'.mountUsed =
    grow32 w.mountUsed (sizeofShadowfsBlock * (w'.blocks.length - w.blocks.length))

section Writing

variable {w w' w'' : Writing} {src x y : List (BitVec 8)} {quota : Nat}

theorem Appended.refl (h : BlocksOk w.blocks) : Appended w w [] where
  ok := h
  bytes := by simp
  written := by simp
  blocks := le_rfl
  count := by simp
  used := by simp

theorem Appended.trans (h : Appended w w' x) (h' : Appended w' w'' y) : Appended w w'' (x ++ y) where
  ok := h'.ok
  bytes := by rw [h'.bytes, h.bytes, List.append_assoc]
  written := by rw [h'.written, h.written, List.length_append, grow32_add]
  blocks := h.blocks.trans h'.blocks
  count := by
    have := h.blocks
    have := h'.blocks
    rw [h'.count, h.count, grow32_add]
    congr 1
    omega
  used := by
    have := h.blocks
    have := h'.blocks
    rw [h'.used, h.used, grow32_add, ← Nat.mul_add]
    congr 2
    omega

/-- A round that opens a new block. -/
theorem Writing.round_new (h : BlocksOk w.blocks) (hsrc : src ≠ []) (hneeds : w.needsBlock = true) :
    (w.round src).1 = src.drop (min src.length shadowfsBlockSize) ∧
      Appended w (w.round src).2 (src.take (min src.length shadowfsBlockSize)) ∧
      (w.round src).2.blocks.length = w.blocks.length + 1 := by
  have hlast : ∀ b ∈ w.blocks.getLast?, b.used = shadowfsBlockSize := by
    intro b hb
    have hb' : w.blocks.getLast? = some b := hb
    simpa [needsBlock, hb'] using hneeds
  have hspace : sub32 shadowfsBlockSize 0 = shadowfsBlockSize := by decide
  generalize hk : min src.length shadowfsBlockSize = k
  have hlen : (src.take k).length = k := by
    rw [List.length_take]
    omega
  have hround : w.round src = (src.drop k,
      { w.addBlock with
        blocks := w.blocks ++ [⟨src.take k, (src.take k).length⟩], written := add32 w.written k }) := by
    have hk32 : add32 0 k = k := by
      refine (add32_eq ?_).trans (Nat.zero_add k)
      unfold shadowfsBlockSize at hk
      omega
    simp only [round, hneeds, if_true, fill, addBlock, toWrite, List.getLast?_concat, Option.getD_some,
      hspace, hk, List.dropLast_concat, List.take_nil, List.nil_append, List.drop_nil,
      List.append_nil, hlen, hk32]
  have hpos : 0 < k := by
    have := List.length_pos_iff.mpr hsrc
    unfold shadowfsBlockSize at hk
    omega
  rw [hround]
  refine ⟨rfl, ⟨?_, ?_, ?_, ?_, ?_, ?_⟩, ?_⟩
  · exact h.snoc hlast (by omega) (by omega)
  · simp
  · rw [hlen]
    exact add32_eq_grow32 hpos
  · simp
  · simp [addBlock, add32_eq_grow32]
  · simp [addBlock, add32_eq_grow32, sizeofShadowfsBlock]
  · simp

/-- A round that goes on in the last block. -/
theorem Writing.round_last {bs : List ShadowfsBlock} {last : ShadowfsBlock} (hbs : w.blocks = bs ++ [last])
    (h : BlocksOk w.blocks) (hsrc : src ≠ []) (hneeds : w.needsBlock = false) :
    last.used < shadowfsBlockSize ∧
      (w.round src).1 = src.drop (min src.length (shadowfsBlockSize - last.used)) ∧
      Appended w (w.round src).2 (src.take (min src.length (shadowfsBlockSize - last.used))) ∧
      (w.round src).2.blocks.length = w.blocks.length := by
  rw [hbs] at h
  obtain ⟨-, hpos, hle⟩ := h.used
  have hdata := h.data last (by simp)
  have hlt : last.used < shadowfsBlockSize := by
    have hne : last.used ≠ shadowfsBlockSize := by
      simpa [needsBlock, hbs] using hneeds
    omega
  have hspace : sub32 shadowfsBlockSize last.used = shadowfsBlockSize - last.used :=
    sub32_eq hle (by decide)
  generalize hk : min src.length (shadowfsBlockSize - last.used) = k
  have hlen : (src.take k).length = k := by
    rw [List.length_take]
    omega
  have hround : w.round src = (src.drop k,
      { w with
        blocks := bs ++ [⟨last.data ++ src.take k, last.used + (src.take k).length⟩]
        written := add32 w.written k }) := by
    have hk32 : add32 last.used k = last.used + k := by
      refine add32_eq ?_
      unfold shadowfsBlockSize at hk hlt
      omega
    have htake : last.data.take last.used = last.data := List.take_of_length_le hdata.le
    have hdrop : last.data.drop (last.used + k) = [] := List.drop_eq_nil_of_le (by omega)
    simp only [round, hneeds, Bool.false_eq_true, if_false, fill, toWrite, hbs, List.getLast?_concat,
      Option.getD_some, hspace, hk, List.dropLast_concat, htake, hdrop, List.append_nil, hlen, hk32]
  have hpos' : 0 < k := by
    have := List.length_pos_iff.mpr hsrc
    omega
  rw [hround]
  refine ⟨hlt, rfl, ⟨?_, ?_, ?_, ?_, ?_, ?_⟩, ?_⟩
  · exact h.extend (by omega)
  · simp [hbs]
  · rw [hlen]
    exact add32_eq_grow32 hpos'
  · simp [hbs]
  · simp [hbs]
  · simp [hbs]
  · simp [hbs]

/-- **One round of the loop** writes at least one byte, and adds a block only behind full ones. -/
theorem Writing.round_spec (h : BlocksOk w.blocks) (hsrc : src ≠ []) :
    ∃ k, 0 < k ∧ k ≤ src.length ∧ (w.round src).1 = src.drop k ∧
      Appended w (w.round src).2 (src.take k) ∧
      (w.round src).2.blocks.length ≤ w.blocks.length + 1 := by
  have hlen : 0 < src.length := List.length_pos_iff.mpr hsrc
  cases hneeds : w.needsBlock with
  | true =>
    obtain ⟨hrest, happ, hblocks⟩ := round_new h hsrc hneeds
    refine ⟨_, ?_, Nat.min_le_left _ _, hrest, happ, hblocks.le⟩
    unfold shadowfsBlockSize
    omega
  | false =>
    rcases List.eq_nil_or_concat w.blocks with hnil | ⟨bs, last, hbs⟩
    · simp [needsBlock, hnil] at hneeds
    · rw [List.concat_eq_append] at hbs
      obtain ⟨hlt, hrest, happ, hblocks⟩ := round_last hbs h hsrc hneeds
      refine ⟨_, ?_, Nat.min_le_left _ _, hrest, happ, hblocks.le.trans (Nat.le_succ _)⟩
      omega

/-- **The loop of `shadowfs_write`** ends, and has appended a prefix of its source: all of it, unless
the quota is used up.  A block is only added while the quota is not. -/
theorem writeLoop_spec : ∀ (fuel : Nat) (w : Writing) (src : List (BitVec 8)), src.length ≤ fuel →
    BlocksOk w.blocks → ∃ w' k, writeLoop quota fuel w src = .ok w' ∧ k ≤ src.length ∧
      Appended w w' (src.take k) ∧ (k = src.length ∨ quota ≤ w'.mountUsed) ∧
      (quota + sizeofShadowfsBlock ≤ 2 ^ 32 → w'.blocks.length = w.blocks.length ∨
        w.mountUsed + sizeofShadowfsBlock * (w'.blocks.length - w.blocks.length) <
          quota + sizeofShadowfsBlock)
  | _, w, [], _, h =>
    ⟨w, 0, by simp [writeLoop], le_rfl, by simpa using Appended.refl h, Or.inl rfl,
      fun _ => Or.inl rfl⟩
  | 0, _, _ :: _, hfuel, _ => absurd hfuel (by simp)
  | fuel + 1, w, b :: src, hfuel, h => by
    rw [writeLoop]
    by_cases hquota : w.mountUsed ≥ quota
    · rw [if_pos hquota]
      exact ⟨w, 0, rfl, Nat.zero_le _, by simpa using Appended.refl h, Or.inr hquota,
        fun _ => Or.inl rfl⟩
    rw [if_neg hquota]
    obtain ⟨k, hk, hkl, hrest, happ, hblocks⟩ := Writing.round_spec h (List.cons_ne_nil b src)
    have hshort : ((b :: src).drop k).length ≤ fuel := by
      rw [List.length_drop]
      omega
    obtain ⟨w', j, hok, hj, happ', hend, hcap⟩ := writeLoop_spec fuel _ _ hshort happ.ok
    rw [List.length_drop] at hj
    have hpre : (b :: src).take k ++ ((b :: src).drop k).take j = (b :: src).take (k + j) :=
      List.take_add.symm
    refine ⟨w', k + j, ?_, by omega, hpre ▸ happ.trans happ', ?_, fun hq => ?_⟩
    · simp only [hrest]
      exact hok
    · rcases hend with hj | hq
      · rw [List.length_drop] at hj
        exact Or.inl (by omega)
      · exact Or.inr hq
    · have hle := happ.blocks
      have hle' := happ'.blocks
      have hmid := happ.used
      have hcap' := hcap hq
      rcases Nat.lt_or_ge w.blocks.length (w.round (b :: src)).2.blocks.length with hnew | hsame
      · -- the round added a block, while the quota was not used up
        have hone : (w.round (b :: src)).2.blocks.length = w.blocks.length + 1 := by omega
        rw [hone, Nat.add_sub_cancel_left, Nat.mul_one, grow32_eq (by omega)] at hmid
        right
        rw [hone, hmid] at hcap'
        unfold sizeofShadowfsBlock at *
        omega
      · have heq : (w.round (b :: src)).2.blocks.length = w.blocks.length := by omega
        rw [heq, Nat.sub_self, Nat.mul_zero, grow32_zero] at hmid
        rw [heq, hmid] at hcap'
        exact hcap'

end Writing

/-! ## 3. Reading -/

/-- **The walk of `shadowfs_read`** copies the bytes from `offset` on. -/
theorem readBlocks_eq : ∀ (blocks : List ShadowfsBlock) (offset remaining start : Nat),
    (∀ b ∈ blocks, b.data.length = b.used) → start + (bytesOf blocks).length < 2 ^ 32 →
    start ≤ offset → offset < 2 ^ 32 →
    readBlocks blocks offset remaining start = ((bytesOf blocks).drop (offset - start)).take remaining
  | [], _, _, _, _, _, _, _ => by simp [readBlocks]
  | b :: bs, offset, remaining, start, hdata, hsize, hstart, hoffset => by
    have hb := hdata b (by simp)
    have hbs : ∀ c ∈ bs, c.data.length = c.used := fun c hc => hdata c (List.mem_cons_of_mem b hc)
    rw [bytesOf_cons, List.length_append, hb] at hsize
    have hend : add32 start b.used = start + b.used := add32_eq (by omega)
    rw [readBlocks]
    by_cases hrem : remaining = 0
    · rw [if_pos hrem, hrem, List.take_zero]
    rw [if_neg hrem, hend]
    by_cases hin : offset < start + b.used
    · have hoff : sub32 offset start = offset - start := sub32_eq hstart hoffset
      have havail : sub32 b.used (offset - start) = b.used - (offset - start) :=
        sub32_eq (by omega) (by omega)
      simp only [if_pos hin, hoff, havail]
      generalize hk : min remaining (b.used - (offset - start)) = k
      have hnext : add32 offset k = offset + k := add32_eq (by omega)
      rw [hnext, bytesOf_cons, List.drop_append_of_le_length (by omega), List.take_append,
        List.length_drop, hb]
      by_cases hdone : remaining ≤ b.used - (offset - start)
      · -- the block has all that is asked for
        have hkr : k = remaining := by omega
        have hzero : remaining - k = 0 := by omega
        have hstop : ∀ (l : List ShadowfsBlock) (o s : Nat), readBlocks l o 0 s = [] := by
          intro l o s
          cases l with
          | nil => rfl
          | cons c cs => rw [readBlocks, if_pos rfl]
        rw [hzero, hstop, hkr]
        simp [Nat.sub_eq_zero_of_le hdone]
      · have hkb : k = b.used - (offset - start) := by omega
        have hfrom : offset + k = start + b.used := by omega
        rw [hfrom, readBlocks_eq bs (start + b.used) (remaining - k) (start + b.used) hbs (by omega)
          le_rfl (by omega), Nat.sub_self, List.drop_zero, hkb]
        have hall : ∀ n, b.used - (offset - start) ≤ n →
            (b.data.drop (offset - start)).take n = b.data.drop (offset - start) := by
          intro n hn
          refine List.take_of_length_le ?_
          rw [List.length_drop, hb]
          exact hn
        rw [hall _ le_rfl, hall remaining (by omega)]
    · rw [if_neg hin, readBlocks_eq bs offset remaining (start + b.used) hbs (by omega) (by omega)
        hoffset, bytesOf_cons]
      have hskip : offset - start = b.data.length + (offset - (start + b.used)) := by omega
      have hnil : b.data.drop (b.data.length + (offset - (start + b.used))) = [] :=
        List.drop_eq_nil_of_le (Nat.le_add_right _ _)
      rw [hskip, List.drop_append, hnil, List.nil_append, Nat.add_sub_cancel_left]

/-! ## 4. Files in the file system -/

namespace FileSystem

variable (fs : FileSystem) (a b sb used : Nat) (n : Inode) (m : ShadowfsMount)

@[simp] theorem inodes_setInode_self : (fs.setInode a n).inodes a = some n := Function.update_self ..

theorem inodes_setInode_of_ne {a b : Nat} (h : b ≠ a) : (fs.setInode a n).inodes b = fs.inodes b :=
  Function.update_of_ne h ..

@[simp] theorem inodes_setMount : (fs.setMount sb m).inodes = fs.inodes := rfl

@[simp] theorem inodes_setUsed : (fs.setUsed sb used).inodes = fs.inodes := rfl

@[simp] theorem mountOf_setInode : (fs.setInode a n).mountOf sb = fs.mountOf sb := rfl

@[simp] theorem mountOf_setMount_self : (fs.setMount sb m).mountOf sb = m := by
  simp [mountOf, setMount]

@[simp] theorem mountOf_setUsed_self :
    (fs.setUsed sb used).mountOf sb = { fs.mountOf sb with used := used } :=
  mountOf_setMount_self ..

theorem setUsed_self : fs.setUsed sb (fs.mountOf sb).used = fs := by
  have hmount : ({ fs.mountTable sb with mount := fs.mountOf sb } : Superblock) = fs.mountTable sb := rfl
  have heq : ({ fs.mountOf sb with used := (fs.mountOf sb).used } : ShadowfsMount) = fs.mountOf sb := rfl
  rw [setUsed, heq, setMount, hmount, Function.update_eq_self]

theorem deref_eq {fs : FileSystem} {a : Nat} {n : Inode} (h : fs.inodes a = some n) :
    fs.deref a = .ok n := by
  rw [deref, h]

/-- The address `a` leads to the inode `n`, a file of the given blocks. -/
structure FileAt (fs : FileSystem) (a : Nat) (n : Inode) (blocks : List ShadowfsBlock) : Prop where
  inode : fs.inodes a = some n
  data : n.privateData = .file blocks (blocks.length % 2 ^ 32)
  ok : BlocksOk blocks
  size : n.size = (bytesOf blocks).length % 2 ^ 32

end FileSystem

/-- The inode with other blocks. -/
def Inode.withBlocks (n : Inode) (blocks : List ShadowfsBlock) : Inode :=
  { n with
    privateData := .file blocks (blocks.length % 2 ^ 32)
    size := (bytesOf blocks).length % 2 ^ 32 }

section FileAt

variable {fs : FileSystem} {a : Nat} {n : Inode} {blocks : List ShadowfsBlock}

theorem FileSystem.FileAt.withBlocks_self (h : fs.FileAt a n blocks) : n.withBlocks blocks = n := by
  obtain ⟨inodeNum, size, sb, privateData⟩ := n
  have hdata := h.data
  have hsize := h.size
  simp only at hdata hsize
  simp only [Inode.withBlocks, hdata, hsize]

theorem FileSystem.fileAt_setInode (fs : FileSystem) (a used : Nat) (n : Inode) (h : BlocksOk blocks) :
    ((fs.setInode a (n.withBlocks blocks)).setUsed n.sb used).FileAt a (n.withBlocks blocks) blocks :=
  ⟨inodes_setInode_self .., rfl, h, rfl⟩

/-- **`shadowfs_write`** appends a prefix of the buffer, whatever the position: all of it, unless the
quota is used up. -/
theorem shadowfsWrite_spec {file : File} {buf : List (BitVec 8)} (h : fs.FileAt file.inode n blocks)
    (hbuf : buf.length < 2 ^ 32) : ∃ k position blocks' used', k ≤ buf.length ∧
      shadowfsWrite fs file buf = .ok (k, { file with position := position },
        (fs.setInode file.inode (n.withBlocks blocks')).setUsed n.sb used') ∧
      (file.position < 2 ^ 32 → position = add32 file.position k) ∧
      BlocksOk blocks' ∧ bytesOf blocks' = bytesOf blocks ++ buf.take k ∧
      (k = buf.length ∨ (fs.mountOf n.sb).quota ≤ used') ∧ blocks.length ≤ blocks'.length ∧
      used' = grow32 (fs.mountOf n.sb).used
        (sizeofShadowfsBlock * (blocks'.length - blocks.length)) ∧
      ((fs.mountOf n.sb).quota + sizeofShadowfsBlock ≤ 2 ^ 32 → blocks'.length = blocks.length ∨
        (fs.mountOf n.sb).used + sizeofShadowfsBlock * (blocks'.length - blocks.length) <
          (fs.mountOf n.sb).quota + sizeofShadowfsBlock) := by
  have hderef := FileSystem.deref_eq h.inode
  by_cases hnil : buf = []
  · refine ⟨0, file.position, blocks, (fs.mountOf n.sb).used, Nat.zero_le _, ?_,
      fun hp => (Nat.mod_eq_of_lt hp).symm, h.ok, by simp, Or.inl ?_, le_rfl, ?_, fun _ => Or.inl rfl⟩
    · have hself : fs.setInode file.inode n = fs := by
        rw [FileSystem.setInode, ← h.inode, Function.update_eq_self]
      rw [shadowfsWrite, hderef, h.withBlocks_self, hself, FileSystem.setUsed_self]
      simp [bind, Except.bind, hnil]
    · rw [hnil]
      rfl
    · simp
  · obtain ⟨w, k, hok, hk, happ, hend, hcap⟩ := @writeLoop_spec (fs.mountOf n.sb).quota buf.length
      ⟨blocks, blocks.length % 2 ^ 32, (fs.mountOf n.sb).used, 0⟩ buf le_rfl h.ok
    have hlen : (buf.take k).length = k := by
      rw [List.length_take]
      omega
    have hwritten : w.written = k := by
      have hgrow : w.written = grow32 0 k := hlen ▸ happ.written
      rw [hgrow, grow32_eq (by omega), Nat.zero_add]
    have hcount : w.blockCount = w.blocks.length % 2 ^ 32 := by
      have hle : blocks.length ≤ w.blocks.length := happ.blocks
      rw [happ.count, grow32_mod, Nat.add_sub_cancel' hle]
    have hsize : add32 n.size k = (bytesOf w.blocks).length % 2 ^ 32 := by
      rw [h.size, happ.bytes, List.length_append, hlen, add32, Nat.mod_add_mod]
    refine ⟨k, _, w.blocks, w.mountUsed, hk, ?_, fun _ => rfl, happ.ok, happ.bytes, hend, happ.blocks,
      happ.used, hcap⟩
    rw [shadowfsWrite, hderef]
    simp only [bind, Except.bind, if_neg hnil, h.data, hok, hwritten, hcount, hsize]
    rfl

/-- **`shadowfs_truncate` to 0.** -/
theorem shadowfsTruncate_zero (h : fs.FileAt a n blocks) : shadowfsTruncate fs a 0 =
    .ok (0, (fs.setInode a (n.withBlocks [])).setUsed n.sb
      (sub32 (fs.mountOf n.sb).used (sizeofShadowfsBlock * blocks.length))) := by
  rw [shadowfsTruncate, FileSystem.deref_eq h.inode]
  simp only [bind, Except.bind, h.data, if_true, List.length_nil, Nat.sub_zero]
  rfl

/-- **`shadowfs_read`** returns the bytes from the position on, as many as are asked for and there
are. -/
theorem shadowfsRead_spec {file : File} {size : Nat} (h : fs.FileAt file.inode n blocks)
    (hlen : (bytesOf blocks).length < 2 ^ 32) (hpos : file.position ≤ (bytesOf blocks).length)
    (hsize : size < 2 ^ 32) :
    shadowfsRead fs file size = .ok (((bytesOf blocks).drop file.position).take size,
      { file with
        position := file.position + (((bytesOf blocks).drop file.position).take size).length }) := by
  have hn : n.size = (bytesOf blocks).length := h.size.trans (Nat.mod_eq_of_lt hlen)
  rw [shadowfsRead, FileSystem.deref_eq h.inode]
  simp only [bind, Except.bind]
  by_cases hzero : size = 0
  · simp [hzero]
  rw [if_neg hzero, hn]
  generalize hr : (if add32 file.position size > (bytesOf blocks).length then
    sub32 (bytesOf blocks).length file.position else size) = remaining
  -- whether or not the sum wraps, at least as much is asked for as there is
  have hsame : ((bytesOf blocks).drop file.position).take remaining =
      ((bytesOf blocks).drop file.position).take size := by
    rw [← hr]
    split
    · rename_i hgt
      rw [sub32_eq hpos hlen]
      have hle : (bytesOf blocks).length - file.position ≤ size := by
        unfold add32 at hgt
        omega
      rw [List.take_of_length_le (by rw [List.length_drop]), List.take_of_length_le]
      rw [List.length_drop]
      exact hle
    · rfl
  have hread := readBlocks_eq blocks file.position remaining 0 h.ok.data (by omega) (Nat.zero_le _)
    (by omega)
  rw [Nat.sub_zero, hsame] at hread
  by_cases hrem : remaining = 0
  · rw [if_pos hrem]
    rw [hrem, List.take_zero] at hsame
    rw [← hsame]
    rfl
  · rw [if_neg hrem, h.data]
    simp only [hread]
    have hfit : file.position + (((bytesOf blocks).drop file.position).take size).length < 2 ^ 32 := by
      rw [List.length_take, List.length_drop]
      omega
    rw [add32_eq hfit]

end FileAt

/-! ## 5. Runs of writes and truncations -/

/-- What can happen to the file at `a`: a write through some descriptor of it, a truncation to 0, and
anything that leaves its inode alone. -/
inductive FileStep (a : Nat) : FileSystem → FileSystem → Prop
  | write {fs fs' : FileSystem} {file file' : File} {buf : List (BitVec 8)} {w : Nat}
      (hfile : file.inode = a) (hbuf : buf.length < 2 ^ 32)
      (h : shadowfsWrite fs file buf = .ok (w, file', fs')) : FileStep a fs fs'
  | truncate {fs fs' : FileSystem} {r : Int} (h : shadowfsTruncate fs a 0 = .ok (r, fs')) :
      FileStep a fs fs'
  | other {fs fs' : FileSystem} (h : fs'.inodes a = fs.inodes a) : FileStep a fs fs'

/-- **Every step keeps the representation.** -/
theorem FileStep.fileAt {a : Nat} {fs fs' : FileSystem} (hstep : FileStep a fs fs')
    (h : ∃ n blocks, fs.FileAt a n blocks) : ∃ n blocks, fs'.FileAt a n blocks := by
  obtain ⟨n, blocks, h⟩ := h
  cases hstep with
  | write hfile hbuf hok =>
    subst hfile
    obtain ⟨k, position, blocks', used', -, hok', -, hblocks, -⟩ := shadowfsWrite_spec h hbuf
    obtain ⟨-, -, rfl⟩ : _ ∧ _ ∧ _ = fs' := by simpa [hok] using hok'.symm
    exact ⟨_, blocks', FileSystem.fileAt_setInode fs _ _ n hblocks⟩
  | truncate hok =>
    obtain ⟨-, rfl⟩ : _ ∧ _ = fs' := by simpa [hok] using (shadowfsTruncate_zero h).symm
    exact ⟨_, [], FileSystem.fileAt_setInode fs _ _ n blocksOk_nil⟩
  | other hsame => exact ⟨n, blocks, hsame.trans h.inode, h.data, h.ok, h.size⟩

/-- One mount with 8MB of quota and no root yet. -/
def blankFs : FileSystem where
  mountTable _ := ⟨[0x2F], 0, ⟨8388608, 0, 1⟩⟩
  mountCount := 1
  inodes _ := none
  fileTable _ := none

end AcornOS
