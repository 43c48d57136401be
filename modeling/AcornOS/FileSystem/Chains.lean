/-
# Files in memory

A file of shadowFS is a chain of blocks on the kernel heap, and each block has a page of its own.
`Store.FileAt k rest objs a n bs` says that the inode at `a` has the chain `bs`, that all blocks but the
last are full, and that the sizes add up; its content is what the pages hold (`contentIn`).

* **Reading** is the walk of `shadowfs_read`, with the buffer it copies into.  Every sum of the clamp may
  wrap around, and none of it matters: a wrapped sum asks for more than there is, and the walk ends with
  the last block (`Store.FileAt.read`).
* **Writing** goes on in the last block or opens a new one, with a new page (`Store.FileAt.write`).

No file reaches `2^31` bytes, since the heap has no room for its blocks (`Store.FileAt.length_lt`).
-/
import AcornOS.FileSystem.Files
import AcornOS.FileSystem.Directory

namespace AcornOS

open Lib
open scoped List

/-! ## 1. Chains of blocks -/

namespace Store

/-- What a block holds, as far as it is used. -/
def bytesIn (m : Memory) (b : PageBlock) : List (BitVec 8) :=
  (List.range b.used).map fun i => m (add64 b.data i)

/-- A chain of blocks as `ShadowFs.lean` has it. -/
def blocksIn (m : Memory) (bs : List (Nat × PageBlock)) : List ShadowfsBlock :=
  bs.map fun b => ⟨bytesIn m b.2, b.2.used⟩

/-- What a chain of blocks holds. -/
def contentIn (m : Memory) (bs : List (Nat × PageBlock)) : List (BitVec 8) := bytesOf (blocksIn m bs)

/-- The page of a block. -/
def pageOf (b : Nat × PageBlock) : Nat := virtualToPhysical b.2.data / pageSize

/-- All blocks but the last are full. -/
structure Filled (bs : List (Nat × PageBlock)) : Prop where
  full : ∀ b ∈ bs.dropLast, b.2.used = shadowfsBlockSize
  le : ∀ b ∈ bs, b.2.used ≤ shadowfsBlockSize

/-- Each block has a page of its own. -/
structure OwnPages (pm : Pmm) (bs : List (Nat × PageBlock)) : Prop where
  each : ∀ b ∈ bs, 0 < pageOf b ∧ pm.Used (pageOf b) ∧ b.2.data = frameAddr (pageOf b)
  nodup : (bs.map pageOf).Nodup

/-- The private data at `priv` have the chain `bs`; the heap holds `objs` and `rest` besides. -/
structure ChainAt (k : Store) (rest : List (Nat × Nat)) (objs : List Nat) (priv : Nat)
    (bs : List (Nat × PageBlock)) : Prop where
  head : ∃ first, k.privs priv = some ⟨first, bs.length⟩ ∧ Linked k.blocks first bs
  heap : Heaped k.heap rest (priv :: (bs.map Prod.fst ++ objs))
  machine : k.machine.Wf
  pages : OwnPages k.machine.pmm bs

/-- The inode at `a` is a file with the blocks `bs`. -/
structure FileAt (k : Store) (rest : List (Nat × Nat)) (objs : List Nat) (a : Nat) (n : InodeNode)
    (bs : List (Nat × PageBlock)) : Prop where
  node : k.inodes a = some n
  type : n.type = .file
  chain : ChainAt k rest (a :: objs) n.privateData bs
  filled : Filled bs
  size : n.size = (contentIn k.machine.mem bs).length

section Chains

variable {k k' : Store} {m m' : Memory} {rest : List (Nat × Nat)} {objs : List Nat} {priv sb a : Nat}
  {n : InodeNode} {bs cs : List (Nat × PageBlock)} {b : Nat × PageBlock} {v : PageBlock}

@[simp] theorem length_bytesIn (m : Memory) (b : PageBlock) : (bytesIn m b).length = b.used := by
  simp [bytesIn]

@[simp] theorem contentIn_nil (m : Memory) : contentIn m [] = [] := rfl

@[simp] theorem contentIn_cons (m : Memory) (b : Nat × PageBlock) (bs : List (Nat × PageBlock)) :
    contentIn m (b :: bs) = bytesIn m b.2 ++ contentIn m bs := rfl

@[simp] theorem contentIn_append (m : Memory) (bs cs : List (Nat × PageBlock)) :
    contentIn m (bs ++ cs) = contentIn m bs ++ contentIn m cs := by
  simp [contentIn, blocksIn]

theorem data_blocksIn (m : Memory) (bs : List (Nat × PageBlock)) :
    ∀ b ∈ blocksIn m bs, b.data.length = b.used := by
  intro b hb
  obtain ⟨c, -, rfl⟩ := List.mem_map.mp hb
  exact length_bytesIn m c.2

/-- The length of the content is the sum of the `used` fields. -/
theorem length_contentIn (m : Memory) (bs : List (Nat × PageBlock)) :
    (contentIn m bs).length = (bs.map fun b => b.2.used).sum := by
  rw [contentIn, ← sum_used (data_blocksIn m bs), blocksIn, List.map_map]
  rfl

/-- The content depends on the bytes in use only. -/
theorem contentIn_congr (h : ∀ b ∈ bs, ∀ i < b.2.used, m' (add64 b.2.data i) = m (add64 b.2.data i)) :
    contentIn m' bs = contentIn m bs := by
  induction bs with
  | nil => rfl
  | cons b bs ih =>
    rw [contentIn_cons, contentIn_cons, ih fun c hc => h c (List.mem_cons_of_mem b hc)]
    congr 1
    exact List.map_congr_left fun i hi => h b List.mem_cons_self i (List.mem_range.mp hi)

theorem filled_nil : Filled [] := ⟨by simp, by simp⟩

theorem filled_concat : Filled (bs ++ [b]) ↔
    (∀ c ∈ bs, c.2.used = shadowfsBlockSize) ∧ b.2.used ≤ shadowfsBlockSize := by
  constructor
  · rintro ⟨hfull, hle⟩
    rw [List.dropLast_concat] at hfull
    exact ⟨hfull, hle b (by simp)⟩
  · rintro ⟨hfull, hle⟩
    refine ⟨by rwa [List.dropLast_concat], fun c hc => ?_⟩
    rcases List.mem_append.mp hc with hc | hc
    · exact (hfull c hc).le
    · rw [List.mem_singleton.mp hc]
      exact hle

theorem Filled.length_le (h : Filled bs) (m : Memory) :
    (contentIn m bs).length ≤ bs.length * shadowfsBlockSize := by
  rw [length_contentIn]
  refine (List.sum_le_card_nsmul _ shadowfsBlockSize fun x hx => ?_).trans_eq ?_
  · obtain ⟨b, hb, rfl⟩ := List.mem_map.mp hx
    exact h.le b hb
  · rw [List.length_map, smul_eq_mul]

theorem ChainAt.length_mul_le (h : ChainAt k rest objs priv bs) :
    bs.length * (headerSize + leastObject) ≤ heapSize := by
  have hlen := h.heap.length_mul_le
  refine le_trans (Nat.mul_le_mul_right _ ?_) hlen
  rw [List.length_cons, List.length_append, List.length_map]
  omega

theorem ChainAt.length_lt (h : ChainAt k rest objs priv bs) : bs.length < heapFuel := by
  have hlen := h.length_mul_le
  unfold headerSize leastObject heapSize at hlen
  unfold heapFuel heapSize headerSize
  omega

/-- **The heap has no room for the blocks of a larger file.** -/
theorem ChainAt.content_lt (h : ChainAt k rest objs priv bs) (hf : Filled bs) (m : Memory) :
    (contentIn m bs).length < 2 ^ 31 := by
  have hlen := h.length_mul_le
  have hle := hf.length_le m
  unfold headerSize leastObject heapSize at hlen
  unfold shadowfsBlockSize at hle
  omega

theorem FileAt.length_lt (h : FileAt k rest objs a n bs) (m : Memory) :
    (contentIn m bs).length < 2 ^ 31 :=
  h.chain.content_lt h.filled m

/-! ## 2. Reading -/

/-- `for(uint32_t i = 0; i < to_read; i++) dst[i] = block->data[block_offset + i];`, into a buffer that is
none of the pages. -/
def copyOut (m : Memory) (data blockOffset : Nat) (buf : Nat → BitVec 8) (dst : Nat) :
    Nat → Nat → BitVec 8
  | 0 => buf
  | n + 1 => Function.update (copyOut m data blockOffset buf dst n) (dst + n)
      (m (add64 data (blockOffset + n)))

/-- The walk of `shadowfs_read`: the bytes read, and the buffer. -/
def readChain (k : Store) : Nat → (block blockStart offset remaining dst read : Nat) →
    (Nat → BitVec 8) → Except Fault (Nat × (Nat → BitVec 8))
  | 0, _, _, _, _, _, _, _ => .error .diverge
  | fuel + 1, block, blockStart, offset, remaining, dst, read, buf =>
    if block = 0 ∨ remaining = 0 then .ok (read, buf)
    else
      match k.blocks block with
      | none => .error .freed
      | some node =>
        let blockEnd := add32 blockStart node.val.used
        if offset < blockEnd then
          let blockOffset := sub32 offset blockStart
          let available := sub32 node.val.used blockOffset
          let toRead := min remaining available
          readChain k fuel node.next blockEnd (add32 offset toRead) (remaining - toRead) (dst + toRead)
            (add32 read toRead) (copyOut k.machine.mem node.val.data blockOffset buf dst toRead)
        else readChain k fuel node.next blockEnd offset remaining dst read buf

/-- `shadowfs_read`: what it returns, the buffer, and the file at its new position. -/
def shadowfsRead (k : Store) (file : File) (buf : Nat → BitVec 8) (size : Nat) :
    Except Fault (Int × (Nat → BitVec 8) × File) := do
  let n ← k.inodeAt file.inode
  if size = 0 then .ok (0, buf, file)
  else
    let remaining :=
      if add32 file.position size > n.size then sub32 n.size file.position else size
    if remaining = 0 then .ok (0, buf, file)
    else do
      let p ← k.privAt n.privateData
      let (read, buf) ← k.readChain heapFuel p.first 0 file.position remaining 0 0 buf
      .ok (toInt32 read, buf, { file with position := add32 file.position read })

/-- A buffer after `xs` has been put at `dst`. -/
def putAt (buf : Nat → BitVec 8) (dst : Nat) (xs : List (BitVec 8)) : Nat → BitVec 8 := fun j =>
  if dst ≤ j then (xs[j - dst]?).getD (buf j) else buf j

@[simp] theorem putAt_nil (buf : Nat → BitVec 8) (dst : Nat) : putAt buf dst [] = buf := by
  funext j
  simp [putAt]

theorem putAt_append (buf : Nat → BitVec 8) (dst : Nat) (xs ys : List (BitVec 8)) :
    putAt (putAt buf dst xs) (dst + xs.length) ys = putAt buf dst (xs ++ ys) := by
  funext j
  unfold putAt
  by_cases hlow : dst ≤ j
  · rw [if_pos hlow, if_pos hlow]
    by_cases hin : j - dst < xs.length
    · rw [if_neg (by omega), List.getElem?_append_left hin]
    · rw [if_pos (by omega), List.getElem?_append_right (by omega), Nat.sub_add_eq,
        List.getElem?_eq_none (Nat.not_lt.mp hin), Option.getD_none]
  · rw [if_neg (by omega), if_neg hlow, if_neg hlow]

/-- The copying loop. -/
theorem copyOut_eq (m : Memory) (data blockOffset : Nat) (buf : Nat → BitVec 8) (dst : Nat) :
    ∀ n, copyOut m data blockOffset buf dst n =
      putAt buf dst ((List.range n).map fun i => m (add64 data (blockOffset + i)))
  | 0 => (putAt_nil buf dst).symm
  | n + 1 => by
    rw [copyOut, copyOut_eq m data blockOffset buf dst n, List.range_succ, List.map_append, ← putAt_append,
      List.length_map, List.length_range]
    funext j
    by_cases hj : j = dst + n
    · rw [hj, Function.update_self]
      simp [putAt]
    · rw [Function.update_of_ne hj]
      generalize putAt buf dst _ = buf'
      unfold putAt
      split
      · rw [List.getElem?_eq_none, Option.getD_none]
        simp only [List.map_cons, List.map_nil, List.length_singleton]
        omega
      · rfl

/-- A stretch of a block. -/
theorem take_drop_bytesIn (m : Memory) (b : PageBlock) {i n : Nat} (h : i + n ≤ b.used) :
    ((bytesIn m b).drop i).take n = (List.range n).map fun j => m (add64 b.data (i + j)) := by
  refine List.ext_getElem? fun j => ?_
  by_cases hj : j < n
  · rw [List.getElem?_take_of_lt hj, List.getElem?_drop, bytesIn, List.getElem?_map, List.getElem?_map,
      List.getElem?_range hj, List.getElem?_range (by omega)]
    rfl
  · rw [List.getElem?_eq_none, List.getElem?_eq_none]
    · simpa using hj
    · rw [List.length_take]
      omega

theorem readChain_zero {fuel block blockStart offset dst read : Nat} {buf : Nat → BitVec 8} (h : 0 < fuel) :
    k.readChain fuel block blockStart offset 0 dst read buf = .ok (read, buf) := by
  obtain ⟨fuel, rfl⟩ := Nat.exists_eq_add_of_lt h
  rw [readChain, if_pos (Or.inr rfl)]

theorem readBlocks_zero (blocks : List ShadowfsBlock) (offset blockStart : Nat) :
    readBlocks blocks offset 0 blockStart = [] := by
  cases blocks with
  | nil => rfl
  | cons b bs => rw [readBlocks, if_pos rfl]

/-- **The walk of `shadowfs_read`** copies what `readBlocks` lists. -/
theorem readChain_eq : ∀ {bs : List (Nat × PageBlock)} {fuel block blockStart offset remaining dst read : Nat}
    {buf : Nat → BitVec 8}, Linked k.blocks block bs → bs.length < fuel →
    blockStart + (contentIn k.machine.mem bs).length < 2 ^ 32 → blockStart ≤ offset → offset < 2 ^ 32 →
    read + (contentIn k.machine.mem bs).length < 2 ^ 32 →
    k.readChain fuel block blockStart offset remaining dst read buf =
      .ok (read + (readBlocks (blocksIn k.machine.mem bs) offset remaining blockStart).length,
        putAt buf dst (readBlocks (blocksIn k.machine.mem bs) offset remaining blockStart))
  | [], fuel + 1, block, blockStart, offset, remaining, dst, read, buf, hl, _, _, _, _, _ => by
    rw [readChain, if_pos (Or.inl (show block = 0 from hl))]
    simp [blocksIn, readBlocks]
  | (x, v) :: bs, fuel + 1, block, blockStart, offset, remaining, dst, read, buf, hl, hfuel, hend, hstart,
      hoffset, hread => by
    obtain ⟨rfl, hx0, next, hx, hbs⟩ := hl
    rw [contentIn_cons, List.length_append, length_bytesIn] at hend hread
    simp only at hend hread
    have hfuel' : bs.length < fuel := Nat.lt_of_succ_lt_succ hfuel
    have hblock : add32 blockStart v.used = blockStart + v.used := add32_eq (by omega)
    simp only [blocksIn, List.map_cons, readBlocks]
    rw [readChain]
    by_cases hrem : remaining = 0
    · rw [if_pos (Or.inr hrem), if_pos hrem]
      simp
    rw [if_neg (not_or.mpr ⟨hx0, hrem⟩), if_neg hrem, hx]
    simp only [hblock]
    by_cases hin : offset < blockStart + v.used
    · rw [if_pos hin, if_pos hin, sub32_eq hstart hoffset, sub32_eq (by omega) (by omega)]
      generalize hn : min remaining (v.used - (offset - blockStart)) = n
      have hfit : offset - blockStart + n ≤ v.used := by omega
      have hlen : (((bytesIn k.machine.mem v).drop (offset - blockStart)).take n).length = n := by
        rw [List.length_take, List.length_drop, length_bytesIn]
        omega
      rw [copyOut_eq, ← take_drop_bytesIn _ _ hfit, add32_eq (show offset + n < 2 ^ 32 by omega),
        add32_eq (show read + n < 2 ^ 32 by omega)]
      by_cases hlast : remaining - n = 0
      · rw [hlast, readChain_zero (by omega), readBlocks_zero, List.append_nil, hlen]
      · have hall : offset + n = blockStart + v.used := by omega
        rw [readChain_eq hbs hfuel' ?_ ?_ ?_ ?_, List.length_append, ← putAt_append, hlen, Nat.add_assoc]
        · rfl
        all_goals omega
    · rw [if_neg hin, if_neg hin]
      exact readChain_eq hbs hfuel' (by omega) (by omega) hoffset (by omega)

/-- The bytes from a position on, as many as are asked for and there are. -/
def sliceAt (c : List (BitVec 8)) (position size : Nat) : List (BitVec 8) := (c.drop position).take size

theorem length_sliceAt (c : List (BitVec 8)) (position size : Nat) :
    (sliceAt c position size).length = min size (c.length - position) := by
  rw [sliceAt, List.length_take, List.length_drop]

theorem sliceAt_append (c : List (BitVec 8)) (position size size' : Nat) :
    sliceAt c position size ++ sliceAt c (position + (sliceAt c position size).length) size' =
      sliceAt c position (size + size') := by
  unfold sliceAt
  rw [← List.drop_drop]
  generalize c.drop position = d
  rw [List.take_add, List.length_take]
  congr 1
  rcases le_total size d.length with hle | hle
  · rw [Nat.min_eq_left hle]
  · rw [Nat.min_eq_right hle, List.drop_length, List.drop_eq_nil_of_le hle]

/-- **The clamp of `shadowfs_read`.**  Where the position is behind the end there is nothing to copy, and
where the sum with the size wraps around, at least as much is asked for as there is. -/
theorem sliceAt_clamp {c : List (BitVec 8)} {position size : Nat} (hc : c.length < 2 ^ 32)
    (hpos : position < 2 ^ 32) (hsize : size < 2 ^ 32) :
    sliceAt c position (if add32 position size > c.length then sub32 c.length position else size) =
      sliceAt c position size := by
  rcases Nat.lt_or_ge position c.length with hin | hout
  · split
    · rename_i hgt
      have hle : c.length - position ≤ size := by
        unfold add32 at hgt
        omega
      rw [sub32_eq hin.le hc, sliceAt, sliceAt, List.take_of_length_le (by rw [List.length_drop]),
        List.take_of_length_le (by rwa [List.length_drop])]
    · rfl
  · rw [sliceAt, sliceAt, List.drop_eq_nil_of_le hout, List.take_nil, List.take_nil]

/-- **`shadowfs_read`** copies the bytes from the position on, and does not touch the buffer behind
them, for any position and any size. -/
theorem FileAt.read {position size : Nat} (h : FileAt k rest objs a n bs) (buf : Nat → BitVec 8)
    (flags : BitVec 32) (hpos : position < 2 ^ 32) (hsize : size < 2 ^ 32) :
    k.shadowfsRead ⟨a, position, flags⟩ buf size =
      .ok ((sliceAt (contentIn k.machine.mem bs) position size).length,
        putAt buf 0 (sliceAt (contentIn k.machine.mem bs) position size),
        ⟨a, position + (sliceAt (contentIn k.machine.mem bs) position size).length, flags⟩) := by
  have hlen := h.length_lt k.machine.mem
  obtain ⟨first, hpriv, hl⟩ := h.chain.head
  have hwalk : ∀ remaining, k.readChain heapFuel first 0 position remaining 0 0 buf =
      .ok ((sliceAt (contentIn k.machine.mem bs) position remaining).length,
        putAt buf 0 (sliceAt (contentIn k.machine.mem bs) position remaining)) := by
    intro remaining
    rw [readChain_eq hl h.chain.length_lt (by omega) (Nat.zero_le _) hpos (by omega),
      readBlocks_eq _ _ _ _ (data_blocksIn _ _) (by rw [Nat.zero_add]; exact hlen.trans (by decide))
        (Nat.zero_le _) hpos, Nat.zero_add, Nat.sub_zero]
    rfl
  rw [shadowfsRead, inodeAt_eq h.node]
  refine bind_eq_ok.mpr ⟨n, rfl, ?_⟩
  by_cases hzero : size = 0
  · rw [if_pos hzero, hzero, sliceAt, List.take_zero, putAt_nil]
    rfl
  rw [if_neg hzero, h.size]
  have hclamp := sliceAt_clamp (hlen.trans (by decide)) hpos hsize
  generalize hr : (if add32 position size > (contentIn k.machine.mem bs).length then
    sub32 (contentIn k.machine.mem bs).length position else size) = remaining
  rw [hr] at hclamp
  by_cases hrem : remaining = 0
  · rw [hrem, sliceAt, List.take_zero] at hclamp
    rw [if_pos hrem, ← hclamp, putAt_nil]
    rfl
  · rw [if_neg hrem]
    refine bind_eq_ok.mpr ⟨_, privAt_eq hpriv, bind_eq_ok.mpr ⟨_, hwalk remaining, ?_⟩⟩
    have hbound := length_sliceAt (contentIn k.machine.mem bs) position size
    rw [hclamp]
    dsimp only
    rw [toInt32_natCast (by omega), add32_eq (by omega)]

theorem putAt_of_ge {buf : Nat → BitVec 8} {xs : List (BitVec 8)} {j : Nat} (h : xs.length ≤ j) :
    putAt buf 0 xs j = buf j := by
  rw [putAt, if_pos (Nat.zero_le j), Nat.sub_zero, List.getElem?_eq_none h, Option.getD_none]

theorem putAt_of_lt {buf : Nat → BitVec 8} {xs : List (BitVec 8)} {j : Nat} (h : j < xs.length) :
    xs[j]? = some (putAt buf 0 xs j) := by
  rw [putAt, if_pos (Nat.zero_le j), Nat.sub_zero, List.getElem?_eq_getElem h, Option.getD_some]

theorem map_putAt (buf : Nat → BitVec 8) (xs : List (BitVec 8)) :
    (List.range xs.length).map (putAt buf 0 xs) = xs := by
  refine List.ext_getElem? fun j => ?_
  by_cases hj : j < xs.length
  · rw [List.getElem?_map, List.getElem?_range hj, Option.map_some, putAt_of_lt hj]
  · rw [List.getElem?_eq_none (by simpa using hj), List.getElem?_eq_none (Nat.not_lt.mp hj)]

/-- Reading on and on with the given sizes: what all the reads have put into the buffer. -/
def readChunks (k : Store) (file : File) (buf : Nat → BitVec 8) :
    List Nat → Except Fault (List (BitVec 8) × File)
  | [] => .ok ([], file)
  | size :: sizes => do
    let (r, buf, file) ← k.shadowfsRead file buf size
    let (xs, file) ← readChunks k file buf sizes
    .ok ((List.range r.toNat).map buf ++ xs, file)

/-- Chunk after chunk, all of what comes from the position on. -/
theorem FileAt.readChunks (h : FileAt k rest objs a n bs) (flags : BitVec 32) :
    ∀ (buf : Nat → BitVec 8) {sizes : List Nat} {position : Nat}, position < 2 ^ 32 →
      (∀ s ∈ sizes, s < 2 ^ 32) → ∃ file', k.readChunks ⟨a, position, flags⟩ buf sizes =
        .ok (sliceAt (contentIn k.machine.mem bs) position sizes.sum, file')
  | buf, [], position, _, _ => ⟨_, by rw [List.sum_nil, sliceAt, List.take_zero]; rfl⟩
  | buf, size :: sizes, position, hpos, hsizes => by
    have hread := h.read buf flags hpos (hsizes size List.mem_cons_self)
    have hlen := length_sliceAt (contentIn k.machine.mem bs) position size
    have hbound := h.length_lt k.machine.mem
    generalize hx : sliceAt (contentIn k.machine.mem bs) position size = x at hread hlen
    obtain ⟨file', hrest⟩ := h.readChunks flags (putAt buf 0 x) (show position + x.length < 2 ^ 32 by omega)
      fun s hs => hsizes s (List.mem_cons_of_mem _ hs)
    refine ⟨file', ?_⟩
    rw [Store.readChunks]
    refine bind_eq_ok.mpr ⟨_, hread, bind_eq_ok.mpr ⟨_, hrest, ?_⟩⟩
    simp only [Int.toNat_natCast, map_putAt]
    rw [← hx, sliceAt_append, List.sum_cons]

/-! ## 3. Writing -/

theorem pageOf_eq {p : Nat} (hp : p < 2 ^ 40) (hb : b.2.data = frameAddr p) : pageOf b = p := by
  rw [pageOf, hb, virtualToPhysical_frameAddr hp, Nat.mul_div_cancel _ (by decide)]

/-- A page is allocated, or the kernel stops. -/
theorem pmmAlloc_spec (hwf : k.machine.pmm.Wf) : Ensures k.pmmAlloc Fault.Halts fun r =>
    ∃ p pmm, r = (frameAddr p, { k with machine := { k.machine with pmm := pmm } }) ∧ 0 < p ∧
      p ∈ k.machine.pmm.freePages ∧ Takes k.machine.pmm pmm {p} := by
  have hspec := AcornOS.pmmAlloc_spec hwf
  unfold pmmAlloc
  cases hok : AcornOS.pmmAlloc k.machine.pmm with
  | error why => exact ensures_error.mpr ⟨why, rfl⟩
  | ok r =>
    obtain ⟨p, hp, -, hr, htakes⟩ := hspec.of_ok hok
    refine ensures_ok.mpr ⟨p, r.2, ?_, hwf.pos_of_mem hp, hp, htakes⟩
    rw [hr, physicalToVirtual_page]

theorem OwnPages.of_takes {pm pm' : Pmm} {N : Finset Nat} (h : OwnPages pm bs) (ht : Takes pm pm' N) :
    OwnPages pm' bs :=
  ⟨fun b hb => ⟨(h.each b hb).1, (h.each b hb).2.1.of_takes ht, (h.each b hb).2.2⟩, h.nodup⟩

/-- A block more, with a page that was free. -/
theorem OwnPages.snoc {pm pm' : Pmm} {p : Nat} (h : OwnPages pm bs) (ht : Takes pm pm' {p}) (hpos : 0 < p)
    (hp : p < 2 ^ 40) (hb : b.2.data = frameAddr p) : OwnPages pm' (bs ++ [b]) := by
  have hpage := pageOf_eq hp hb
  refine ⟨fun c hc => ?_, ?_⟩
  · rcases List.mem_append.mp hc with hc | hc
    · exact (h.of_takes ht).each c hc
    · rw [List.mem_singleton.mp hc, hpage]
      exact ⟨hpos, ht.used_of_mem (Finset.mem_singleton_self p), hb⟩
  · rw [List.map_append, List.map_singleton, List.nodup_append]
    refine ⟨h.nodup, List.nodup_singleton _, ?_⟩
    rintro q hq r hr rfl
    rw [List.mem_singleton.mp hr, hpage] at hq
    obtain ⟨c, hc, hcp⟩ := List.mem_map.mp hq
    have hused := (h.each c hc).2.1.2
    rw [hcp] at hused
    exact ht.notMem_of_test hused (Finset.mem_singleton_self p)

/-- The chain has been given one more block, with a page that was free. -/
structure Grown (k k' : Store) (rest : List (Nat × Nat)) (objs : List Nat) (priv : Nat)
    (bs : List (Nat × PageBlock)) (b : Nat × PageBlock) : Prop where
  chain : ChainAt k' rest objs priv (bs ++ [b])
  mem : k'.machine.mem = k.machine.mem
  takes : Takes k.machine.pmm k'.machine.pmm {pageOf b}
  moves : Moves k.heap k'.heap [] [b.1]
  only : Only k k' (priv :: (bs ++ [b]).map Prod.fst)

/-- **A new block** at the end of the chain, with a new page. -/
theorem ChainAt.addBlock (h : ChainAt k rest objs priv bs) (sb : Nat) :
    Ensures (k.addBlock priv sb (lastAddr 0 bs)) Fault.Halts fun r => ∃ v : PageBlock, v.used = 0 ∧
      Grown k r.2 rest objs priv bs (r.1, v) := by
  refine (k.kmalloc_spec (show leastObject ≤ roundUp4 sizeofShadowfsBlock by decide)).bind fun r hr => ?_
  obtain ⟨block, k₁⟩ := r
  simp only at hr
  obtain ⟨heap, rfl, hmoves⟩ := hr
  have hheap : Heaped heap rest (block :: priv :: (bs.map Prod.fst ++ objs)) := hmoves rest _ h.heap
  refine (pmmAlloc_spec (k := { k with heap := heap }) h.machine.pmm).bind fun r hr => ?_
  obtain ⟨p, pmm, rfl, hpos, hfree, htakes⟩ := hr
  obtain ⟨first, hpriv, hl⟩ := h.head
  have hp := h.machine.lt_of_free hfree
  generalize hv : (⟨frameAddr p, 0⟩ : PageBlock) = v
  have hpage : pageOf (block, v) = p := pageOf_eq hp (by rw [← hv])
  have hblock : block ∉ priv :: bs.map Prod.fst := fun hmem =>
    (List.nodup_cons.mp hheap.nodup_objs).1 (List.mem_append_left objs hmem)
  have hcount : add32 bs.length 1 = (bs ++ [(block, v)]).length := by
    have hlen := h.length_lt
    unfold heapFuel heapSize headerSize at hlen
    rw [add32_eq (by omega), List.length_append, List.length_singleton]
  -- whichever way it is linked in, the rest is the same
  have hgrown : ∀ (blocks : Nodes PageBlock) (first' : Nat), Linked blocks first' (bs ++ [(block, v)]) →
      (∀ x ∉ priv :: (bs ++ [(block, v)]).map Prod.fst, blocks x = k.blocks x) →
      Grown k ({ k with
        machine := ⟨k.machine.mem, pmm⟩
        heap := heap
        blocks := blocks
        privs := Function.update k.privs priv (some ⟨first', add32 bs.length 1⟩) }.charge sb
          sizeofShadowfsBlock) rest objs priv bs (block, v) := by
    intro blocks first' hlinked hout
    refine ⟨⟨⟨first', ?_, hlinked⟩, ?_, h.machine.of_takes htakes, ?_⟩, rfl, ?_, hmoves, ?_⟩
    · rw [← hcount]
      exact Function.update_self ..
    · refine hheap.perm ?_
      rw [List.map_append, List.map_singleton, List.append_assoc, List.singleton_append]
      exact (List.Perm.swap _ _ _).trans (List.perm_middle.symm.cons priv)
    · exact h.pages.snoc htakes hpos hp (by rw [← hv])
    · rw [hpage]
      exact htakes
    · refine ⟨fun _ _ => rfl, fun x hx => ?_, fun _ _ => rfl, hout⟩
      exact Function.update_of_ne (fun heq => hx (by rw [heq]; exact List.mem_cons_self)) _ _
  have hnew : Function.update k.blocks block (some ⟨v, 0⟩) block = some ⟨v, 0⟩ := Function.update_self ..
  have hne0 : block ≠ 0 := hheap.ne_zero List.mem_cons_self
  have hframe : ∀ x ∉ priv :: (bs ++ [(block, v)]).map Prod.fst,
      Function.update k.blocks block (some ⟨v, 0⟩) x = k.blocks x := fun x hx =>
    Function.update_of_ne (fun heq => hx (by simp [heq])) _ _
  dsimp only
  rw [hv]
  refine Ensures.bind_ok (privAt_eq hpriv) ?_
  rcases List.eq_nil_or_concat bs with rfl | ⟨cs, ⟨y, w⟩, rfl⟩
  · obtain rfl : first = 0 := hl
    rw [if_pos rfl]
    exact ensures_ok.mpr ⟨v, by rw [← hv], hgrown _ block ⟨rfl, hne0, 0, hnew, rfl⟩ hframe⟩
  · rw [List.concat_eq_append] at *
    have hfirst : first ≠ 0 := fun h0 => by simpa using hl.first_eq_zero.mp h0
    have hyb : y ≠ block := fun heq => hblock (by simp [heq])
    obtain ⟨-, -, n, hn, hnil⟩ := hl.at_mid
    obtain rfl : n = 0 := hnil
    rw [if_neg hfirst, lastAddr_concat]
    refine Ensures.bind_ok (setNext_eq ((Function.update_of_ne hyb _ _).trans hn)) ?_
    refine ensures_ok.mpr ⟨v, by rw [← hv], hgrown _ first ?_ fun x hx => ?_⟩
    · have hl' : Linked (Function.update k.blocks block (some ⟨v, 0⟩)) first (cs ++ [(y, w)]) :=
        hl.update_of_notMem fun hmem => hblock (List.mem_cons_of_mem _ hmem)
      simpa using hl'.snoc hnew hne0 hyb.symm
    · refine (Function.update_of_ne (fun heq => hx ?_) _ _).trans (hframe x hx)
      simp [heq]

/-- Where a byte of a block is. -/
theorem OwnPages.addr {pm : Pmm} {i : Nat} (h : OwnPages pm bs) (hb : b ∈ bs) (hi : i < shadowfsBlockSize) :
    add64 b.2.data i = frameAddr (pageOf b) + i := by
  rw [(h.each b hb).2.2]
  have := frameAddr_add_le (pageOf b)
  unfold shadowfsBlockSize at hi
  exact add64_eq (by omega)

theorem OwnPages.lt {pm : Pmm} (h : OwnPages pm bs) (hram : pm.totalPages ≤ 2 ^ 35) (hb : b ∈ bs) :
    pageOf b < 2 ^ 40 :=
  (h.each b hb).2.1.1.trans_le (hram.trans (by decide))

/-- Writing behind what is used of the last block. -/
theorem OwnPages.content_writeBytes {pm : Pmm} {x : Nat} (h : OwnPages pm (bs ++ [(x, v)]))
    (hram : pm.totalPages ≤ 2 ^ 35) (hle : ∀ c ∈ bs, c.2.used ≤ shadowfsBlockSize)
    (hv : v.used < shadowfsBlockSize) (m : Memory) (src : List (BitVec 8))
    (hsrc : v.used + src.length ≤ shadowfsBlockSize) :
    contentIn (writeBytes m (add64 v.data v.used) src) (bs ++ [(x, ⟨v.data, v.used + src.length⟩)]) =
      contentIn m (bs ++ [(x, v)]) ++ src := by
  have hx : (x, v) ∈ bs ++ [(x, v)] := by simp
  have hend := frameAddr_add_le (pageOf (x, v))
  have haddr : ∀ i < shadowfsBlockSize, add64 v.data i = frameAddr (pageOf (x, v)) + i :=
    fun i hi => h.addr hx hi
  have hlow := h.lt hram hx
  rw [haddr v.used hv]
  unfold shadowfsBlockSize at hle hv hsrc haddr
  have hbs : contentIn (writeBytes m (frameAddr (pageOf (x, v)) + v.used) src) bs = contentIn m bs := by
    refine contentIn_congr fun c hc i hi => ?_
    have hc' : c ∈ bs ++ [(x, v)] := List.mem_append_left _ hc
    have hused := hle c hc
    have hne : pageOf c ≠ pageOf (x, v) := by
      have hnodup := h.nodup
      rw [List.map_append, List.map_singleton, List.nodup_append] at hnodup
      exact hnodup.2.2 _ (List.mem_map_of_mem hc) _ (List.mem_singleton_self _)
    have hapart := frameAddr_apart (h.lt hram hc') hlow hne
    rw [h.addr hc' (show i < 4096 by omega)]
    exact writeBytes_of_outside (by omega) (by omega)
  rw [contentIn_append, contentIn_append, hbs, List.append_assoc]
  congr 1
  simp only [contentIn_cons, contentIn_nil, List.append_nil, bytesIn, List.range_add, List.map_append,
    List.map_map]
  congr 1
  · refine List.map_congr_left fun i hi => ?_
    rw [haddr i (by have := List.mem_range.mp hi; omega)]
    exact writeBytes_of_outside (by omega) (by have := List.mem_range.mp hi; omega)
  · refine List.ext_getElem? fun j => ?_
    by_cases hj : j < src.length
    · rw [List.getElem?_map, List.getElem?_range hj, ← writeBytes_inside (show
        frameAddr (pageOf (x, v)) + v.used + src.length ≤ 2 ^ 64 by omega) hj, Option.map_some,
        Function.comp_apply, haddr _ (by omega), Nat.add_assoc]
    · rw [List.getElem?_eq_none (by simpa using hj), List.getElem?_eq_none (Nat.not_lt.mp hj)]

/-- A block that is used to another length keeps its page. -/
theorem OwnPages.setUsed {pm : Pmm} {x : Nat} (h : OwnPages pm (bs ++ [(x, v)])) (used : Nat) :
    OwnPages pm (bs ++ [(x, ⟨v.data, used⟩)]) := by
  refine ⟨fun c hc => ?_, ?_⟩
  · rcases List.mem_append.mp hc with hc | hc
    · exact h.each c (List.mem_append_left _ hc)
    · rw [List.mem_singleton.mp hc]
      exact h.each (x, v) (by simp)
  · have hnodup := h.nodup
    simp only [List.map_append, List.map_cons, List.map_nil] at hnodup ⊢
    exact hnodup

/-- **Filling the last block** with what fits. -/
theorem ChainAt.fillBlock {x : Nat} (src : List (BitVec 8))
    (h : ChainAt k rest objs priv (bs ++ [(x, v)])) (hfull : ∀ c ∈ bs, c.2.used = shadowfsBlockSize) (hv : v.used < shadowfsBlockSize) :
    ∃ j k', j = min src.length (shadowfsBlockSize - v.used) ∧ k.fillBlock x src = .ok (j, k') ∧
      ChainAt k' rest objs priv (bs ++ [(x, ⟨v.data, v.used + j⟩)]) ∧
      contentIn k'.machine.mem (bs ++ [(x, ⟨v.data, v.used + j⟩)]) =
        contentIn k.machine.mem (bs ++ [(x, v)]) ++ src.take j ∧
      k'.machine.pmm = k.machine.pmm ∧ k'.heap = k.heap ∧ Only k k' [x] := by
  obtain ⟨first, hpriv, hl⟩ := h.head
  obtain ⟨hx0, -, n, hn, hnil⟩ := hl.at_mid
  generalize hj : min src.length (shadowfsBlockSize - v.used) = j
  have hlen : (src.take j).length = j := by
    rw [List.length_take]
    omega
  have hcontent := h.pages.content_writeBytes h.machine.ram (fun c hc => (hfull c hc).le) hv
    k.machine.mem (src.take j) (by omega)
  rw [hlen] at hcontent
  have hsub : sub32 shadowfsBlockSize v.used = shadowfsBlockSize - v.used := sub32_eq hv.le (by decide)
  have hadd : add32 v.used j = v.used + j := by
    refine add32_eq ?_
    unfold shadowfsBlockSize at hj hv
    omega
  refine ⟨j, { k with
      machine := ⟨writeBytes k.machine.mem (add64 v.data v.used) (src.take j), k.machine.pmm⟩
      blocks := Function.update k.blocks x (some ⟨⟨v.data, v.used + j⟩, n⟩) }, rfl, ?_,
    ⟨⟨first, ?_, ?_⟩, ?_, ⟨h.machine.pmm, h.machine.ram⟩, ?_⟩, hcontent, rfl, rfl, ?_⟩
  · rw [Store.fillBlock, hn]
    simp only [hsub, hj, hadd]
  · rw [hpriv]
    simp
  · exact hl.setVal hn
  · have hheap := h.heap
    simp only [List.map_append, List.map_cons, List.map_nil] at hheap ⊢
    exact hheap
  · exact h.pages.setUsed _
  · refine ⟨fun _ _ => rfl, fun _ _ => rfl, fun _ _ => rfl, fun y hy => ?_⟩
    exact Function.update_of_ne (fun heq => hy (List.mem_singleton.mpr heq)) _ _

/-- Between `k` and `k'` the chain `bs` has become `bs'`, and `x` has been appended to what it holds: the
blocks and the pages are the old ones and new ones behind them. -/
structure Wrote (k k' : Store) (priv : Nat) (bs bs' : List (Nat × PageBlock)) (x : List (BitVec 8)) :
    Prop where
  bytes : contentIn k'.machine.mem bs' = contentIn k.machine.mem bs ++ x
  addrs : ∃ new, bs'.map Prod.fst = bs.map Prod.fst ++ new ∧ Moves k.heap k'.heap [] new
  pages : ∃ more, bs'.map pageOf = bs.map pageOf ++ more ∧
    Takes k.machine.pmm k'.machine.pmm more.toFinset
  only : Only k k' (priv :: bs'.map Prod.fst)

theorem Wrote.refl (k : Store) (priv : Nat) (bs : List (Nat × PageBlock)) : Wrote k k priv bs bs [] where
  bytes := (List.append_nil _).symm
  addrs := ⟨[], (List.append_nil _).symm, Moves.refl _⟩
  pages := ⟨[], (List.append_nil _).symm, Takes.refl _⟩
  only := (Only.refl k).mono (List.nil_subset _)

theorem Wrote.trans {k'' : Store} {bs' bs'' : List (Nat × PageBlock)} {x y : List (BitVec 8)}
    (h : Wrote k k' priv bs bs' x) (h' : Wrote k' k'' priv bs' bs'' y) :
    Wrote k k'' priv bs bs'' (x ++ y) where
  bytes := by rw [h'.bytes, h.bytes, List.append_assoc]
  addrs := by
    obtain ⟨new, hnew, hm⟩ := h.addrs
    obtain ⟨new', hnew', hm'⟩ := h'.addrs
    exact ⟨new ++ new', by rw [hnew', hnew, List.append_assoc], hm.alloc hm'⟩
  pages := by
    obtain ⟨more, hmore, htakes⟩ := h.pages
    obtain ⟨more', hmore', htakes'⟩ := h'.pages
    refine ⟨more ++ more', by rw [hmore', hmore, List.append_assoc], ?_⟩
    rw [List.toFinset_append]
    exact htakes.trans htakes'
  only := by
    obtain ⟨new, hnew, -⟩ := h'.addrs
    refine (h.only.trans h'.only).mono (List.append_subset.mpr ⟨?_, List.Subset.refl _⟩)
    rw [hnew]
    exact List.cons_subset_cons _ (List.subset_append_left _ _)

/-- **The block to go on with** is there, and has room. -/
theorem ChainAt.openBlock (h : ChainAt k rest objs priv bs) (hf : Filled bs) (sb : Nat) :
    Ensures (k.openBlock priv sb (lastAddr 0 bs)) Fault.Halts fun r => ∃ cs v,
      (∀ c ∈ cs, c.2.used = shadowfsBlockSize) ∧ v.used < shadowfsBlockSize ∧
      ChainAt r.2 rest objs priv (cs ++ [(r.1, v)]) ∧ Wrote k r.2 priv bs (cs ++ [(r.1, v)]) [] := by
  -- a new block, if those that are there are full
  have hnew : (∀ c ∈ bs, c.2.used = shadowfsBlockSize) → Ensures (k.addBlock priv sb (lastAddr 0 bs))
      Fault.Halts fun r => ∃ cs v, (∀ c ∈ cs, c.2.used = shadowfsBlockSize) ∧ v.used < shadowfsBlockSize ∧
        ChainAt r.2 rest objs priv (cs ++ [(r.1, v)]) ∧ Wrote k r.2 priv bs (cs ++ [(r.1, v)]) [] := by
    intro hfull
    refine (h.addBlock sb).mono (fun _ he => he) fun r ⟨v, hv, hg⟩ => ?_
    refine ⟨bs, v, hfull, by rw [hv]; decide, hg.chain, ?_, ?_, ⟨[pageOf (r.1, v)], ?_, ?_⟩, hg.only⟩
    · rw [hg.mem, contentIn_append, contentIn_cons, bytesIn, hv]
      rfl
    · exact ⟨[r.1], by rw [List.map_append, List.map_singleton], hg.moves⟩
    · rw [List.map_append, List.map_singleton]
    · rw [List.toFinset_cons, List.toFinset_nil, insert_empty_eq]
      exact hg.takes
  rw [Store.openBlock]
  rcases List.eq_nil_or_concat bs with rfl | ⟨cs, ⟨y, w⟩, rfl⟩
  · rw [if_pos (show lastAddr 0 [] = 0 from rfl)]
    exact hnew (by simp)
  · rw [List.concat_eq_append] at *
    obtain ⟨first, -, hl⟩ := h.head
    obtain ⟨hy0, -, next, hy, -⟩ := hl.at_mid
    obtain ⟨hfull, hle⟩ := filled_concat.mp hf
    rw [lastAddr_concat] at *
    rw [if_neg hy0, hy]
    simp only
    split
    · rename_i hused
      refine hnew fun c hc => ?_
      rcases List.mem_append.mp hc with hc | hc
      · exact hfull c hc
      · rw [List.mem_singleton.mp hc]
        exact hused
    · rename_i hused
      exact ensures_ok.mpr ⟨cs, w, hfull, Nat.lt_of_le_of_ne hle hused, h, Wrote.refl k priv _⟩

/-- **The loop of `shadowfs_write`** appends a prefix of its source, or the kernel stops: all of it, unless
the quota is used up. -/
theorem ChainAt.writeRounds : ∀ {fuel : Nat} {k : Store} {bs : List (Nat × PageBlock)} {written : Nat}
    {src : List (BitVec 8)}, ChainAt k rest objs priv bs → Filled bs → src.length ≤ fuel →
    written + src.length < 2 ^ 32 →
    Ensures (writeRounds priv sb fuel k (lastAddr 0 bs) written src) Fault.Halts fun r => ∃ bs' j,
      j ≤ src.length ∧ r.1 = written + j ∧ ChainAt r.2 rest objs priv bs' ∧ Filled bs' ∧
      Wrote k r.2 priv bs bs' (src.take j) ∧
      (j = src.length ∨ (r.2.mounts sb).quota ≤ (r.2.mounts sb).used)
  | fuel, k, bs, written, [], h, hf, _, _ => by
    rw [Store.writeRounds]
    exact ensures_ok.mpr ⟨bs, 0, le_rfl, rfl, h, hf, Wrote.refl k priv bs, Or.inl rfl⟩
  | 0, k, bs, written, c :: src, h, hf, hfuel, hsum => absurd hfuel (by simp)
  | fuel + 1, k, bs, written, c :: src, h, hf, hfuel, hsum => by
    rw [Store.writeRounds]
    split
    · rename_i hquota
      exact ensures_ok.mpr ⟨bs, 0, Nat.zero_le _, rfl, h, hf, Wrote.refl k priv bs, Or.inr hquota⟩
    refine (h.openBlock hf sb).bind fun r hr => ?_
    obtain ⟨x, k₁⟩ := r
    obtain ⟨cs, v, hfull, hv, h₁, hw₁⟩ := hr
    simp only at h₁ hw₁ ⊢
    obtain ⟨j, k₂, hj, hok, h₂, hbytes, hpmm, hheap, honly⟩ := h₁.fillBlock (c :: src) hfull hv
    refine Ensures.bind_ok hok ?_
    rw [List.length_cons] at hj hfuel hsum
    have hw₂ : Wrote k₁ k₂ priv (cs ++ [(x, v)]) (cs ++ [(x, ⟨v.data, v.used + j⟩)]) ((c :: src).take j) := by
      refine ⟨hbytes, ⟨[], by simp, ?_⟩, ⟨[], by simp [pageOf], ?_⟩, honly.mono (by simp)⟩
      · rw [hheap]
        exact Moves.refl _
      · rw [hpmm]
        exact Takes.refl _
    have hf₂ : Filled (cs ++ [(x, ⟨v.data, v.used + j⟩)]) := filled_concat.mpr ⟨hfull, by
      simp only
      omega⟩
    have hdrop : ((c :: src).drop j).length = src.length + 1 - j := by
      rw [List.length_drop, List.length_cons]
    have hrest := @ChainAt.writeRounds fuel k₂ _ (written + j) ((c :: src).drop j) h₂ hf₂ (by omega)
      (by omega)
    rw [lastAddr_concat] at hrest
    simp only
    rw [add32_eq (by omega)]
    refine hrest.mono (fun _ he => he) fun r hr => ?_
    obtain ⟨bs', i, hi, hwritten, h', hf', hw', hend⟩ := hr
    rw [hdrop] at hi hend
    refine ⟨bs', j + i, ?_, by rw [hwritten, Nat.add_assoc], h', hf', ?_, ?_⟩
    · rw [List.length_cons]
      omega
    · rw [List.take_add]
      exact (hw₁.trans hw₂).trans hw'
    · rw [List.length_cons]
      exact hend.imp_left fun hi => by omega

/-- **`shadowfs_write`** appends a prefix of the buffer, whatever the position, or the kernel stops: all of
it, unless the quota is used up. -/
theorem FileAt.write {file : File} {buf : List (BitVec 8)} (h : FileAt k rest objs file.inode n bs)
    (hpos : file.position < 2 ^ 32) (hbuf : buf.length < 2 ^ 32) :
    Ensures (k.shadowfsWrite file buf) Fault.Halts fun r => ∃ bs', r.1 ≤ buf.length ∧
      r.2.1 = { file with position := add32 file.position r.1 } ∧
      FileAt r.2.2 rest objs file.inode { n with size := n.size + r.1 } bs' ∧
      contentIn r.2.2.machine.mem bs' = contentIn k.machine.mem bs ++ buf.take r.1 ∧
      (r.1 = buf.length ∨ (r.2.2.mounts n.sb).quota ≤ (r.2.2.mounts n.sb).used) ∧
      (∃ more, bs'.map pageOf = bs.map pageOf ++ more ∧
        Takes k.machine.pmm r.2.2.machine.pmm more.toFinset) ∧
      (∃ new, bs'.map Prod.fst = bs.map Prod.fst ++ new ∧ Moves k.heap r.2.2.heap [] new) ∧
      Only k r.2.2 (file.inode :: n.privateData :: bs'.map Prod.fst) := by
  obtain ⟨first, hpriv, hl⟩ := h.chain.head
  rw [Store.shadowfsWrite]
  refine Ensures.bind_ok (inodeAt_eq h.node) (Ensures.bind_ok (privAt_eq hpriv) ?_)
  split
  · rename_i hnil
    subst hnil
    have hself : add32 file.position 0 = file.position := Nat.mod_eq_of_lt hpos
    refine ensures_ok.mpr ⟨bs, le_rfl, by rw [hself], h, (List.append_nil _).symm, Or.inl rfl,
      ⟨[], (List.append_nil _).symm, Takes.refl _⟩, ⟨[], (List.append_nil _).symm, Moves.refl _⟩,
      (Only.refl k).mono (List.nil_subset _)⟩
  have hwalk : trail k.blocks (fun _ => false) heapFuel 0 first = .missing (lastAddr 0 bs) := by
    rcases @trail_spec _ _ (fun _ : PageBlock => false) _ _ 0 _ hl h.chain.length_lt with
      ⟨_, _, _, _, _, _, htrue, _⟩ | ⟨-, hmissing⟩
    · cases htrue
    · exact hmissing
  rw [hwalk]
  refine Ensures.bind_ok rfl ?_
  refine (h.chain.writeRounds h.filled le_rfl (by rwa [Nat.zero_add])).bind fun r hr => ?_
  obtain ⟨written, k'⟩ := r
  obtain ⟨bs', j, hj, hwritten, h', hf', hw', hend⟩ := hr
  rw [Nat.zero_add] at hwritten
  simp only at hwritten h' hw' hend
  subst hwritten
  have hlen : (contentIn k'.machine.mem bs').length = n.size + written := by
    rw [hw'.bytes, List.length_append, ← h.size, List.length_take, Nat.min_eq_left hj]
  have hsize : add32 n.size written = n.size + written := by
    have hlt := h'.content_lt hf' k'.machine.mem
    exact add32_eq (by omega)
  refine ensures_ok.mpr ⟨bs', hj, rfl, ⟨?_, h.type, ⟨h'.head, h'.heap, h'.machine, h'.pages⟩, hf',
    hlen.symm⟩, hw'.bytes, hend, hw'.pages, hw'.addrs, ?_⟩
  · rw [← hsize]
    exact Function.update_self ..
  · refine (hw'.only.trans (only_setSize k' file.inode n _)).mono fun x hx => ?_
    rcases List.mem_append.mp hx with hx | hx
    · exact List.mem_cons_of_mem _ hx
    · exact List.mem_singleton.mp hx ▸ List.mem_cons_self

/-- A file that `shadowfs_create_inode` has just made. -/
theorem FileAt.of_createInode {hbs : List Block} {sb : Nat} (hr : Rep k.heap hbs) (hwf : k.machine.Wf)
    (hok : k.shadowfsCreateInode sb .file = .ok (a, k')) :
    ∃ n, FileAt k' (inUse headerSize heapStart hbs) [] a n [] ∧ n.sb = sb := by
  obtain ⟨n, heap, mounts, htype, hsize, hsb, heq, hm⟩ := (k.createInode_spec sb .file).of_ok hok
  simp only at heq hm
  subst heq
  have hheap : Heaped heap (inUse headerSize heapStart hbs) [n.privateData, a] :=
    (hm _ _ hr.heaped).perm (List.Perm.swap _ _ _)
  refine ⟨n, ⟨Function.update_self .., htype, ⟨⟨0, Function.update_self .., rfl⟩, hheap, hwf, ?_⟩,
    filled_nil, hsize⟩, hsb⟩
  exact ⟨fun _ hb => absurd hb List.not_mem_nil, List.nodup_nil⟩

end Chains

end Store

/-! ## 4. Every read -/

/-- **Reads are slices.**  For every position and every size `shadowfs_read` returns the number of bytes
from the position on, at most the size, puts exactly these into the buffer and moves on by them.  So
reading from the start with sizes that are not 0 gives the content, chunk by chunk. -/
theorem reads_are_slices {k : Store} {rest : List (Nat × Nat)} {objs : List Nat} {a : Nat} {n : InodeNode}
    {bs : List (Nat × PageBlock)} (h : k.FileAt rest objs a n bs) (flags : BitVec 32)
    (buf : Nat → BitVec 8) (content : List (BitVec 8))
    (hcontent : content = Store.contentIn k.machine.mem bs) :
    (∀ position < 2 ^ 32, ∀ size < 2 ^ 32, ∃ (r : Nat) (buf' : Nat → BitVec 8),
      k.shadowfsRead ⟨a, position, flags⟩ buf size = .ok (r, buf', ⟨a, position + r, flags⟩) ∧
      r = min size (content.length - position) ∧ (∀ j < r, content[position + j]? = some (buf' j)) ∧
      ∀ j, r ≤ j → buf' j = buf j) ∧
    ∀ sizes : List Nat, (∀ s ∈ sizes, 0 < s ∧ s < 2 ^ 32) → ∃ file',
      k.readChunks ⟨a, 0, flags⟩ buf sizes = .ok (content.take sizes.sum, file') ∧
      (content.length ≤ sizes.length → content.take sizes.sum = content) := by
  subst hcontent
  refine ⟨fun position hpos size hsize => ?_, fun sizes hsizes => ?_⟩
  · refine ⟨_, _, h.read buf flags hpos hsize, Store.length_sliceAt _ _ _, fun j hj => ?_,
      fun j hj => Store.putAt_of_ge hj⟩
    rw [← Store.putAt_of_lt hj, Store.sliceAt, List.getElem?_take_of_lt, List.getElem?_drop]
    rw [Store.length_sliceAt] at hj
    omega
  · obtain ⟨file', hok⟩ := h.readChunks flags buf (show 0 < 2 ^ 32 by decide) fun s hs => (hsizes s hs).2
    refine ⟨file', hok, fun hlen => List.take_of_length_le (hlen.trans ?_)⟩
    exact List.length_le_sum_of_one_le _ fun s hs => (hsizes s hs).1

theorem blankStore_wf : blankStore.machine.Wf := ⟨⟨by decide, by decide⟩, by decide⟩

/-- Three bytes in a new file. -/
theorem lettersFile : ∃ k rest a n bs, Store.FileAt k rest [] a n bs ∧
    Store.contentIn k.machine.mem bs = [0x41, 0x42, 0x43] ∧ (k.mounts n.sb).used = 24 := by
  have hok : (((blankStore.shadowfsCreateInode 0 .file) >>= fun r =>
      r.2.shadowfsWrite ⟨r.1, 0, 2⟩ [0x41, 0x42, 0x43]).map fun r =>
        (r.1, (r.2.2.mounts 0).used)).toOption = some (3, 24) := by
    decide +kernel
  obtain ⟨w, hw, hres⟩ := map_eq_ok (toOption_eq_some.mp hok)
  obtain ⟨hthree, hused⟩ := Prod.mk.inj hres
  obtain ⟨⟨a, k⟩, hcreate, hwrite⟩ := bind_eq_ok.mp hw
  obtain ⟨n, h, hsb⟩ := Store.FileAt.of_createInode (memInit_rep _) blankStore_wf hcreate
  obtain ⟨bs, -, -, h', hbytes, -⟩ := (h.write (show 0 < 2 ^ 32 by decide) (by decide)).of_ok hwrite
  refine ⟨_, _, a, _, bs, h', ?_, ?_⟩
  · rw [hbytes, hthree]
    rfl
  · rw [← hused, ← hsb]

/-- From the second byte on, with a size that makes the sum wrap around. -/
theorem reads_are_slices_wrapping : ∃ k a buf', Store.shadowfsRead k ⟨a, 1, 2⟩ (fun _ => 0) 0xFFFFFFFF =
    .ok (2, buf', ⟨a, 3, 2⟩) ∧ buf' 0 = 0x42 ∧ buf' 1 = 0x43 ∧ buf' 2 = 0 := by
  obtain ⟨k, rest, a, n, bs, h, hcontent, -⟩ := lettersFile
  obtain ⟨r, buf', hok, hr, hin, hout⟩ := (reads_are_slices h 2 (fun _ => 0) _ hcontent.symm).1 1 (by decide)
    0xFFFFFFFF (by decide)
  obtain rfl : r = 2 := hr
  exact ⟨k, a, buf', hok, (Option.some.inj (hin 0 (by decide))).symm,
    (Option.some.inj (hin 1 (by decide))).symm, hout 2 le_rfl⟩

end AcornOS
