/-
# The kernel heap (`kernel/memory/mem.c`)

A 16MB arena at a fixed address, cut into headed blocks (`Lib/BlockList.lean`).  `kmalloc` takes
the first free block that is large enough and splits off what is left over; `kfree` marks the
block free and then walks the WHOLE list, merging every pair of neighbouring free blocks.

`Rep h bs` is the representation invariant: the memory holds the blocks `bs`, they fill the
arena exactly, their sizes are multiples of 4, no two neighbours are both free, and `heap_used`
is the sum of the sizes in use.  Each operation has one specification over it (`kmalloc_spec`,
`kfree_spec`), and `kernel_heap_invariant` runs them.

The list is determined by the blocks in use (`Rep.unique`), which makes the heap COMPLETE and
REVERSIBLE (`kernel_heap_complete`): a request is refused only if no unused range of the arena has
room for it, and freeing everything, in any order, gives back the heap that `mem_init` built.

`kmalloc` never walks off: the arena has room for at most `HEAP_SIZE / HEADER_SIZE` headers, so
that many steps always reach the end of a list that satisfies `Rep`.  Neither wrap-around of the
size arithmetic reaches a block: rounding up a size above `2^64 - 4` gives 0, which is served
with an empty block, and the sum in the split test is only evaluated once the size is known to be
at most that of a block.
-/
import AcornOS.Lib.BlockList
import AcornOS.Memory.Pmm

namespace AcornOS

open Lib Relation
open scoped List

/-! ## 1. The model -/

/-- `HEADER_SIZE`: `sizeof(block_header_t)` -/
def headerSize : Nat := 24

/-- `HEAP_START` -/
def heapStart : Nat := 0xFFFF800002200000

/-- The file's static variables, and the memory the headers live in. -/
structure KHeap where
  mem : Headers
  heapStart : Nat
  heapUsed : Nat

/-- More headers than the arena has room for. -/
def heapFuel : Nat := heapSize / headerSize + 1

/-- `mem_init` -/
def memInit (memory : Headers) : KHeap where
  mem := Function.update memory heapStart ⟨heapSize - headerSize, true, 0⟩
  heapStart := heapStart
  heapUsed := 0

/-- Rounding a request up to a multiple of 4. -/
def roundUp4 (size : Nat) : Nat :=
  if size % 4 ≠ 0 then add64 size (4 - size % 4) else size

/-- Taking `size` bytes of the free block at `current`, splitting off the rest if the rest is
worth a block of its own. -/
def kmallocTake (mem : Headers) (current size : Nat) : Headers :=
  let mem :=
    if (mem current).size > add64 (add64 size headerSize) 4 then
      let newBlock := add64 (add64 current headerSize) size
      let mem := Function.update mem newBlock
        ⟨sub64 (sub64 (mem current).size size) headerSize, true, (mem current).next⟩
      Function.update mem current { mem current with size := size, next := newBlock }
    else mem
  Function.update mem current { mem current with free := false }

/-- `kmalloc` -/
def kmalloc (h : KHeap) (size : Nat) : Except Halt (Nat × KHeap) :=
  if size = 0 then .error (.panic "kmalloc: requested zero bytes!")
  else
    match search h.mem (roundUp4 size) heapFuel 0 h.heapStart with
    | none => .error .diverge
    | some (.miss _) => .error (.panic "kmalloc: out of heap memory!")
    | some (.hit current) =>
      let mem := kmallocTake h.mem current (roundUp4 size)
      .ok (add64 current headerSize,
        { h with mem := mem, heapUsed := (h.heapUsed + (mem current).size) % 2 ^ 32 })

/-- `kfree` -/
def kfree (h : KHeap) (ptr : Nat) : Except Halt KHeap :=
  if ptr = 0 then .ok h
  else
    let block := sub64 ptr headerSize
    let mem := Function.update h.mem block { h.mem block with free := true }
    let used := (h.heapUsed + (2 ^ 32 - (mem block).size % 2 ^ 32)) % 2 ^ 32
    match coalesce headerSize heapFuel mem h.heapStart with
    | none => .error .diverge
    | some mem => .ok { h with mem := mem, heapUsed := used }

/-! ## 2. The representation invariant -/

/-- The bytes in use according to a list of blocks. -/
def usedBytes (bs : List Block) : Nat := ((inUse headerSize heapStart bs).map Prod.snd).sum

/-- `Rep h bs`: the heap `h` is the list of blocks `bs`. -/
structure Rep (h : KHeap) (bs : List Block) : Prop where
  start : h.heapStart = heapStart
  chain : Chained headerSize h.mem heapStart bs 0
  span : span headerSize bs = heapSize
  aligned : ∀ b ∈ bs, 4 ∣ b.size
  coalesced : Coalesced bs
  used : h.heapUsed = usedBytes bs

theorem headerSize_pos : 0 < headerSize := by decide

theorem heapStart_pos : 0 < heapStart := by decide

/-- The arena ends inside the address space. -/
theorem heapEnd_lt : heapStart + heapSize < 2 ^ 64 := by
  unfold heapStart heapSize
  norm_num

section Rep

variable {h : KHeap} {bs : List Block}

theorem Rep.ne_nil (hr : Rep h bs) : bs ≠ [] := by
  rintro rfl
  have := hr.span
  simp [heapSize] at this

theorem Rep.length_lt (hr : Rep h bs) : bs.length < heapFuel := by
  have hle := @length_mul_le_span headerSize bs
  rw [hr.span] at hle
  unfold heapFuel
  have : bs.length ≤ heapSize / headerSize := (Nat.le_div_iff_mul_le headerSize_pos).mpr hle
  omega

theorem Rep.link_eq (hr : Rep h bs) : link heapStart bs = h.heapStart := by
  rw [hr.start, link, if_neg hr.ne_nil]

/-- The sizes in use add up to less than the region. -/
theorem usedBytes_le_span (hs a : Nat) (bs : List Block) :
    ((inUse hs a bs).map Prod.snd).sum ≤ span hs bs := by
  induction bs generalizing a with
  | nil => simp [inUse]
  | cons b bs ih =>
    have := ih (a + hs + b.size)
    rw [inUse, span_cons]
    split
    · omega
    · simp only [List.map_cons, List.sum_cons]
      omega

theorem Rep.used_lt (hr : Rep h bs) : usedBytes bs < 2 ^ 32 := by
  have := usedBytes_le_span headerSize heapStart bs
  rw [hr.span] at this
  unfold usedBytes
  unfold heapSize at this
  omega

/-- **The blocks in use determine the heap's list**: what is free is what is left, and it is coalesced. -/
theorem Rep.unique {h' : KHeap} {bs' : List Block} (hr : Rep h bs) (hr' : Rep h' bs')
    (huse : inUse headerSize heapStart bs' ~ inUse headerSize heapStart bs) : bs' = bs :=
  coalesced_unique headerSize_pos hr'.coalesced hr.coalesced (hr'.span.trans hr.span.symm)
    (inUse_eq_of_perm headerSize_pos huse)

end Rep

/-- `mem_init` builds one free block. -/
theorem memInit_rep (memory : Headers) :
    Rep (memInit memory) [⟨heapSize - headerSize, true⟩] where
  start := rfl
  chain := ⟨by simp [memInit], trivial⟩
  span := by decide
  aligned := by decide
  coalesced := List.isChain_singleton _
  used := by simp [memInit, usedBytes, inUse]

/-! ## 3. `kmalloc` -/

/-- A block in use may stand where a free one stood, whatever follows it. -/
theorem coalesced_take {pre post : List Block} {b : Block} {n : Nat}
    (h : Coalesced (pre ++ b :: post)) : Coalesced (pre ++ ⟨n, false⟩ :: post) := by
  unfold Coalesced at h ⊢
  rw [List.isChain_append, List.isChain_cons] at h ⊢
  refine ⟨h.1, ⟨fun y _ => by simp, h.2.1.2⟩, ?_⟩
  intro x _ y hy
  simp only [List.head?_cons, Option.mem_def, Option.some.injEq] at hy
  simp [← hy]

/-- ... and a free rest behind it is not next to another free block, since the block it was
cut from was not. -/
theorem coalesced_takeSplit {pre post : List Block} {b : Block} {n k : Nat}
    (h : Coalesced (pre ++ b :: post)) (hb : b.free = true) :
    Coalesced (pre ++ ⟨n, false⟩ :: ⟨k, true⟩ :: post) := by
  have htake : Coalesced (pre ++ ⟨n, false⟩ :: post) := coalesced_take h
  unfold Coalesced at h htake ⊢
  rw [List.isChain_append] at h htake ⊢
  refine ⟨h.1, List.isChain_cons_cons.mpr ⟨by simp, ?_⟩, htake.2.2⟩
  rw [List.isChain_cons] at h ⊢
  refine ⟨fun y hy => ?_, h.2.1.2⟩
  have := h.2.1.1 y hy
  simpa [hb] using this

/-- Rounding up without wrap-around: the least multiple of 4 that is large enough. -/
theorem le_roundUp4 {size : Nat} (h : size + 3 < 2 ^ 64) : size ≤ roundUp4 size := by
  unfold roundUp4
  split
  · rw [add64_eq (by omega)]
    omega
  · omega

theorem four_dvd_roundUp4 (size : Nat) : 4 ∣ roundUp4 size := by
  unfold roundUp4
  split
  · unfold add64
    omega
  · omega

/-- What `kmalloc` does to memory once it has found a block: it splits it, or it takes it
whole. -/
theorem kmallocTake_spec {m : Headers} {pre post : List Block} {b : Block} {size : Nat}
    (hch : Chained headerSize m heapStart (pre ++ b :: post) 0)
    (hspan : span headerSize (pre ++ b :: post) = heapSize) (hfit : b.Fits size)
    (hsize : 4 ∣ size) (hb : 4 ∣ b.size) :
    ∃ mid, Chained headerSize (kmallocTake m (heapStart + span headerSize pre) size) heapStart
        (pre ++ (mid ++ post)) 0 ∧
      (mid = [⟨b.size, false⟩] ∨
        ∃ k, 4 ∣ k ∧ size + headerSize + k = b.size ∧ mid = [⟨size, false⟩, ⟨k, true⟩]) := by
  obtain ⟨hfree, hle⟩ := hfit
  have hbm := hch.at_mid
  have hend := heapEnd_lt
  simp only [span_append, span_cons] at hspan
  have hsz : (m (heapStart + span headerSize pre)).size = b.size := by rw [hbm]
  have hadd : add64 (add64 size headerSize) 4 = size + headerSize + 4 := by
    rw [@add64_eq size headerSize (by omega), add64_eq (by unfold heapStart at hend; omega)]
  unfold kmallocTake
  by_cases hsplit : b.size > size + headerSize + 4
  · refine ⟨[⟨size, false⟩, ⟨b.size - size - headerSize, true⟩], ?_,
      Or.inr ⟨b.size - size - headerSize, ?_, by omega, rfl⟩⟩
    · have hnew : add64 (add64 (heapStart + span headerSize pre) headerSize) size
          = heapStart + span headerSize pre + headerSize + size := by
        rw [@add64_eq _ headerSize (by omega), add64_eq (by omega)]
      have hrest : sub64 (sub64 b.size size) headerSize = b.size - size - headerSize := by
        rw [@sub64_eq _ size hle (by omega), sub64_eq (by omega) (by omega)]
      have hs := hch.split headerSize_pos (show size + headerSize ≤ b.size by omega) false
      rw [hsz, if_pos (by rw [hadd]; exact hsplit), hnew, hrest]
      have hne : heapStart + span headerSize pre
          ≠ heapStart + span headerSize pre + headerSize + size := by
        unfold headerSize
        omega
      simp only [Function.update_self, Function.update_idem]
      simpa using hs
    · unfold headerSize
      omega
  · refine ⟨[⟨b.size, false⟩], ?_, Or.inl rfl⟩
    rw [hsz, if_neg (by rw [hadd]; exact hsplit)]
    exact hch.setFree headerSize_pos false

/-- **`kmalloc`.**  It returns a block that was not in use, large enough unless the request was
so large that rounding it up wrapped around, and leaves every other block in use alone.  The
only other outcome is a panic: it never loops. -/
theorem kmalloc_spec {h : KHeap} {bs : List Block} {size : Nat} (hr : Rep h bs) :
    Ensures (kmalloc h size) (fun e => e ≠ .diverge) (fun r => ∃ bs' x n, Rep r.2 bs' ∧
      r.1 = x + headerSize ∧ roundUp4 size ≤ n ∧
      inUse headerSize heapStart bs' ~ (x, n) :: inUse headerSize heapStart bs) := by
  unfold kmalloc
  split
  · exact ensures_error.mpr (by simp)
  rcases @search_spec headerSize h.mem (roundUp4 size) bs heapFuel 0 heapStart heapStart_pos
      hr.length_lt hr.chain with ⟨pre, b, post, rfl, hfit, -, hsearch⟩ | ⟨-, hsearch⟩
  · rw [hr.link_eq] at hsearch
    rw [hsearch]
    simp only
    obtain ⟨mid, hch, hmid⟩ := kmallocTake_spec hr.chain hr.span hfit (four_dvd_roundUp4 size)
      (hr.aligned b (by simp))
    have hspan := hr.span
    have hend := heapEnd_lt
    have hused := hr.used_lt
    simp only [span_append, span_cons] at hspan
    -- whichever way it went, the block now at the found address is in use and large enough
    obtain ⟨n, rest, hmid', hn, hdvd, hspan', hrest⟩ : ∃ n rest, mid = ⟨n, false⟩ :: rest ∧
        roundUp4 size ≤ n ∧ 4 ∣ n ∧ span headerSize mid = span headerSize [b] ∧
        (rest = [] ∨ ∃ k, 4 ∣ k ∧ rest = [⟨k, true⟩]) := by
      rcases hmid with rfl | ⟨k, hk, hsum, rfl⟩
      · exact ⟨b.size, [], rfl, hfit.2, hr.aligned b (by simp), rfl, Or.inl rfl⟩
      · refine ⟨roundUp4 size, [⟨k, true⟩], rfl, Nat.le_refl _, four_dvd_roundUp4 size, ?_,
          Or.inr ⟨k, hk, rfl⟩⟩
        simp only [span_cons, span_nil]
        omega
    have hat : (kmallocTake h.mem (heapStart + span headerSize pre) (roundUp4 size)
        (heapStart + span headerSize pre)).size = n := by
      rw [hmid'] at hch
      rw [hch.at_mid]
    have hcoal : Coalesced (pre ++ (mid ++ post)) := by
      rw [hmid']
      rcases hrest with rfl | ⟨k, -, rfl⟩
      · exact coalesced_take hr.coalesced
      · exact coalesced_takeSplit hr.coalesced hfit.1
    have halign : ∀ c ∈ pre ++ (mid ++ post), 4 ∣ c.size := by
      intro c hc
      rcases List.mem_append.mp hc with hc | hc
      · exact hr.aligned c (by simp [hc])
      · rcases List.mem_append.mp hc with hc | hc
        · rw [hmid'] at hc
          rcases List.mem_cons.mp hc with rfl | hc
          · exact hdvd
          · rcases hrest with rfl | ⟨k, hk, rfl⟩
            · cases hc
            · rw [List.mem_singleton.mp hc]
              exact hk
        · exact hr.aligned c (by simp [hc])
    have hfreeRest : ∀ c ∈ rest, c.free = true := by
      rcases hrest with rfl | ⟨k, -, rfl⟩ <;> simp
    have hspanNew : span headerSize (pre ++ (mid ++ post)) = heapSize := by
      simp only [span_append, hspan', span_cons, span_nil]
      omega
    -- the blocks in use are the old ones and the new one
    rw [hmid'] at hspan'
    have htake := @inUse_take headerSize heapStart pre post rest b n hfit.1 hfreeRest hspan'
    rw [← hmid'] at htake
    have hsum : usedBytes (pre ++ (mid ++ post)) = n + usedBytes (pre ++ b :: post) :=
      (htake.map Prod.snd).sum_eq
    have hrep : Rep { h with
        mem := kmallocTake h.mem (heapStart + span headerSize pre) (roundUp4 size),
        heapUsed := (h.heapUsed + n) % 2 ^ 32 } (pre ++ (mid ++ post)) := by
      refine ⟨hr.start, hch, hspanNew, halign, hcoal, ?_⟩
      have hlt := usedBytes_le_span headerSize heapStart (pre ++ (mid ++ post))
      rw [hspanNew] at hlt
      have hsmall : usedBytes (pre ++ (mid ++ post)) < 2 ^ 32 := by
        unfold usedBytes heapSize at *
        omega
      simp only [hr.used]
      omega
    refine ensures_ok.mpr ⟨pre ++ (mid ++ post), heapStart + span headerSize pre, n, ?_, ?_, hn,
      htake⟩
    · rw [hat]
      exact hrep
    · exact add64_eq (by omega)
  · rw [hr.link_eq] at hsearch
    rw [hsearch]
    exact ensures_error.mpr (by simp)

/-- **`kmalloc` succeeds iff a block fits.** -/
theorem Rep.kmalloc_ok_iff {h : KHeap} {bs : List Block} {size : Nat} (hr : Rep h bs) (hpos : 0 < size) :
    (∃ r, kmalloc h size = .ok r) ↔ ∃ b ∈ bs, b.Fits (roundUp4 size) := by
  have hsearch := @search_spec headerSize h.mem (roundUp4 size) bs heapFuel 0 heapStart heapStart_pos
    hr.length_lt hr.chain
  rw [hr.link_eq] at hsearch
  rw [kmalloc, if_neg (by omega)]
  rcases hsearch with ⟨pre, b, post, rfl, hfit, -, hhit⟩ | ⟨hnone, hmiss⟩
  · rw [hhit]
    exact ⟨fun _ => ⟨b, by simp, hfit⟩, fun _ => ⟨_, rfl⟩⟩
  · rw [hmiss]
    refine ⟨fun h => ?_, fun ⟨b, hb, hfit⟩ => absurd hfit (hnone b hb)⟩
    obtain ⟨r, hr⟩ := h
    cases hr

/-- Whether `kmalloc` finds a block depends on the list of blocks alone. -/
theorem Rep.kmalloc_ok {h h' : KHeap} {bs : List Block} {size : Nat} {r : Nat × KHeap} (hr : Rep h bs)
    (hr' : Rep h' bs) (hok : kmalloc h size = .ok r) : ∃ r', kmalloc h' size = .ok r' := by
  have hpos : 0 < size := by
    rcases Nat.eq_zero_or_pos size with rfl | hpos
    · cases hok
    · exact hpos
  exact (hr'.kmalloc_ok_iff hpos).mpr ((hr.kmalloc_ok_iff hpos).mp ⟨r, hok⟩)

/-! ## 4. `kfree` -/

/-- **`kfree`.**  Given a block in use it always returns, and exactly that block is no longer in
use. -/
theorem kfree_spec {h : KHeap} {bs : List Block} {x n : Nat} (hr : Rep h bs)
    (hx : (x, n) ∈ inUse headerSize heapStart bs) :
    ∃ h' bs', kfree h (x + headerSize) = .ok h' ∧ Rep h' bs' ∧
      inUse headerSize heapStart bs ~ (x, n) :: inUse headerSize heapStart bs' := by
  obtain ⟨pre, post, rfl, rfl⟩ := mem_inUse_iff.mp hx
  have hend := heapEnd_lt
  have hused := hr.used_lt
  have hspan := hr.span
  simp only [span_append, span_cons] at hspan
  have hblock : sub64 (heapStart + span headerSize pre + headerSize) headerSize
      = heapStart + span headerSize pre := by
    rw [sub64_eq (by omega) (by omega)]
    omega
  have hset := hr.chain.setFree headerSize_pos true
  have hspanSet : span headerSize (pre ++ ({ size := n, free := true } : Block) :: post)
      = heapSize := by
    simp only [span_append, span_cons]
    omega
  have hlen : (pre ++ ({ size := n, free := true } : Block) :: post).length < heapFuel := by
    have := hr.length_lt
    simpa using this
  obtain ⟨m', hrun, hch⟩ := coalesce_spec headerSize_pos heapStart_pos heapFuel
    (pre ++ ({ size := n, free := true } : Block) :: post) []
    (Function.update h.mem (heapStart + span headerSize pre)
      { h.mem (heapStart + span headerSize pre) with free := true }) hlen
    (by rw [hspanSet]; unfold heapSize; norm_num) (by simpa using hset)
  have hlink : link (heapStart + span headerSize [])
      (pre ++ ({ size := n, free := true } : Block) :: post) = h.heapStart := by
    rw [hr.start, link, if_neg (by simp)]
    simp
  rw [hlink] at hrun
  have hsize : (h.mem (heapStart + span headerSize pre)).size = n := by rw [hr.chain.at_mid]
  -- what was in use: the block, and what is in use now
  have htake := @inUse_take headerSize heapStart pre post [] ⟨n, true⟩ n rfl (by simp) rfl
  rw [List.singleton_append] at htake
  rw [← inUse_mergeFree heapStart (pre ++ ({ size := n, free := true } : Block) :: post)] at htake
  have hsum : usedBytes (pre ++ ⟨n, false⟩ :: post) = n + usedBytes (mergeFree headerSize
      (pre ++ ({ size := n, free := true } : Block) :: post)) := (htake.map Prod.snd).sum_eq
  refine ⟨⟨m', h.heapStart, (h.heapUsed + (2 ^ 32 - n % 2 ^ 32)) % 2 ^ 32⟩,
    mergeFree headerSize (pre ++ ({ size := n, free := true } : Block) :: post), ?_,
    ⟨hr.start, by simpa using hch, ?_, ?_, mergeFree_coalesced _, ?_⟩, ?_⟩
  · rw [kfree, if_neg (by unfold headerSize; omega), hblock]
    simp only [hrun]
    simp only [Function.update_self, hsize]
  · rw [span_mergeFree, hspanSet]
  · refine mergeFree_forall (P := fun k => 4 ∣ k) (fun u v hu hv => ?_) _ fun c hc => ?_
    · unfold headerSize
      omega
    · rcases List.mem_append.mp hc with hc | hc
      · exact hr.aligned c (by simp [hc])
      · rcases List.mem_cons.mp hc with rfl | hc
        · exact hr.aligned ⟨n, false⟩ (by simp)
        · exact hr.aligned c (by simp [hc])
  · simp only [hr.used]
    omega
  · exact htake

/-! ## 5. Whole runs -/

/-- The heap together with the pointers handed out and not yet freed. -/
structure KState where
  heap : KHeap
  live : List Nat

/-- One call that returns: `kmalloc` of any nonzero 64-bit size, `kfree` of a live pointer. -/
inductive KStep : KState → KState → Prop
  | kmalloc {s : KState} {size p : Nat} {h' : KHeap} (hpos : 0 < size) (hsize : size < 2 ^ 64)
      (h : kmalloc s.heap size = .ok (p, h')) : KStep s ⟨h', p :: s.live⟩
  | kfree {s : KState} {p : Nat} {h' : KHeap} (hlive : p ∈ s.live)
      (h : kfree s.heap p = .ok h') : KStep s ⟨h', s.live.erase p⟩

/-- The states a run reaches from `mem_init`. -/
def KReach (memory : Headers) (s : KState) : Prop :=
  ReflTransGen KStep ⟨memInit memory, []⟩ s

/-- `KInv s bs`: the heap is the list `bs`, and the live pointers are the data of its blocks in
use. -/
structure KInv (s : KState) (bs : List Block) : Prop where
  rep : Rep s.heap bs
  live : s.live ~ (inUse headerSize heapStart bs).map (fun y => y.1 + headerSize)

theorem KStep.inv {s t : KState} {bs : List Block} (h : KStep s t) (hs : KInv s bs) :
    ∃ bs', KInv t bs' := by
  cases h with
  | @kmalloc size p h' hpos hsize hok =>
    obtain ⟨bs', x, n, hrep, hp, -, huse⟩ := (kmalloc_spec hs.rep).of_ok hok
    simp only at hrep hp
    refine ⟨bs', hrep, ?_⟩
    rw [hp]
    have hmap := huse.map fun y : Nat × Nat => y.1 + headerSize
    exact (hs.live.cons _).trans hmap.symm
  | @kfree p h' hlive hok =>
    obtain ⟨⟨x, n⟩, hx, rfl⟩ := List.mem_map.mp (hs.live.mem_iff.mp hlive)
    obtain ⟨h'', bs', hok', hrep, huse⟩ := kfree_spec hs.rep hx
    obtain rfl : h'' = h' := Except.ok.inj (hok'.symm.trans hok)
    refine ⟨bs', hrep, ?_⟩
    have := (hs.live.trans (huse.map _)).erase (x + headerSize)
    simpa using this

theorem KInv.mem_live {s : KState} {bs : List Block} (hs : KInv s bs) (p : Nat) :
    p ∈ s.live ↔ ∃ n, DataRegion headerSize heapStart bs p n := by
  rw [hs.live.mem_iff, List.mem_map]
  constructor
  · rintro ⟨⟨x, n⟩, hx, rfl⟩
    exact ⟨n, x, hx, rfl⟩
  · rintro ⟨n, x, hx, rfl⟩
    exact ⟨(x, n), hx, rfl⟩

theorem KInv.nodup_live {s : KState} {bs : List Block} (hs : KInv s bs) : s.live.Nodup := by
  rw [hs.live.nodup_iff]
  have hnodup := (inUse_nodup headerSize_pos heapStart bs).map (add_left_injective headerSize)
  simpa [Function.comp_def] using hnodup

theorem KReach.inv {memory : Headers} {s : KState} (h : KReach memory s) : ∃ bs, KInv s bs := by
  have hstart : ∃ bs, KInv ⟨memInit memory, []⟩ bs :=
    ⟨_, memInit_rep memory, by simp [inUse]⟩
  refine reach_invariant (I := fun s => ∃ bs, KInv s bs) h hstart ?_
  rintro a b ⟨bs, hs⟩ hstep
  exact hstep.inv hs

/-- **The kernel heap's representation invariant.**  In every state reached from `mem_init` the
list from `heap_start` is some list of blocks `bs` that stands in increasing address order and
tiles the arena, with sizes that are multiples of 4, no two neighbours both free, `heap_used`
the sum of the sizes in use, the live pointers exactly the data of the blocks in use, and their
data regions apart from each other and from every header. -/
theorem kernel_heap_invariant (memory : Headers) (s : KState) (hs : KReach memory s) :
    ∃ bs, s.heap.heapStart = heapStart ∧
      Chained headerSize s.heap.mem heapStart bs 0 ∧ span headerSize bs = heapSize ∧
      (placed headerSize heapStart bs).Pairwise (fun x y => x.1 < y.1) ∧
      (∀ b ∈ bs, 4 ∣ b.size) ∧ Coalesced bs ∧
      (∀ p, p ∈ s.live ↔ ∃ n, DataRegion headerSize heapStart bs p n) ∧ s.live.Nodup ∧
      (∀ p n, DataRegion headerSize heapStart bs p n →
        (∀ q k, DataRegion headerSize heapStart bs q k → q ≠ p → Apart p n q k) ∧
        ∀ y ∈ placed headerSize heapStart bs, Apart p n y.1 headerSize) ∧
      s.heap.heapUsed = usedBytes bs := by
  obtain ⟨bs, hinv⟩ := hs.inv
  have hr := hinv.rep
  refine ⟨bs, hr.start, hr.chain, hr.span, ?_, hr.aligned, hr.coalesced, hinv.mem_live,
    hinv.nodup_live, fun p n hp => ⟨hp.apart.1, hp.apart.2.1⟩, hr.used⟩
  refine (placed_pairwise heapStart bs).imp fun {x y} hxy => ?_
  have := headerSize_pos
  omega

/-- The state after the first `kmalloc(10)` on blank memory is such a state: its one live
pointer is the data of a block of the tiling. -/
theorem kernel_heap_invariant_first_block :
    ∃ h, KReach (fun _ => ⟨0, false, 0⟩) ⟨h, [heapStart + headerSize]⟩ ∧
      ∃ bs n, Chained headerSize h.mem heapStart bs 0 ∧ span headerSize bs = heapSize ∧
        DataRegion headerSize heapStart bs (heapStart + headerSize) n ∧
        h.heapUsed = usedBytes bs := by
  obtain ⟨h, hok⟩ : ∃ h, kmalloc (memInit fun _ => ⟨0, false, 0⟩) 10 =
      .ok (heapStart + headerSize, h) := ⟨_, rfl⟩
  have hreach : KReach (fun _ => ⟨0, false, 0⟩) ⟨h, [heapStart + headerSize]⟩ :=
    ReflTransGen.single (KStep.kmalloc (by decide) (by decide) hok)
  obtain ⟨bs, -, hchain, hspan, -, -, -, hlive, -, -, hused⟩ := kernel_heap_invariant _ _ hreach
  obtain ⟨n, hn⟩ := (hlive _).mp (List.mem_singleton.mpr rfl)
  exact ⟨h, hreach, bs, n, hchain, hspan, hn, hused⟩

/-! ## 6. Completeness and reversibility -/

/-- A range of the arena that meets neither the header of a live allocation nor its data, the
bytes that the header says it has. -/
def KState.Unused (s : KState) (a n : Nat) : Prop :=
  heapStart ≤ a ∧ a + n ≤ heapStart + heapSize ∧
    ∀ p ∈ s.live, Apart a n (p - headerSize) headerSize ∧
      Apart a n p (s.heap.mem (p - headerSize)).size

/-- The header of a block in use. -/
theorem Rep.size_at {h : KHeap} {bs : List Block} {x n : Nat} (hr : Rep h bs)
    (hx : (x, n) ∈ inUse headerSize heapStart bs) : (h.mem x).size = n := by
  obtain ⟨pre, post, rfl, rfl⟩ := mem_inUse_iff.mp hx
  rw [hr.chain.at_mid]

/-- The unused ranges in terms of the list of blocks. -/
theorem KInv.unused_iff {s : KState} {bs : List Block} (hs : KInv s bs) {a n : Nat} (hn : 0 < n) :
    s.Unused a n ↔ heapStart ≤ a ∧ a + n ≤ heapStart + heapSize ∧
      ∀ y ∈ inUse headerSize heapStart bs, Apart a n y.1 (headerSize + y.2) := by
  have hone : ∀ x k, Apart a n x headerSize ∧ Apart a n (x + headerSize) k ↔
      Apart a n x (headerSize + k) := by
    intro x k
    unfold Apart
    omega
  refine and_congr_right fun _ => and_congr_right fun _ => ⟨fun hall y hy => ?_, fun hall p hp => ?_⟩
  · have hlive : y.1 + headerSize ∈ s.live := hs.live.mem_iff.mpr (List.mem_map_of_mem hy)
    have hboth := hall _ hlive
    rw [Nat.add_sub_cancel, hs.rep.size_at hy] at hboth
    exact (hone _ _).mp hboth
  · obtain ⟨y, hy, rfl⟩ := List.mem_map.mp (hs.live.mem_iff.mp hp)
    rw [Nat.add_sub_cancel, hs.rep.size_at hy]
    exact (hone _ _).mpr (hall y hy)

/-- **Completeness.**  A request that does not wrap around is served iff there is an unused range
that has room for it and a header. -/
theorem KInv.kmalloc_ok_iff {s : KState} {bs : List Block} {size : Nat} (hs : KInv s bs)
    (hpos : 0 < size) (hsize : size < 2 ^ 32) :
    (∃ r, kmalloc s.heap size = .ok r) ↔ ∃ a n, headerSize + size ≤ n ∧ s.Unused a n := by
  rw [hs.rep.kmalloc_ok_iff hpos]
  constructor
  · rintro ⟨b, hb, hfree, hfit⟩
    obtain ⟨pre, post, rfl⟩ := List.append_of_mem hb
    have hround := le_roundUp4 (show size + 3 < 2 ^ 64 by omega)
    refine ⟨heapStart + span headerSize pre, headerSize + b.size, by omega,
      (hs.unused_iff (by have := headerSize_pos; omega)).mpr ⟨by omega, ?_, fun y hy => ?_⟩⟩
    · have hspan := hs.rep.span
      simp only [span_append, span_cons] at hspan
      omega
    · exact apart_inUse_of_free headerSize_pos hfree hy
  · rintro ⟨a, n, hn, hunused⟩
    obtain ⟨hlo, hhi, hapart⟩ := (hs.unused_iff (by omega)).mp hunused
    obtain ⟨b, hb, hfree, hfit⟩ := exists_free_of_gap (show 0 < n by omega) hs.rep.coalesced hlo
      (by rw [hs.rep.span]; exact hhi) hapart
    -- the block's size is a multiple of 4, so that it holds the rounded request as well
    have hdvd := hs.rep.aligned b hb
    refine ⟨b, hb, hfree, ?_⟩
    unfold roundUp4
    split
    · rw [add64_eq (by omega)]
      omega
    · omega

/-- **Reversibility.**  With nothing live the heap is what `mem_init` builds. -/
theorem KInv.eq_memInit {s : KState} {bs : List Block} (hs : KInv s bs) (hlive : s.live = []) :
    s.heap = memInit s.heap.mem := by
  have hnone : inUse headerSize heapStart bs = [] := by
    have := hs.live
    rw [hlive] at this
    exact List.map_eq_nil_iff.mp this.symm.eq_nil
  obtain rfl : bs = [⟨heapSize - headerSize, true⟩] := by
    refine (memInit_rep s.heap.mem).unique hs.rep ?_
    rw [hnone]
    simp [inUse]
  have hstart := hs.rep.start
  have hused := hs.rep.used
  have hhead : s.heap.mem heapStart = ⟨heapSize - headerSize, true, 0⟩ := hs.rep.chain.1
  have hmem : Function.update s.heap.mem heapStart ⟨heapSize - headerSize, true, 0⟩ = s.heap.mem := by
    rw [← hhead]
    exact Function.update_eq_self _ _
  generalize s.heap = h at *
  cases h
  simp only [usedBytes, inUse, if_true, List.map_nil, List.sum_nil] at hstart hused hmem
  simp only [memInit, hstart, hused, hmem]

/-- **The kernel heap is complete and reversible.**  In every state that is reached, `kmalloc`
serves a request exactly when some range of the arena has room for it, and once everything has been
freed, in whatever order, the heap is the one that `mem_init` builds: one free block, nothing used. -/
theorem kernel_heap_complete (memory : Headers) (s : KState) (hs : KReach memory s) :
    (∀ size, 0 < size → size < 2 ^ 32 →
      ((∃ r, kmalloc s.heap size = .ok r) ↔ ∃ a n, headerSize + size ≤ n ∧ s.Unused a n)) ∧
    (s.live = [] → s.heap = memInit s.heap.mem) := by
  obtain ⟨bs, hinv⟩ := hs.inv
  exact ⟨fun size hpos hsize => hinv.kmalloc_ok_iff hpos hsize, hinv.eq_memInit⟩

/-- Two blocks are taken and the first one is freed first: nearly all of the arena is refused until
the second one is freed too. -/
theorem kernel_heap_complete_two_blocks :
    ∃ h h' : KHeap, KReach (fun _ => ⟨0, false, 0⟩) ⟨h, [heapStart + 60]⟩ ∧
      (¬ ∃ a n, headerSize + 0xFFFFB0 ≤ n ∧ KState.Unused ⟨h, [heapStart + 60]⟩ a n) ∧
      KReach (fun _ => ⟨0, false, 0⟩) ⟨h', []⟩ ∧ h' = memInit h'.mem := by
  obtain ⟨a, b, c, d, hp, hq, hfree, ⟨e, hrefused⟩, hfree'⟩ : ∃ a b c d,
      kmalloc (memInit fun _ => ⟨0, false, 0⟩) 10 = .ok (heapStart + 24, a) ∧
      kmalloc a 10 = .ok (heapStart + 60, b) ∧ kfree b (heapStart + 24) = .ok c ∧
      (∃ e, kmalloc c 0xFFFFB0 = .error e) ∧ kfree c (heapStart + 60) = .ok d :=
    ⟨_, _, _, _, rfl, rfl, rfl, ⟨_, rfl⟩, rfl⟩
  have htwo : KReach (fun _ => ⟨0, false, 0⟩) ⟨b, [heapStart + 60, heapStart + 24]⟩ :=
    (ReflTransGen.single (KStep.kmalloc (by decide) (by decide) hp)).tail
      (KStep.kmalloc (by decide) (by decide) hq)
  have hone : KReach (fun _ => ⟨0, false, 0⟩) ⟨c, [heapStart + 60]⟩ :=
    htwo.tail (@KStep.kfree ⟨b, [heapStart + 60, heapStart + 24]⟩ _ c (by simp) hfree)
  have hnone : KReach (fun _ => ⟨0, false, 0⟩) ⟨d, []⟩ :=
    hone.tail (@KStep.kfree ⟨c, [heapStart + 60]⟩ _ d (by simp) hfree')
  refine ⟨c, d, hone, fun hunused => ?_, hnone, (kernel_heap_complete _ _ hnone).2 rfl⟩
  obtain ⟨r, hr⟩ := ((kernel_heap_complete _ _ hone).1 _ (by decide) (by decide)).mpr hunused
  rw [hrefused] at hr
  cases hr

end AcornOS
